import SetBench.DcsspQueryInv

/-! The invariant of the dcssp operations and the steps of the updates. -/
namespace SetBench.DcsspQuery

open RangeQuery (Update)

variable {A V T N : Type}

/-! Threads. -/

-- Between two dcssp operations.
def Desc.Rest (d : Desc A V N) : Prop :=
  d.seq % 2 = 1 ∧ (d.state = .succeeded → d.payload1 = [] ∧ d.payload2 = []) ∧
    (d.installed = true → d.state ≠ .undecided)

structure Desc.Written (d : Desc A V N) (u : Update A V N) (args : Args A V) : Prop where
  args : d.args = args
  inserted : d.inserted = u.insertedNodes
  deleted : d.deleted = u.deletedNodes
  payload1 : d.payload1 = u.insertedNodes
  payload2 : d.payload2 = u.deletedNodes

def Desc.Done (d : Desc A V N) (u : Update A V N) (old1 : Nat) : Prop :=
  d.seq % 2 = 1 ∧ (∃ args, d.Written u args ∧ args.old1 = old1) ∧ d.state = .succeeded

def Stage.Good (s : Shared A V T N) (t : T) (u : Update A V N) : Stage A V T N → Prop
  | .readTime | .readAddr _ | .readHelp _ _ | .descNew _ => (s.desc t).Rest
  | .fill _ => (s.desc t).seq % 2 = 0 ∧ (s.desc t).state = .undecided ∧ (s.desc t).installed = false
  | .initialized args =>
      (s.desc t).seq % 2 = 0 ∧ (s.desc t).state = .undecided ∧ (s.desc t).installed = false ∧
      (s.desc t).Written u args
  | .install args | .installHelp args _ =>
      (s.desc t).seq % 2 = 1 ∧ (s.desc t).state ≠ .succeeded ∧ (s.desc t).installed = false ∧
      (s.desc t).Written u args
  | .own args help =>
      (s.desc t).seq % 2 = 1 ∧ (s.desc t).installed = true ∧ (s.desc t).Written u args ∧
      help.owner = t ∧ help.seq = (s.desc t).seq
  | .setInsertionTimestamps old1 rest => (s.desc t).Done u old1 ∧ rest ⊆ u.insertedNodes
      ∧ ∀ node ∈ u.insertedNodes, node ∈ rest ∨ s.itime node ≠ 0
  | .setDeletionTimestamps old1 rest =>
      (s.desc t).Done u old1 ∧ rest ⊆ u.deletedNodes ∧ (∀ node ∈ u.insertedNodes, s.itime node ≠ 0)
      ∧ ∀ node ∈ u.deletedNodes, node ∈ rest ∨ s.dtime node ≠ 0
  | .discardPayload1 =>
      (s.desc t).seq % 2 = 1 ∧ (s.desc t).state = .succeeded ∧
      (∀ node ∈ (s.desc t).payload1, s.itime node ≠ 0)
      ∧ ∀ node ∈ (s.desc t).payload2, s.dtime node ≠ 0
  | .discardPayload2 =>
      (s.desc t).seq % 2 = 1 ∧ (s.desc t).state = .succeeded ∧ (s.desc t).payload1 = []
      ∧ ∀ node ∈ (s.desc t).payload2, s.dtime node ≠ 0

def Pc.Good (s : Shared A V T N) (t : T) : Pc A V T N → Prop
  | .update u stage => stage.Good s t u
  | _ => (s.desc t).Rest

def Pc.Sees (s : Shared A V T N) : Pc A V T N → Prop
  | .update _ (.readHelp _ help) | .update _ (.installHelp _ help) => help.Installed s
  | _ => True

structure Facts (w : World A V T N) : Prop where
  positive : 0 < w.timestamp
  done : ∀ p, (w.desc p).state = .succeeded → 0 < (w.desc p).args.old1 ∧
    (∀ node ∈ (w.desc p).inserted, w.born node = (w.desc p).args.old1)
    ∧ ∀ node ∈ (w.desc p).deleted, w.died node = (w.desc p).args.old1
  bornSet : ∀ node, w.born node ≠ 0 → w.itime node = 0 → ∃ p, w.shared.Inserts p node ∧
    (w.desc p).args.old1 = w.born node
  diedSet : ∀ node, w.died node ≠ 0 → w.dtime node = 0 → ∃ p, (w.desc p).seq % 2 = 1 ∧
    (w.desc p).state = .succeeded
    ∧ node ∈ (w.desc p).payload2 ∧ (w.desc p).args.old1 = w.died node
  itime : ∀ node, w.itime node ≠ 0 → w.itime node = w.born node
  dtime : ∀ node, w.dtime node ≠ 0 → w.dtime node = w.died node
  within : ∀ p, (w.desc p).payload1 ⊆ (w.desc p).inserted ∧ (w.desc p).payload2 ⊆ (w.desc p).deleted
  words : ∀ p, (w.desc p).installed = true → (w.desc p).state = .undecided →
    w.mem (w.desc p).args.addr2 = .tag p (w.desc p).seq
  tags : ∀ a p seq, w.mem a = .tag p seq → seq ≤ (w.desc p).seq ∧ seq % 2 = 1 ∧
    ((w.desc p).seq = seq → (w.desc p).installed = true)

structure Inv (w : World A V T N) : Prop where
  facts : Facts w
  threads : ∀ t, (w.pc t).Good w.shared t
  helps : ∀ t help, (w.pc t).help = some help → help.Ok w.shared
  sees : ∀ t, (w.pc t).Sees w.shared
  queries : ∀ t, (w.pc t).QueryOk w.shared
  decisions : ∀ d ∈ w.decisions, d.Ok w.shared

-- What another thread may do to a descriptor: set the state of an installed dcssp, or let one fail.
def Touched (d d' : Desc A V N) : Prop :=
  d' = d ∨ d.seq % 2 = 1 ∧ d.state = .undecided ∧
    (d' = { d with state := .failed } ∨ d' = { d with state := .succeeded } ∧ d.installed = true)

theorem Desc.Written.touched {d d' : Desc A V N} {u : Update A V N} {args : Args A V}
    (written : d.Written u args) (touched : Touched d d') :
    d'.Written u args := by
  rcases touched with rfl | ⟨_, _, rfl | ⟨rfl, _⟩⟩
  · exact written
  · exact ⟨written.args, written.inserted, written.deleted, written.payload1, written.payload2⟩
  · exact ⟨written.args, written.inserted, written.deleted, written.payload1, written.payload2⟩

theorem Desc.Rest.touched {d d' : Desc A V N} (rest : d.Rest) (touched : Touched d d') :
    d'.Rest := by
  rcases touched with rfl | ⟨odd, undecided, rfl | ⟨rfl, installed⟩⟩
  · exact rest
  · exact ⟨odd, nofun, fun _ => nofun⟩
  · exact (rest.2.2 installed undecided).elim

-- A descriptor that is decided is not touched.
theorem Touched.decided {d d' : Desc A V N} (touched : Touched d d')
    (decided : d.state = .succeeded) : d' = d := by
  rcases touched with same | ⟨_, undecided, _⟩
  · exact same
  · rw [decided] at undecided
    cases undecided

theorem Touched.even {d d' : Desc A V N} (touched : Touched d d') (even : d.seq % 2 = 0) :
    d' = d := by
  rcases touched with same | ⟨odd, _⟩
  · exact same
  · omega

theorem Touched.flags {d d' : Desc A V N} (touched : Touched d d') :
    d'.seq = d.seq ∧ d'.installed = d.installed := by
  rcases touched with rfl | ⟨_, _, rfl | ⟨rfl, _⟩⟩
  · exact ⟨rfl, rfl⟩
  · exact ⟨rfl, rfl⟩
  · exact ⟨rfl, rfl⟩

theorem Touched.rest {d d' : Desc A V N} (touched : Touched d d') :
    d'.args = d.args ∧ d'.inserted = d.inserted ∧ d'.deleted = d.deleted
    ∧ d'.payload1 = d.payload1 ∧ d'.payload2 = d.payload2 := by
  rcases touched with rfl | ⟨_, _, rfl | ⟨rfl, _⟩⟩
  · exact ⟨rfl, rfl, rfl, rfl, rfl⟩
  · exact ⟨rfl, rfl, rfl, rfl, rfl⟩
  · exact ⟨rfl, rfl, rfl, rfl, rfl⟩

theorem Touched.within {d d' : Desc A V N} (touched : Touched d d')
    (within : d.payload1 ⊆ d.inserted ∧ d.payload2 ⊆ d.deleted) :
    d'.payload1 ⊆ d'.inserted ∧ d'.payload2 ⊆ d'.deleted := by
  obtain ⟨_, inserted, deleted, payload1, payload2⟩ := touched.rest
  rw [inserted, deleted, payload1, payload2]
  exact within

-- Descriptors are touched, and no helper promises anything new.
theorem Later.of_touched {w after : World A V T N}
    (touched : ∀ p, Touched (w.desc p) (after.desc p)) (time : w.timestamp = after.timestamp)
    (pending : ∀ p seq, after.pending p seq → w.pending p seq)
    (success : ∀ p, (w.desc p).state = .undecided → (after.desc p).state = .succeeded →
      w.pending p (w.desc p).seq ∧ ∀ node ∈ (w.desc p).payload1, w.born node = 0)
    (born : ∀ node, w.born node ≠ 0 → after.born node = w.born node)
    (died : ∀ node, after.died node = w.died node ∨ w.died node = 0 ∧ ∃ p, (w.desc p).seq % 2 = 1 ∧
      node ∈ (w.desc p).payload2 ∧ (w.desc p).state = .undecided ∧ w.pending p (w.desc p).seq ∧
      after.died node = (w.desc p).args.old1)
    (itime : after.itime = w.itime) (dtime : after.dtime = w.dtime) :
    Later w.shared after.shared := by
  refine ⟨time.le, fun p => (touched p).flags.1.ge, fun p _ _ => ?_, fun p _ _ => ?_,
    fun p _ _ yes => (touched p).flags.2.trans yes, fun p _ _ => ?_,
    fun p apart => (apart (touched p).flags.1).elim, fun p seq yes => .inl (pending p seq yes),
      born, died, fun node some_ => ?_, fun node some_ => ?_⟩
  · obtain ⟨args, inserted, deleted, _⟩ := (touched p).rest
    exact ⟨args, inserted, deleted⟩
  · obtain ⟨_, _, _, payload1, payload2⟩ := (touched p).rest
    refine ⟨fun _ member => ?_, fun _ member => ?_⟩
    · exact (show (after.desc p).payload1 = (w.desc p).payload1 from payload1) ▸ member
    · exact (show (after.desc p).payload2 = (w.desc p).payload2 from payload2) ▸ member
  · rcases touched p with same | ⟨_, undecided, same | ⟨same, _⟩⟩
    · exact .inl (congrArg Desc.state same)
    · exact .inr ⟨undecided, .inl (congrArg Desc.state same)⟩
    · have state : (after.desc p).state = .succeeded := congrArg Desc.state same
      exact .inr ⟨undecided, .inr ⟨state, success p undecided state⟩⟩
  · show after.itime node ≠ 0
    rw [itime]
    exact some_
  · show after.dtime node ≠ 0
    rw [dtime]
    exact some_

theorem Pc.Good.touched {s s' : Shared A V T N} {t : T} {pc : Pc A V T N} (good : pc.Good s t)
    (touched : Touched (s.desc t) (s'.desc t))
    (itime : ∀ node, s.itime node ≠ 0 → s'.itime node ≠ 0)
    (dtime : ∀ node, s.dtime node ≠ 0 → s'.dtime node ≠ 0) : pc.Good s' t := by
  obtain ⟨seq, installed⟩ := touched.flags
  cases pc with
  | idle => exact Desc.Rest.touched good touched
  | query time => exact Desc.Rest.touched good touched
  | trying time node found try_ => exact Desc.Rest.touched good touched
  | update u stage =>
      cases stage with
      | readTime | readAddr | readHelp | descNew => exact Desc.Rest.touched good touched
      | fill args =>
          have same := touched.even good.1
          show (s'.desc t).seq % 2 = 0 ∧ (s'.desc t).state = .undecided ∧ (s'.desc t).installed =
            false
          rw [same]
          exact good
      | initialized args =>
          have same := touched.even good.1
          show (s'.desc t).seq % 2 = 0 ∧ (s'.desc t).state = .undecided ∧ (s'.desc t).installed =
            false ∧ (s'.desc t).Written u args
          rw [same]
          exact good
      | install args | installHelp args help =>
          obtain ⟨odd, state, absent, written⟩ := good
          refine ⟨by rw [seq]; exact odd, ?_, installed.trans absent, written.touched touched⟩
          rcases touched with same | ⟨_, _, same | ⟨_, present⟩⟩
          · rw [same]
            exact state
          · rw [same]
            nofun
          · rw [absent] at present
            cases present
      | own args help =>
          obtain ⟨odd, present, written, owner, number⟩ := good
          exact ⟨by rw [seq]; exact odd, installed.trans present, written.touched touched, owner,
            number.trans seq.symm⟩
      | setInsertionTimestamps old1 rest =>
          have same := touched.decided good.1.2.2
          refine ⟨?_, good.2.1, fun node member => (good.2.2 node member).imp_right (itime node)⟩
          rw [same]
          exact good.1
      | setDeletionTimestamps old1 rest =>
          have same := touched.decided good.1.2.2
          refine ⟨?_, good.2.1, fun node member => itime node (good.2.2.1 node member),
            fun node member => (good.2.2.2 node member).imp_right (dtime node)⟩
          rw [same]
          exact good.1
      | discardPayload1 =>
          have same := touched.decided good.2.1
          show (s'.desc t).seq % 2 = 1 ∧ (s'.desc t).state = .succeeded ∧
            (∀ node ∈ (s'.desc t).payload1, s'.itime node ≠ 0)
            ∧ ∀ node ∈ (s'.desc t).payload2, s'.dtime node ≠ 0
          rw [same]
          exact ⟨good.1, good.2.1, fun node member => itime node (good.2.2.1 node member),
            fun node member => dtime node (good.2.2.2 node member)⟩
      | discardPayload2 =>
          have same := touched.decided good.2.1
          show (s'.desc t).seq % 2 = 1 ∧ (s'.desc t).state = .succeeded ∧ (s'.desc t).payload1 =
            [] ∧ ∀ node ∈ (s'.desc t).payload2, s'.dtime node ≠ 0
          rw [same]
          exact ⟨good.1, good.2.1, good.2.2.1,
            fun node member => dtime node (good.2.2.2 node member)⟩

theorem Later.sees {s s' : Shared A V T N} (later : Later s s') {pc : Pc A V T N}
    (helps : ∀ help, pc.help = some help → help.Ok s) (sees : pc.Sees s) : pc.Sees s' := by
  cases pc with
  | idle | query | trying => trivial
  | update u stage =>
      cases stage with
      | readHelp old1 help => exact later.help_installed (helps help rfl) sees
      | installHelp args help => exact later.help_installed (helps help rfl) sees
      | readTime | readAddr | descNew | fill | initialized | install | own
      | setInsertionTimestamps | setDeletionTimestamps
        | discardPayload1 | discardPayload2 => trivial

theorem Inv.advance {w : World A V T N} (inv : Inv w) (tid : T) {after : World A V T N}
    (facts : Facts after) (later : Later w.shared after.shared)
    (others : ∀ v, v ≠ tid → after.pc v = w.pc v ∧ Touched (w.desc v) (after.desc v))
    (decisions : ∀ d ∈ after.decisions, d ∈ w.decisions ∨ d.Ok after.shared)
    (good : (after.pc tid).Good after.shared tid)
    (help : ∀ help, (after.pc tid).help = some help → help.Ok after.shared)
    (sees : (after.pc tid).Sees after.shared) (ok : (after.pc tid).QueryOk after.shared) :
    Inv after := by
  refine ⟨facts, fun v => ?_, fun v => ?_, fun v => ?_, fun v => ?_, fun d member => ?_⟩
  · by_cases self : v = tid
    · rw [self]
      exact good
    · rw [(others v self).1]
      exact (inv.threads v).touched (others v self).2 later.itime later.dtime
  · by_cases self : v = tid
    · rw [self]
      exact help
    · rw [(others v self).1]
      exact fun help same => later.help_ok (inv.helps v help same)
  · by_cases self : v = tid
    · rw [self]
      exact sees
    · rw [(others v self).1]
      exact later.sees (inv.helps v) (inv.sees v)
  · by_cases self : v = tid
    · rw [self]
      exact ok
    · rw [(others v self).1]
      exact later.query_ok (inv.queries v)
  · rcases decisions d member with old | new
    · exact later.decision (inv.decisions d old)
    · exact new

section Pending

variable [DecidableEq T]

-- A step of `tid` can only add the promise of its own helper.
theorem pending_of {w after : World A V T N} {tid : T}
    (others : ∀ v, v ≠ tid → after.pc v = w.pc v) {p : T} {seq : Nat}
    (pending : after.pending p seq) :
    w.pending p seq ∨ ∃ help, (after.pc tid).help = some help ∧ help.owner = p ∧ help.seq = seq ∧
      help.phase.promises = true := by
  obtain ⟨t, help, here, rest⟩ := pending
  by_cases self : t = tid
  · rw [self] at here
    exact .inr ⟨help, here, rest⟩
  · rw [others t self] at here
    exact .inl ⟨t, help, here, rest⟩

variable {w : World A V T N} {tid : T}

-- No descriptor changes.
theorem Later.still {after : World A V T N} (desc : after.desc = w.desc)
    (born : after.born = w.born) (died : after.died = w.died)
    (time : w.timestamp ≤ after.timestamp)
    (itime : ∀ node, w.itime node ≠ 0 → after.itime node ≠ 0)
    (dtime : ∀ node, w.dtime node ≠ 0 → after.dtime node ≠ 0)
    (others : ∀ v, v ≠ tid → after.pc v = w.pc v)
    (promise : ∀ help, (after.pc tid).help = some help → help.phase.promises = true →
      w.pending help.owner help.seq ∨
      ((w.desc help.owner).seq = help.seq → w.timestamp = (w.desc help.owner).args.old1)) :
    Later w.shared after.shared := by
  have same (p : T) : after.shared.desc p = w.shared.desc p := congrFun desc p
  refine ⟨time, fun p => ?_, fun p _ _ => ?_, fun p _ _ => ?_, fun p _ _ yes => ?_,
    fun p _ _ => .inl ?_, fun p apart => ?_, fun p seq pending => ?_,
    fun node _ => ?_, fun node => .inl ?_, itime, dtime⟩
  · rw [same p]
  · rw [same p]
    exact ⟨rfl, rfl, rfl⟩
  · rw [same p]
    exact ⟨fun _ member => member, fun _ member => member⟩
  · rw [same p]
    exact yes
  · rw [same p]
  · rw [same p] at apart
    exact (apart rfl).elim
  · rcases pending_of others pending with old | ⟨help, here, rfl, rfl, yes⟩
    · exact .inl old
    · exact promise help here yes
  · exact congrFun born node
  · exact congrFun died node

theorem Inv.goto (inv : Inv w) {pc : Pc A V T N} (good : pc.Good w.shared tid)
    (help : ∀ help, pc.help = some help → help.Ok w.shared) (sees : pc.Sees w.shared)
    (ok : pc.QueryOk w.shared)
    (promise : ∀ help, pc.help = some help → help.phase.promises = true →
      w.pending help.owner help.seq ∨
      ((w.desc help.owner).seq = help.seq → w.timestamp = (w.desc help.owner).args.old1)) :
    Inv (w.goto tid pc) := by
  have self : (w.goto tid pc).pc tid = pc := Function.update_self ..
  have others (v : T) (apart : v ≠ tid) : (w.goto tid pc).pc v = w.pc v :=
    Function.update_of_ne apart ..
  have later : Later w.shared (w.goto tid pc).shared :=
    Later.still rfl rfl rfl (Nat.le_refl _) (fun _ some_ => some_) (fun _ some_ => some_) others
      (by rw [self]; exact promise)
  refine inv.advance tid ⟨inv.facts.positive, inv.facts.done, inv.facts.bornSet, inv.facts.diedSet,
    inv.facts.itime, inv.facts.dtime, inv.facts.within, inv.facts.words,
    inv.facts.tags⟩ later (fun v apart => ⟨others v apart, .inl rfl⟩) (fun d member => .inl member)
      ?_ ?_ ?_ ?_
  · rw [self]
    exact good.touched (.inl rfl) (fun _ some_ => some_) fun _ some_ => some_
  · rw [self]
    exact fun h same => later.help_ok (help h same)
  · rw [self]
    exact later.sees help sees
  · rw [self]
    exact later.query_ok ok

end Pending

/-! dcsspHelp. -/

-- A dcssp that is installed and undecided is the one that its owner is running.
theorem Inv.running {w : World A V T N} (inv : Inv w) {p : T}
    (installed : (w.desc p).installed = true) (undecided : (w.desc p).state = .undecided) :
    (w.desc p).payload1 = (w.desc p).inserted ∧ (w.desc p).payload2 = (w.desc p).deleted := by
  have rest (good : (w.desc p).Rest) : False := good.2.2 installed undecided
  have good := inv.threads p
  cases place : w.pc p with
  | idle | query | trying =>
      rw [place] at good
      exact (rest good).elim
  | update u stage =>
      rw [place] at good
      cases stage with
      | readTime | readAddr | readHelp | descNew => exact (rest good).elim
      | fill args =>
          have absent : (w.desc p).installed = false := good.2.2
          rw [installed] at absent
          cases absent
      | initialized args | install args | installHelp args help =>
          have absent : (w.desc p).installed = false := good.2.2.1
          rw [installed] at absent
          cases absent
      | own args help =>
          have written : (w.desc p).Written u args := good.2.2.1
          exact ⟨written.payload1.trans written.inserted.symm,
            written.payload2.trans written.deleted.symm⟩
      | setInsertionTimestamps old1 nodes | setDeletionTimestamps old1 nodes =>
          have decided : (w.desc p).state = .succeeded := good.1.2.2
          rw [undecided] at decided
          cases decided
      | discardPayload1 | discardPayload2 =>
          have decided : (w.desc p).state = .succeeded := good.2.1
          rw [undecided] at decided
          cases decided

section Decides

variable [DecidableEq T] [DecidableEq N] {w : World A V T N} {owner : T}

theorem decideState_other {succeeds : Bool} {p : T} (apart : p ≠ owner) :
    (w.decideState owner succeeds).desc p = w.desc p := by
  cases succeeds with
  | false => exact Function.update_of_ne apart ..
  | true => exact Function.update_of_ne apart ..

theorem decideState_self (succeeds : Bool) :
    (w.decideState owner succeeds).desc owner =
    { w.desc owner with state := if succeeds then .succeeded else .failed } := by
  cases succeeds with
  | false => exact Function.update_self ..
  | true => exact Function.update_self ..

variable (facts : Facts w) (odd : (w.desc owner).seq % 2 = 1)
    (undecided : (w.desc owner).state = .undecided)

section Touches

variable {succeeds : Bool}

include odd undecided in
theorem decideState_touched (installed : succeeds = true → (w.desc owner).installed = true)
    (p : T) :
    Touched (w.desc p) ((w.decideState owner succeeds).desc p) := by
  by_cases same : p = owner
  · rw [same, decideState_self]
    cases succeeds with
    | false => exact .inr ⟨odd, undecided, .inl rfl⟩
    | true => exact .inr ⟨odd, undecided, .inr ⟨rfl, installed rfl⟩⟩
  · rw [decideState_other same]
    exact .inl rfl

include undecided in
omit [DecidableEq T] [DecidableEq N] in
-- Whoever has succeeded before is another.
theorem succeeded_apart {p : T} (succeeded : (w.desc p).state = .succeeded) : p ≠ owner := by
  rintro rfl
  rw [undecided] at succeeded
  cases succeeded

include facts in
theorem Facts.words_decide {p : T}
    (installed : ((w.decideState owner succeeds).desc p).installed = true)
    (state : ((w.decideState owner succeeds).desc p).state = .undecided) :
    w.mem ((w.decideState owner succeeds).desc p).args.addr2 =
      .tag p ((w.decideState owner succeeds).desc p).seq := by
  by_cases same : p = owner
  · rw [same, decideState_self] at state
    cases succeeds <;> cases state
  · rw [decideState_other same] at installed state ⊢
    exact facts.words p installed state

include facts in
omit [DecidableEq N] [DecidableEq T] in
theorem Facts.tags_touched {after : World A V T N}
    (touched : ∀ p, Touched (w.desc p) (after.desc p)) {a : A} {p : T} {seq : Nat}
    (tag : w.mem a = .tag p seq) :
    seq ≤ (after.desc p).seq ∧ seq % 2 = 1 ∧
      ((after.desc p).seq = seq → (after.desc p).installed = true) := by
  obtain ⟨low, number, yes⟩ := facts.tags a p seq tag
  obtain ⟨same, flag⟩ := (touched p).flags
  exact ⟨same.symm ▸ low, number, fun now => flag.trans (yes (same.symm.trans now))⟩

end Touches

include facts odd undecided

-- A dcssp that has failed neither inserts nor deletes.
theorem Facts.fails : Facts (w.decideState owner false) := by
  have touched (p : T) : Touched (w.desc p) ((w.decideState owner false).desc p) :=
    decideState_touched odd undecided (fun no => absurd no Bool.false_ne_true) p
  refine ⟨facts.positive, fun p state => ?_, fun node some_ zero => ?_, fun node some_ zero => ?_,
    facts.itime, facts.dtime,
    fun p => (touched p).within (facts.within p), fun p installed state =>
      facts.words_decide installed state,
    fun a p seq tag => facts.tags_touched touched tag⟩
  · by_cases same : p = owner
    · rw [same, decideState_self] at state
      cases state
    · rw [decideState_other same] at state ⊢
      exact facts.done p state
  · obtain ⟨p, ⟨odd', state, member⟩, value⟩ := facts.bornSet node some_ zero
    refine ⟨p, ?_⟩
    show (((w.decideState owner false).desc p).seq % 2 = 1 ∧
      ((w.decideState owner false).desc p).state = .succeeded
      ∧ node ∈ ((w.decideState owner false).desc p).payload1) ∧
        ((w.decideState owner false).desc p).args.old1 = w.born node
    rw [decideState_other (succeeded_apart undecided state)]
    exact ⟨⟨odd', state, member⟩, value⟩
  · obtain ⟨p, odd', state, member, value⟩ := facts.diedSet node some_ zero
    refine ⟨p, ?_⟩
    rw [decideState_other (succeeded_apart undecided state)]
    exact ⟨odd', state, member, value⟩

variable (installed : (w.desc owner).installed = true) (positive : 0 < (w.desc owner).args.old1)
    (valid : (w.desc owner).Valid w)
  (full : (w.desc owner).payload1 = (w.desc owner).inserted ∧
    (w.desc owner).payload2 = (w.desc owner).deleted)

omit facts odd undecided in
theorem born_decide (node : N) : (w.decideState owner true).born node =
    if node ∈ (w.desc owner).inserted then (w.desc owner).args.old1 else w.born node := rfl

omit facts odd undecided in
theorem died_decide (node : N) : (w.decideState owner true).died node =
    if node ∈ (w.desc owner).deleted then (w.desc owner).args.old1 else w.died node := rfl

include valid

omit facts odd undecided in
theorem born_kept {node : N} (some_ : w.born node ≠ 0) :
    (w.decideState owner true).born node = w.born node := by
  rw [born_decide, if_neg fun member => some_ (valid.1 node member)]

omit facts odd undecided in
theorem died_kept {node : N} (some_ : w.died node ≠ 0) :
    (w.decideState owner true).died node = w.died node := by
  rw [died_decide, if_neg fun member => some_ (valid.2 node member)]

include installed positive full

/-- A dcssp that succeeds inserts and deletes what its payloads hold, at its old1. -/
theorem Facts.succeeds : Facts (w.decideState owner true) := by
  have touched (p : T) : Touched (w.desc p) ((w.decideState owner true).desc p) :=
    decideState_touched odd undecided (fun _ => installed) p
  refine ⟨facts.positive, fun p state => ?_, fun node some_ zero => ?_, fun node some_ zero => ?_,
    fun node some_ => ?_, fun node some_ => ?_,
    fun p => (touched p).within (facts.within p), fun p installed state =>
      facts.words_decide installed state,
    fun a p seq tag => facts.tags_touched touched tag⟩
  · by_cases same : p = owner
    · rw [same, decideState_self]
      exact ⟨positive, fun node member => (born_decide node).trans (if_pos member),
        fun node member => (died_decide node).trans (if_pos member)⟩
    · rw [decideState_other same] at state ⊢
      obtain ⟨positive', births, deaths⟩ := facts.done p state
      refine ⟨positive', fun node member => ?_, fun node member => ?_⟩
      · rw [born_kept valid (by rw [births node member]; omega)]
        exact births node member
      · rw [died_kept valid (by rw [deaths node member]; omega)]
        exact deaths node member
  · show ∃ p, (((w.decideState owner true).desc p).seq % 2 = 1 ∧
      ((w.decideState owner true).desc p).state = .succeeded
      ∧ node ∈ ((w.decideState owner true).desc p).payload1) ∧
        ((w.decideState owner true).desc p).args.old1 = (w.decideState owner true).born node
    by_cases new : node ∈ (w.desc owner).inserted
    · refine ⟨owner, ?_⟩
      rw [decideState_self, born_decide, if_pos new]
      exact ⟨⟨odd, rfl, full.1.symm ▸ new⟩, rfl⟩
    · rw [born_decide, if_neg new] at some_ ⊢
      obtain ⟨p, ⟨odd', state, member⟩, value⟩ := facts.bornSet node some_ zero
      refine ⟨p, ?_⟩
      rw [decideState_other (succeeded_apart undecided state)]
      exact ⟨⟨odd', state, member⟩, value⟩
  · by_cases gone : node ∈ (w.desc owner).deleted
    · refine ⟨owner, ?_⟩
      rw [decideState_self, died_decide, if_pos gone]
      exact ⟨odd, rfl, full.2.symm ▸ gone, rfl⟩
    · rw [died_decide, if_neg gone] at some_ ⊢
      obtain ⟨p, odd', state, member, value⟩ := facts.diedSet node some_ zero
      refine ⟨p, ?_⟩
      rw [decideState_other (succeeded_apart undecided state)]
      exact ⟨odd', state, member, value⟩
  · have old := facts.itime node some_
    exact old.trans (born_kept valid fun zero => some_ (old.trans zero)).symm
  · have old := facts.dtime node some_
    exact old.trans (died_kept valid fun zero => some_ (old.trans zero)).symm

end Decides

section Help

variable [DecidableEq T] {w : World A V T N} (inv : Inv w) {tid : T} {help : Help A V T}

/-- What a step of dcsspHelp leaves, when the thread goes on with `pc`. -/
structure Helped (w : World A V T N) (tid : T) (help : Help A V T) (next : World A V T N)
    (result : HelpPhase A V ⊕ Bool) (pc : Pc A V T N) : Prop where
  facts : Facts (next.goto tid pc)
  later : Later w.shared (next.goto tid pc).shared
  touched : ∀ v, Touched (w.desc v) (next.desc v)
  pcs : next.pc = w.pc
  decisions : next.decisions = w.decisions
  ok : ∀ h, pc.help = some h → h.Ok (next.goto tid pc).shared
  -- The call returns early only when the descriptor has been used again.
  ended : ∀ b, result = .inr b → (next.desc help.owner).seq = help.seq → ∃ args, help.phase =
    .finish args b

theorem goto_others (next : World A V T N) (pc : Pc A V T N) (v : T) (apart : v ≠ tid) :
    (next.goto tid pc).pc v = next.pc v :=
  Function.update_of_ne apart ..

theorem goto_self (next : World A V T N) (pc : Pc A V T N) : (next.goto tid pc).pc tid = pc :=
  Function.update_self ..

include inv

-- The thread only reads.
theorem Helped.reads {result : HelpPhase A V ⊕ Bool} {pc : Pc A V T N}
    (here : (w.pc tid).help = some help) (ok : ∀ h, pc.help = some h → h.Ok w.shared)
    (promise : ∀ h, pc.help = some h → h.phase.promises = true → h.owner = help.owner ∧
      h.seq = help.seq ∧ (help.phase.promises = true ∨
      ((w.desc help.owner).seq = help.seq → w.timestamp = (w.desc help.owner).args.old1)))
    (ended : ∀ b, result = .inr b → (w.desc help.owner).seq = help.seq →
      ∃ args, help.phase = .finish args b) :
    Helped w tid help w result pc := by
  have later : Later w.shared (w.goto tid pc).shared := by
    refine Later.still rfl rfl rfl (Nat.le_refl _) (fun _ some_ => some_) (fun _ some_ => some_)
      (goto_others w pc) fun h same yes => ?_
    rw [goto_self] at same
    obtain ⟨owner, seq, old | now⟩ := promise h same yes
    · exact .inl ⟨tid, help, here, owner.symm, seq.symm, old⟩
    · rw [owner, seq]
      exact .inr now
  exact ⟨⟨inv.facts.positive, inv.facts.done, inv.facts.bornSet, inv.facts.diedSet, inv.facts.itime,
    inv.facts.dtime, inv.facts.within, inv.facts.words, inv.facts.tags⟩,
    later, fun _ => .inl rfl, rfl, rfl, fun h same => later.help_ok (ok h same), ended⟩

omit inv in
-- A call that goes on without a promise.
theorem pending_finish {after : World A V T N} {args : Args A V} {succeeds : Bool}
    {pc : Pc A V T N} (next : pc.help = some { help with phase := .finish args succeeds })
    (others : ∀ v, v ≠ tid → after.pc v = w.pc v) (self : after.pc tid = pc) {p : T} {seq : Nat}
    (pending : after.pending p seq) : w.pending p seq := by
  rcases pending_of others pending with old | ⟨h, same, _, _, yes⟩
  · exact old
  · rw [self, next] at same
    cases same
    cases yes

section Cas

variable [DecidableEq N] {args : Args A V} {pc : Pc A V T N} (here : (w.pc tid).help = some help)
    (current : (w.desc help.owner).seq = help.seq)
  (undecided : (w.desc help.owner).state = .undecided)

include here current undecided

theorem Helped.fails (phase : help.phase = .cas args false)
    (next : pc.help = some { help with phase := .finish args false }) :
    Helped w tid help (w.decideState help.owner false) (.inl (.finish args false)) pc := by
  obtain ⟨le, odd, okPhase⟩ := inv.helps tid help here
  have okPhase := okPhase current
  rw [phase] at okPhase
  have odd' : (w.desc help.owner).seq % 2 = 1 := by rw [current]; exact odd
  have touched (p : T) : Touched (w.desc p) ((w.decideState help.owner false).desc p) :=
    decideState_touched odd' undecided (fun no => absurd no Bool.false_ne_true) p
  have facts := inv.facts.fails odd' undecided
  have later : Later w.shared ((w.decideState help.owner false).goto tid pc).shared := by
    refine Later.of_touched touched rfl (fun p seq pending => pending_finish next (goto_others _ pc)
      (goto_self _ pc) pending) (fun p was state => ?_)
      (fun node _ => rfl) (fun node => .inl rfl) rfl rfl
    have state : ((w.decideState help.owner false).desc p).state = .succeeded := state
    by_cases same : p = help.owner
    · rw [same, decideState_self] at state
      cases state
    · rw [decideState_other same, was] at state
      cases state
  refine ⟨⟨facts.positive, facts.done, facts.bornSet, facts.diedSet, facts.itime, facts.dtime,
    facts.within, facts.words, facts.tags⟩,
    later, touched, rfl, rfl, fun h same => ?_, nofun⟩
  rw [next] at same
  cases same
  refine ⟨le.trans (touched help.owner).flags.1.ge, odd, fun _ => ?_⟩
  show HelpPhase.Ok ((w.decideState help.owner false).desc help.owner) (.finish args false)
  rw [decideState_self]
  exact ⟨okPhase.1, nofun, ⟨nofun, nofun⟩⟩

theorem Helped.succeeds (phase : help.phase = .cas args true) (valid : (w.desc help.owner).Valid w)
    (next : pc.help = some { help with phase := .finish args true }) :
    Helped w tid help (w.decideState help.owner true) (.inl (.finish args true)) pc := by
  obtain ⟨le, odd, okPhase⟩ := inv.helps tid help here
  have okPhase := okPhase current
  rw [phase] at okPhase
  have odd' : (w.desc help.owner).seq % 2 = 1 := by rw [current]; exact odd
  obtain ⟨installed, positive⟩ := okPhase.2 rfl
  have full := inv.running installed undecided
  have promised : w.pending help.owner (w.desc help.owner).seq :=
    ⟨tid, help, here, rfl, current.symm, by rw [phase]; rfl⟩
  have touched (p : T) : Touched (w.desc p) ((w.decideState help.owner true).desc p) :=
    decideState_touched odd' undecided (fun _ => installed) p
  have facts := inv.facts.succeeds odd' undecided installed (okPhase.1 ▸ positive) valid full
  have later : Later w.shared ((w.decideState help.owner true).goto tid pc).shared := by
    refine Later.of_touched touched rfl (fun p seq pending => pending_finish next (goto_others _ pc)
      (goto_self _ pc) pending) (fun p was state => ?_)
      (fun node some_ => born_kept valid some_) (fun node => ?_) rfl rfl
    · by_cases same : p = help.owner
      · rw [same]
        exact ⟨promised, fun node member => valid.1 node (full.1 ▸ member)⟩
      · have state : ((w.decideState help.owner true).desc p).state = .succeeded := state
        rw [decideState_other same, was] at state
        cases state
    · by_cases gone : node ∈ (w.desc help.owner).deleted
      · refine .inr ⟨valid.2 node gone, help.owner, odd', full.2.symm ▸ gone, undecided,
          promised, ?_⟩
        exact (died_decide node).trans (if_pos gone)
      · exact .inl ((died_decide node).trans (if_neg gone))
  refine ⟨⟨facts.positive, facts.done, facts.bornSet, facts.diedSet, facts.itime, facts.dtime,
    facts.within, facts.words, facts.tags⟩,
    later, touched, rfl, rfl, fun h same => ?_, nofun⟩
  rw [next] at same
  cases same
  refine ⟨le.trans (touched help.owner).flags.1.ge, odd, fun _ => ?_⟩
  show HelpPhase.Ok ((w.decideState help.owner true).desc help.owner) (.finish args true)
  rw [decideState_self]
  exact ⟨okPhase.1, nofun, ⟨fun _ => rfl, fun _ => rfl⟩⟩

-- The compare-and-swap that sets the state.
theorem Helped.decides {succeeds : Bool} (phase : help.phase = .cas args succeeds)
    (valid : succeeds = true → (w.desc help.owner).Valid w)
    (next : pc.help = some { help with phase := .finish args succeeds }) :
    Helped w tid help (w.decideState help.owner succeeds) (.inl (.finish args succeeds)) pc := by
  cases succeeds with
  | false => exact Helped.fails inv here current undecided phase next
  | true => exact Helped.succeeds inv here current undecided phase (valid rfl) next

end Cas

-- The tagptr is taken out of addr2 again.
theorem Helped.finishes [DecidableEq A] [DecidableEq V] {args : Args A V} {succeeded : Bool}
    {value : Word V T} {pc : Pc A V T N} (here : (w.pc tid).help = some help)
    (phase : help.phase = .finish args succeeded) (untagged : ∀ p seq, value ≠ .tag p seq)
    (held : w.mem args.addr2 = .tag help.owner help.seq) (next : pc.help = none) :
    Helped w tid help (w.setMem args.addr2 value) (.inr succeeded) pc := by
  obtain ⟨_, _, okPhase⟩ := inv.helps tid help here
  have facts := inv.facts
  have later : Later w.shared ((w.setMem args.addr2 value).goto tid pc).shared := by
    refine Later.still rfl rfl rfl (Nat.le_refl _) (fun _ some_ => some_) (fun _ some_ => some_)
      (goto_others _ pc) fun h same _ => ?_
    rw [goto_self, next] at same
    cases same
  refine ⟨⟨facts.positive, facts.done, facts.bornSet, facts.diedSet, facts.itime, facts.dtime,
    facts.within, fun p installed undecided => ?_, fun a p seq tag => ?_⟩,
    later, fun _ => .inl rfl, rfl, rfl, fun h same => ?_, fun b same _ => ?_⟩
  · have old := facts.words p installed undecided
    show Function.update w.mem args.addr2 value (w.desc p).args.addr2 = .tag p (w.desc p).seq
    by_cases same : (w.desc p).args.addr2 = args.addr2
    · rw [same, held] at old
      obtain ⟨rfl, number⟩ := Word.tag.inj old
      have decided := okPhase number.symm
      rw [phase] at decided
      exact (decided.2.1 undecided).elim
    · rw [Function.update_of_ne same]
      exact old
  · have tag : Function.update w.mem args.addr2 value a = .tag p seq := tag
    by_cases same : a = args.addr2
    · rw [same, Function.update_self] at tag
      exact (untagged p seq tag).elim
    · rw [Function.update_of_ne same] at tag
      exact facts.tags a p seq tag
  · rw [next] at same
    cases same
  · cases same
    exact ⟨args, phase⟩

/-- One step of dcsspHelp, whoever runs it. `seen` says that the timestamp of a dcssp that is
not yet installed is not taken for its old1. -/
theorem Inv.helped [DecidableEq A] [DecidableEq V] [DecidableEq N] {next : World A V T N}
    {result : HelpPhase A V ⊕ Bool} (here : (w.pc tid).help = some help)
    (seen : ∀ args, help.phase = .readTime args → (w.desc help.owner).seq = help.seq →
      w.timestamp = args.old1 → (w.desc help.owner).installed = true)
    (moved : helpMove w help = some (next, result)) (pc : Pc A V T N)
    (goes : ∀ phase, result = .inl phase → pc.help = some { help with phase := phase })
    (stops : ∀ b, result = .inr b → pc.help = none) :
    Helped w tid help next result pc := by
  have ok := inv.helps tid help here
  -- The call goes on with a phase that promises no more than this one.
  have go {phase : HelpPhase A V} (same : result = .inl phase)
    (good : (w.desc help.owner).seq = help.seq → phase.Ok (w.desc help.owner))
      (promise : phase.promises = true → help.phase.promises = true ∨
        ((w.desc help.owner).seq = help.seq → w.timestamp = (w.desc help.owner).args.old1)) :
      Helped w tid help w result pc := by
    refine Helped.reads inv here (fun h eq => ?_) (fun h eq yes => ?_) fun b eq => by
      rw [same] at eq; cases eq
    · rw [goes phase same] at eq
      cases eq
      exact ⟨ok.le, ok.odd, good⟩
    · rw [goes phase same] at eq
      cases eq
      exact ⟨rfl, rfl, promise yes⟩
  have stop {b : Bool} (same : result = .inr b) (stale : (w.desc help.owner).seq = help.seq →
    ∃ args, help.phase = .finish args b) :
      Helped w tid help w result pc := by
    refine Helped.reads inv here (fun h eq => by rw [stops b same] at eq; cases eq)
      (fun h eq => by rw [stops b same] at eq; cases eq) fun b' eq => ?_
    rw [same] at eq
    cases eq
    exact stale
  unfold helpMove at moved
  cases phase : help.phase with
  | copy =>
      simp only [phase, Option.some.injEq, Prod.mk.injEq] at moved
      obtain ⟨rfl, same⟩ := moved
      exact go same.symm (fun _ => rfl) nofun
  | check args =>
      simp only [phase, Option.some.injEq, Prod.mk.injEq] at moved
      obtain ⟨rfl, same⟩ := moved
      split at same
      · refine go same.symm (fun current => ?_) nofun
        have old := ok.phase current
        rw [phase] at old
        exact old
      · rename_i stale
        exact stop same.symm fun current => (stale current).elim
  | readTime args =>
      simp only [phase, Option.some.injEq, Prod.mk.injEq] at moved
      obtain ⟨rfl, same⟩ := moved
      have equal (current : (w.desc help.owner).seq = help.seq) :
        args = (w.desc help.owner).args := by
        have old := ok.phase current
        rw [phase] at old
        exact old
      refine go same.symm (fun current => ⟨equal current, fun yes => ?_⟩) fun yes =>
        .inr fun current => ?_
      · have now : w.timestamp = args.old1 := by simpa using yes
        have positive := inv.facts.positive
        exact ⟨seen args phase current now, by omega⟩
      · have now : w.timestamp = args.old1 := by simpa [HelpPhase.promises] using yes
        rw [← equal current]
        exact now
  | readMutables args succeeds =>
      simp only [phase, Option.some.injEq, Prod.mk.injEq] at moved
      obtain ⟨rfl, same⟩ := moved
      split at same
      · refine go same.symm (fun current => ?_) fun yes => .inl ?_
        · have old := ok.phase current
          rw [phase] at old
          exact old
        · rw [phase]
          exact yes
      · rename_i stale
        exact stop same.symm fun current => (stale current).elim
  | cas args succeeds =>
      simp only [phase] at moved
      split at moved
      · rename_i free
        obtain ⟨valid, rest⟩ := Option.ite_none_right_eq_some.mp moved
        cases rest
        exact Helped.decides inv here free.1 free.2 phase valid (goes _ rfl)
      · rename_i taken
        split at moved
        · rename_i decided
          cases moved
          refine go rfl (fun current => ?_) nofun
          have old := ok.phase current
          rw [phase] at old
          exact ⟨old.1, decided, by simp⟩
        · rename_i undecided
          cases moved
          exact stop rfl fun current => (taken ⟨current, not_not.mp undecided⟩).elim
  | finish args succeeded =>
      simp only [phase, Option.some.injEq, Prod.mk.injEq] at moved
      obtain ⟨rfl, rfl⟩ := moved
      split
      · rename_i held
        exact Helped.finishes inv here phase (fun _ _ => nofun) held (stops _ rfl)
      · exact stop rfl fun _ => ⟨args, phase⟩

end Help

end SetBench.DcsspQuery
