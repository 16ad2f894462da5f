import SetBench.DcsspQuery

/-! What the dcssp operations and the queries of rq_dcssp.h keep. A dcssp can still succeed with
a timestamp before a query only where a helper has already read that timestamp; for every
process that a query has passed, no such helper is left. -/
namespace SetBench.DcsspQuery

open RangeQuery (Update)

variable {A V T N : Type}

-- The helper has read the timestamp of the dcssp and will set its state to SUCCEEDED.
def HelpPhase.promises : HelpPhase A V → Bool
  | .readMutables _ succeeds | .cas _ succeeds => succeeds
  | _ => false

def Pc.help : Pc A V T N → Option (Help A V T)
  | .update _ (.readHelp _ help) | .update _ (.installHelp _ help) | .update _ (.own _ help) =>
      some help
  | .trying _ _ _ (.look _ _ _ (.help _ _ help)) => some help
  | _ => none

structure Shared (A V T N : Type) where
  timestamp : Nat
  desc : T → Desc A V N
  pending : T → Nat → Prop
  itime : N → Nat
  dtime : N → Nat
  born : N → Nat
  died : N → Nat

def World.pending (w : World A V T N) (p : T) (seq : Nat) : Prop :=
  ∃ t help, (w.pc t).help = some help ∧ help.owner = p ∧ help.seq = seq ∧ help.phase.promises = true

def World.shared (w : World A V T N) : Shared A V T N :=
  ⟨w.timestamp, w.desc, w.pending, w.itime, w.dtime, w.born, w.died⟩

/-! What a query still has to look for. -/

-- The process has inserted the node and not discarded its payload.
def Shared.Inserts (s : Shared A V T N) (p : T) (node : N) : Prop :=
  (s.desc p).seq % 2 = 1 ∧ (s.desc p).state = .succeeded ∧ node ∈ (s.desc p).payload1

-- The process has deleted the node before the time and not discarded its payload, or will do so.
def Shared.Risk (s : Shared A V T N) (p : T) (node : N) (time : Nat) : Prop :=
  (s.desc p).seq % 2 = 1 ∧ node ∈ (s.desc p).payload2 ∧ (s.desc p).args.old1 < time
    ∧ ((s.desc p).state = .succeeded ∨ (s.desc p).state = .undecided ∧ s.pending p (s.desc p).seq)

def Shared.Clear (s : Shared A V T N) (p : T) (node : N) (time : Nat) : Kind → Prop
  | .insertion => ¬ s.Inserts p node
  | .deletion => ¬ s.Risk p node time

-- The node is not deleted before the time, now or later.
def Shared.Spared (s : Shared A V T N) (node : N) (time : Nat) : Prop :=
  s.died node ≠ 0 ∧ time ≤ s.died node ∨ s.died node = 0 ∧ ∀ p, ¬ s.Risk p node time

structure Later (s s' : Shared A V T N) : Prop where
  time : s.timestamp ≤ s'.timestamp
  seq : ∀ p, (s.desc p).seq ≤ (s'.desc p).seq
  args : ∀ p, (s'.desc p).seq = (s.desc p).seq → (s.desc p).seq % 2 = 1 → (s'.desc p).args =
    (s.desc p).args
    ∧ (s'.desc p).inserted = (s.desc p).inserted ∧ (s'.desc p).deleted = (s.desc p).deleted
  payload : ∀ p, (s'.desc p).seq = (s.desc p).seq → (s.desc p).seq % 2 = 1 →
    (s'.desc p).payload1 ⊆ (s.desc p).payload1 ∧ (s'.desc p).payload2 ⊆ (s.desc p).payload2
  installed : ∀ p, (s'.desc p).seq = (s.desc p).seq → (s.desc p).seq % 2 = 1 →
    (s.desc p).installed = true → (s'.desc p).installed = true
  state : ∀ p, (s'.desc p).seq = (s.desc p).seq → (s.desc p).seq % 2 = 1 → (s'.desc p).state =
    (s.desc p).state
    ∨ (s.desc p).state = .undecided ∧
      ((s'.desc p).state = .failed ∨ (s'.desc p).state = .succeeded ∧ s.pending p (s.desc p).seq
      ∧ ∀ node ∈ (s.desc p).payload1, s.born node = 0)
  young : ∀ p, (s'.desc p).seq ≠ (s.desc p).seq → (s'.desc p).seq % 2 = 1 →
    (s'.desc p).state ≠ .succeeded ∧ ¬ s'.pending p (s'.desc p).seq
  pending : ∀ p seq, s'.pending p seq → s.pending p seq ∨
    ((s.desc p).seq = seq → s.timestamp = (s.desc p).args.old1)
  born : ∀ node, s.born node ≠ 0 → s'.born node = s.born node
  died : ∀ node, s'.died node = s.died node ∨ s.died node = 0 ∧ ∃ p, (s.desc p).seq % 2 = 1 ∧
    node ∈ (s.desc p).payload2
    ∧ (s.desc p).state = .undecided ∧ s.pending p (s.desc p).seq ∧ s'.died node =
      (s.desc p).args.old1
  itime : ∀ node, s.itime node ≠ 0 → s'.itime node ≠ 0
  dtime : ∀ node, s.dtime node ≠ 0 → s'.dtime node ≠ 0

section Later

variable {s s' : Shared A V T N} (later : Later s s')

include later

theorem Later.inserts {p : T} {node : N} (born : s.born node ≠ 0) (clear : ¬ s.Inserts p node) :
    ¬ s'.Inserts p node := by
  rintro ⟨odd, succeeded, member⟩
  by_cases same : (s'.desc p).seq = (s.desc p).seq
  · have odd' : (s.desc p).seq % 2 = 1 := by rw [← same]; exact odd
    have inside := (later.payload p same odd').1 member
    rcases later.state p same odd' with state | ⟨_, failed | ⟨_, _, fresh⟩⟩
    · exact clear ⟨odd', state.symm.trans succeeded, inside⟩
    · rw [failed] at succeeded
      cases succeeded
    · exact born (fresh node inside)
  · exact (later.young p same odd).1 succeeded

theorem Later.risk {p : T} {node : N} {time : Nat} (past : time ≤ s.timestamp)
    (clear : ¬ s.Risk p node time) : ¬ s'.Risk p node time := by
  rintro ⟨odd, member, early, danger⟩
  by_cases same : (s'.desc p).seq = (s.desc p).seq
  · have odd' : (s.desc p).seq % 2 = 1 := by rw [← same]; exact odd
    have inside := (later.payload p same odd').2 member
    rw [(later.args p same odd').1] at early
    rcases danger with succeeded | ⟨undecided, pending⟩
    · rcases later.state p same odd' with state | ⟨was, failed | ⟨_, promised, _⟩⟩
      · exact clear ⟨odd', inside, early, .inl (state.symm.trans succeeded)⟩
      · rw [failed] at succeeded
        cases succeeded
      · exact clear ⟨odd', inside, early, .inr ⟨was, promised⟩⟩
    · have was : (s.desc p).state = .undecided := by
        rcases later.state p same odd' with state | ⟨was, _⟩
        · exact state.symm.trans undecided
        · exact was
      rw [same] at pending
      rcases later.pending p _ pending with old | now
      · exact clear ⟨odd', inside, early, .inr ⟨was, old⟩⟩
      · have := now rfl
        omega
  · have young := later.young p same odd
    rcases danger with succeeded | ⟨_, pending⟩
    · exact young.1 succeeded
    · exact young.2 pending

theorem Later.clear {p : T} {node : N} {time : Nat} {kind : Kind} (born : s.born node ≠ 0)
    (past : time ≤ s.timestamp) (clear : s.Clear p node time kind) : s'.Clear p node time kind := by
  cases kind with
  | insertion => exact later.inserts born clear
  | deletion => exact later.risk past clear

theorem Later.spared {node : N} {time : Nat} (past : time ≤ s.timestamp) (positive : 0 < time)
    (spared : s.Spared node time) :
    s'.Spared node time := by
  rcases spared with ⟨dead, late⟩ | ⟨alive, clear⟩
  · rcases later.died node with same | ⟨alive, _⟩
    · left
      rw [same]
      exact ⟨dead, late⟩
    · exact (dead alive).elim
  · rcases later.died node with same | ⟨_, p, odd, inside, undecided, pending, value⟩
    · exact .inr ⟨same.trans alive, fun p => later.risk past (clear p)⟩
    · left
      have late : time ≤ (s.desc p).args.old1 := by
        by_contra early
        exact clear p ⟨odd, inside, by omega, .inr ⟨undecided, pending⟩⟩
      rw [value]
      exact ⟨by omega, late⟩

end Later

/-! Helpers. -/

def HelpPhase.Ok (d : Desc A V N) : HelpPhase A V → Prop
  | .copy => True
  | .check args | .readTime args => args = d.args
  | .readMutables args succeeds | .cas args succeeds =>
      args = d.args ∧ (succeeds = true → d.installed = true ∧ 0 < args.old1)
  | .finish args succeeded =>
      args = d.args ∧ d.state ≠ .undecided ∧ (succeeded = true ↔ d.state = .succeeded)

structure Help.Ok (s : Shared A V T N) (help : Help A V T) : Prop where
  le : help.seq ≤ (s.desc help.owner).seq
  odd : help.seq % 2 = 1
  phase : (s.desc help.owner).seq = help.seq → help.phase.Ok (s.desc help.owner)

-- A tagptr that was found in memory has been installed.
def Help.Installed (s : Shared A V T N) (help : Help A V T) : Prop :=
  (s.desc help.owner).seq = help.seq → (s.desc help.owner).installed = true

theorem Later.help_ok {s s' : Shared A V T N} (later : Later s s') {help : Help A V T}
    (ok : help.Ok s) : help.Ok s' := by
  refine ⟨ok.le.trans (later.seq _), ok.odd, fun current => ?_⟩
  have le := later.seq help.owner
  have before : (s.desc help.owner).seq = help.seq := by
    have := ok.le
    omega
  have same : (s'.desc help.owner).seq = (s.desc help.owner).seq := current.trans before.symm
  have odd : (s.desc help.owner).seq % 2 = 1 := by rw [before]; exact ok.odd
  have args := (later.args help.owner same odd).1
  have old := ok.phase before
  cases place : help.phase with
  | copy => trivial
  | check args' =>
      rw [place] at old
      exact old.trans args.symm
  | readTime args' =>
      rw [place] at old
      exact old.trans args.symm
  | readMutables args' succeeds =>
      rw [place] at old
      exact ⟨old.1.trans args.symm,
        fun yes => ⟨later.installed _ same odd (old.2 yes).1, (old.2 yes).2⟩⟩
  | cas args' succeeds =>
      rw [place] at old
      exact ⟨old.1.trans args.symm,
        fun yes => ⟨later.installed _ same odd (old.2 yes).1, (old.2 yes).2⟩⟩
  | finish args' succeeded =>
      rw [place] at old
      have state : (s'.desc help.owner).state = (s.desc help.owner).state := by
        rcases later.state help.owner same odd with state | ⟨undecided, _⟩
        · exact state
        · exact (old.2.1 undecided).elim
      refine ⟨old.1.trans args.symm, ?_, ?_⟩
      · rw [state]
        exact old.2.1
      · rw [state]
        exact old.2.2

theorem Later.help_installed {s s' : Shared A V T N} (later : Later s s') {help : Help A V T}
    (ok : help.Ok s) (old : help.Installed s) :
    help.Installed s' := by
  intro current
  have le := later.seq help.owner
  have before : (s.desc help.owner).seq = help.seq := by
    have := ok.le
    omega
  exact later.installed _ (current.trans before.symm) (by rw [before]; exact ok.odd) (old before)

/-! Queries. -/

def Desc.full (d : Desc A V N) : Kind → List N
  | .insertion => d.inserted
  | .deletion => d.deleted

-- The descriptor is the one whose tagptr was taken, or it is out of the question.
structure Current (s : Shared A V T N) (p : T) (node : N) (time : Nat) (kind : Kind) (seq : Nat) :
    Prop where
  odd : seq % 2 = 1
  le : seq ≤ (s.desc p).seq
  other : (s.desc p).seq ≠ seq → s.Clear p node time kind

def StateSeen (d : Desc A V N) (state : State) : Prop :=
  (state = .failed → d.state = .failed) ∧ (state = .succeeded → d.state = .succeeded)

-- The descriptor names the node, and `args` are its own.
def Named (d : Desc A V N) (node : N) (kind : Kind) (args : Args A V) : Prop :=
  args = d.args ∧ node ∈ d.full kind

-- An undecided dcssp will not delete the node before the query.
def Settled (s : Shared A V T N) (p : T) (node : N) (time : Nat) (kind : Kind) (seq : Nat) : Prop :=
  (s.desc p).seq = seq → (s.desc p).state = .undecided → s.Clear p node time kind

def Look.Ok (s : Shared A V T N) (p : T) (node : N) (time : Nat) (kind : Kind) : Look A V T N → Prop
  | .tagptr => True
  | .mutables seq => Current s p node time kind seq
  | .args seq state =>
      Current s p node time kind seq ∧ ((s.desc p).seq = seq → StateSeen (s.desc p) state)
  | .payload seq state copied =>
      Current s p node time kind seq ∧
        ((s.desc p).seq = seq → StateSeen (s.desc p) state ∧ copied = (s.desc p).args)
  | .check seq state copied listed =>
      Current s p node time kind seq ∧
        ((s.desc p).seq = seq → (StateSeen (s.desc p) state ∧ copied = (s.desc p).args)
      ∧ (node ∈ listed → node ∈ (s.desc p).full kind) ∧
        (node ∉ listed → node ∉ (s.desc p).payload kind))
  | .addr2 seq copied | .helpProcess seq copied =>
      Current s p node time kind seq ∧ ((s.desc p).seq = seq → Named (s.desc p) node kind copied)
  | .help seq copied helped =>
      Current s p node time kind seq ∧ ((s.desc p).seq = seq → Named (s.desc p) node kind copied)
      ∧ helped.owner = p ∧ seq ≤ helped.seq ∧
        (∀ args' succeeded, helped.phase = .finish args' succeeded → Settled s p node time kind seq)
  | .state2 seq copied =>
      Current s p node time kind seq ∧ ((s.desc p).seq = seq → Named (s.desc p) node kind copied)
      ∧ Settled s p node time kind seq

structure Asks (s : Shared A V T N) (node : N) (time : Nat) : Prop where
  born : s.born node ≠ 0
  positive : 0 < time
  past : time ≤ s.timestamp

-- For the second loop: the node was inserted before the query and not found by the traversal.
def Kind.Ready (s : Shared A V T N) (node : N) (time : Nat) (found : Bool) : Kind → Prop
  | .insertion => True
  | .deletion => s.born node < time ∧ found = false

def Try.Ok (s : Shared A V T N) (node : N) (time : Nat) (found : Bool) : Try A V T N → Prop
  | .itime => True
  | .itimeAgain seen => seen ≠ 0 → s.itime node ≠ 0
  | .loop kind others => kind.Ready s node time found ∧ ∀ p, p ∈ others ∨ s.Clear p node time kind
  | .look kind p others at_ =>
      kind.Ready s node time found ∧ (∀ q, q = p ∨ q ∈ others ∨ s.Clear q node time kind) ∧
        at_.Ok s p node time kind
  | .dtime => s.born node < time ∧ found = false

def Pc.QueryOk (s : Shared A V T N) : Pc A V T N → Prop
  | .trying time node found try_ => Asks s node time ∧ try_.Ok s node time found
  | .query time => 0 < time ∧ time ≤ s.timestamp
  | _ => True

structure Decision.Ok (s : Shared A V T N) (d : Decision N) : Prop where
  asks : Asks s d.node d.rqLinTime
  used : d.used = true → s.born d.node < d.rqLinTime ∧
    (d.foundDuringTraversal = true ∨ s.Spared d.node d.rqLinTime)
  skipped : d.used = false → d.rqLinTime ≤ s.born d.node ∨ d.foundDuringTraversal = false ∧
    s.died d.node ≠ 0 ∧ s.died d.node < d.rqLinTime

section Kept

variable {s s' : Shared A V T N} (later : Later s s') {p : T} {node : N} {time : Nat}
    (asks : Asks s node time)

include later asks

theorem Later.still_asks : Asks s' node time :=
  ⟨by rw [later.born node asks.born]; exact asks.born, asks.positive, asks.past.trans later.time⟩

theorem Later.ready {kind : Kind} {found : Bool} (ready : kind.Ready s node time found) :
    kind.Ready s' node time found := by
  cases kind with
  | insertion => trivial
  | deletion => exact ⟨by rw [later.born node asks.born]; exact ready.1, ready.2⟩

variable {kind : Kind} {seq : Nat} (current : Current s p node time kind seq)

include current

-- While the number stays, so do the facts about the descriptor.
omit asks in
theorem Later.back (now : (s'.desc p).seq = seq) :
    (s.desc p).seq = seq ∧ (s'.desc p).seq = (s.desc p).seq ∧ (s.desc p).seq % 2 = 1 := by
  have le := later.seq p
  have low := current.le
  have odd := current.odd
  have before : (s.desc p).seq = seq := by omega
  exact ⟨before, now.trans before.symm, by omega⟩

theorem Later.still_current : Current s' p node time kind seq := by
  refine ⟨current.odd, current.le.trans (later.seq p), fun apart => ?_⟩
  by_cases before : (s.desc p).seq = seq
  · cases kind with
    | insertion =>
        rintro ⟨odd, succeeded, _⟩
        exact (later.young p (by omega) odd).1 succeeded
    | deletion =>
        rintro ⟨odd, _, _, succeeded | ⟨_, pending⟩⟩
        · exact (later.young p (by omega) odd).1 succeeded
        · exact (later.young p (by omega) odd).2 pending
  · exact later.clear asks.born asks.past (current.other before)

omit asks in
theorem Later.state_seen {state : State}
    (seen : (s.desc p).seq = seq → StateSeen (s.desc p) state) (now : (s'.desc p).seq = seq) :
    StateSeen (s'.desc p) state := by
  obtain ⟨before, same, odd⟩ := later.back current now
  have old := seen before
  refine ⟨fun failed => ?_, fun succeeded => ?_⟩
  · rcases later.state p same odd with state | ⟨undecided, _⟩
    · exact state.trans (old.1 failed)
    · rw [old.1 failed] at undecided
      cases undecided
  · rcases later.state p same odd with state | ⟨undecided, _⟩
    · exact state.trans (old.2 succeeded)
    · rw [old.2 succeeded] at undecided
      cases undecided

omit asks in
theorem Later.full_eq (now : (s'.desc p).seq = seq) :
    (s'.desc p).full kind = (s.desc p).full kind := by
  obtain ⟨_, same, odd⟩ := later.back current now
  cases kind with
  | insertion => exact (later.args p same odd).2.1
  | deletion => exact (later.args p same odd).2.2

omit asks in
theorem Later.named {args : Args A V}
    (named : (s.desc p).seq = seq → Named (s.desc p) node kind args) (now : (s'.desc p).seq = seq) :
    Named (s'.desc p) node kind args := by
  obtain ⟨before, same, odd⟩ := later.back current now
  have old := named before
  refine ⟨old.1.trans (later.args p same odd).1.symm, ?_⟩
  rw [later.full_eq current now]
  exact old.2

theorem Later.settled (settled : Settled s p node time kind seq) :
    Settled s' p node time kind seq := by
  intro now undecided
  obtain ⟨before, same, odd⟩ := later.back current now
  have was : (s.desc p).state = .undecided := by
    rcases later.state p same odd with state | ⟨was, _⟩
    · exact state.symm.trans undecided
    · exact was
  exact later.clear asks.born asks.past (settled before was)

end Kept

theorem Later.look {s s' : Shared A V T N} (later : Later s s') {p : T} {node : N} {time : Nat}
    (asks : Asks s node time) {kind : Kind} {look : Look A V T N}
    (ok : look.Ok s p node time kind) : look.Ok s' p node time kind := by
  have args_eq {seq : Nat} (current : Current s p node time kind seq) {args : Args A V}
    (same : (s.desc p).seq = seq → args = (s.desc p).args)
      (now : (s'.desc p).seq = seq) : args = (s'.desc p).args := by
    obtain ⟨before, eq, odd⟩ := later.back current now
    exact (same before).trans (later.args p eq odd).1.symm
  cases look with
  | tagptr => trivial
  | mutables seq => exact later.still_current asks ok
  | args seq state => exact ⟨later.still_current asks ok.1, later.state_seen ok.1 ok.2⟩
  | payload seq state args =>
      exact ⟨later.still_current asks ok.1,
        fun now => ⟨later.state_seen ok.1 (fun before => (ok.2 before).1) now,
        args_eq ok.1 (fun before => (ok.2 before).2) now⟩⟩
  | check seq state args payload =>
      refine ⟨later.still_current asks ok.1,
        fun now => ⟨⟨later.state_seen ok.1 (fun before => (ok.2 before).1.1) now,
        args_eq ok.1 (fun before => (ok.2 before).1.2) now⟩, fun member => ?_,
          fun absent member => ?_⟩⟩
      · rw [later.full_eq ok.1 now]
        exact (ok.2 (later.back ok.1 now).1).2.1 member
      · obtain ⟨before, same, odd⟩ := later.back ok.1 now
        refine (ok.2 before).2.2 absent ?_
        cases kind with
        | insertion => exact (later.payload p same odd).1 member
        | deletion => exact (later.payload p same odd).2 member
  | addr2 seq args => exact ⟨later.still_current asks ok.1, later.named ok.1 ok.2⟩
  | helpProcess seq args => exact ⟨later.still_current asks ok.1, later.named ok.1 ok.2⟩
  | help seq args help =>
      obtain ⟨current, named, owner, le, settled⟩ := ok
      exact ⟨later.still_current asks current, later.named current named, owner, le,
        fun args' succeeded place =>
        later.settled asks current (settled args' succeeded place)⟩
  | state2 seq args =>
      exact ⟨later.still_current asks ok.1, later.named ok.1 ok.2.1, later.settled asks ok.1 ok.2.2⟩

theorem Later.query_ok {s s' : Shared A V T N} (later : Later s s') {pc : Pc A V T N}
    (ok : pc.QueryOk s) : pc.QueryOk s' := by
  cases pc with
  | idle => trivial
  | update u stage => trivial
  | query time => exact ⟨ok.1, ok.2.trans later.time⟩
  | trying time node found try_ =>
      obtain ⟨asks, ok⟩ := ok
      refine ⟨later.still_asks asks, ?_⟩
      cases try_ with
      | itime => trivial
      | itimeAgain itime => exact fun some_ => later.itime node (ok some_)
      | loop kind others =>
          exact ⟨later.ready asks ok.1,
            fun p => (ok.2 p).imp_right (later.clear asks.born asks.past)⟩
      | look kind p others look =>
          exact ⟨later.ready asks ok.1,
            fun q => (ok.2.1 q).imp_right (Or.imp_right (later.clear asks.born asks.past)),
            later.look asks ok.2.2⟩
      | dtime => exact later.ready asks (show Kind.deletion.Ready s node time found from ok)

theorem Later.decision {s s' : Shared A V T N} (later : Later s s') {d : Decision N} (ok : d.Ok s) :
    d.Ok s' := by
  refine ⟨later.still_asks ok.asks, fun used => ?_, fun skipped => ?_⟩
  · obtain ⟨early, reason⟩ := ok.used used
    refine ⟨by rw [later.born _ ok.asks.born]; exact early, ?_⟩
    exact reason.imp_right (later.spared ok.asks.past ok.asks.positive)
  · rcases ok.skipped skipped with late | ⟨found, dead, early⟩
    · left
      rw [later.born _ ok.asks.born]
      exact late
    · right
      rcases later.died d.node with same | ⟨alive, _⟩
      · rw [same]
        exact ⟨found, dead, early⟩
      · exact (dead alive).elim

end SetBench.DcsspQuery
