import SetBench.ScxShared

/-! Every step of every thread keeps the invariant. -/
namespace SetBench.Scx

variable {V : Type} {max : Nat} {w w' : World V} {tid : Nat}

/-! Copies of descriptors. -/

theorem agree_write (got source : Body V) (slot : Slot) :
    Agree (got.write (source.load slot)) source slot := by
  cases slot <;> simp [Agree, Body.write, Body.load]

theorem agree_other {got source : Body V} {slot other : Slot} (ok : Agree got source slot) :
    Agree (got.write (source.load other)) source slot := by
  by_cases same : slot = other
  · subst same
    exact agree_write ..
  · cases other <;> cases slot <;> simp_all [Agree, Body.write, Body.load]

theorem op_of_agree {got source : Body V} (room : source.numNodes ≤ max)
    (agree : ∀ slot ∈ slots max, Agree got source slot) : got.op = source.op := by
  have old : got.oldVal = source.oldVal := agree .oldVal (by simp [slots])
  have new : got.newVal = source.newVal := agree .newVal (by simp [slots])
  have field : got.field = source.field := agree .field (by simp [slots])
  have count : got.numNodes = source.numNodes := agree .numNodes (by simp [slots])
  have deps : (List.range got.numNodes).map
    (fun i => (⟨got.nodes i, got.finalize i, got.seen i⟩ : Dep)) =
      (List.range source.numNodes).map fun i =>
      ⟨source.nodes i, source.finalize i, source.seen i⟩ := by
    rw [count]
    refine List.map_congr_left fun i less => ?_
    have less : i < max := (List.mem_range.mp less).trans_le room
    have node : got.nodes i = source.nodes i := agree (.node i) (by simp [slots, less])
    have finalize : got.finalize i = source.finalize i :=
      agree (.finalize i) (by simp [slots, less])
    have seen : got.seen i = source.seen i := agree (.seen i) (by simp [slots, less])
    rw [node, finalize, seen]
  unfold Body.op
  rw [deps, field, old, new]

-- What the calls of scxAddNode leave in the descriptor.
theorem addNodes_deps (deps : List Dep) (ix : Nat) (body : Body V) (count : body.numNodes = ix) :
    ((addNodes ix deps).foldl Body.write body).numNodes = ix + deps.length ∧
    (∀ i < ix, ((addNodes ix deps).foldl Body.write body).nodes i = body.nodes i ∧
      ((addNodes ix deps).foldl Body.write body).finalize i = body.finalize i ∧
      ((addNodes ix deps).foldl Body.write body).seen i = body.seen i) ∧
    ∀ j d, deps[j]? = some d → ((addNodes ix deps).foldl Body.write body).nodes (ix + j) = d.node ∧
      ((addNodes ix deps).foldl Body.write body).finalize (ix + j) = d.finalize ∧
      ((addNodes ix deps).foldl Body.write body).seen (ix + j) = d.seen := by
  induction deps generalizing ix body with
  | nil => exact ⟨count, fun _ _ => ⟨rfl, rfl, rfl⟩, nofun⟩
  | cons d rest ih =>
      have next :=
        ih (ix + 1) (((((body.write (.node ix d.node)).write (.finalize ix d.finalize)).write
        (.seen ix d.seen)).write (.numNodes (ix + 1)))) rfl
      simp only [addNodes, List.foldl_cons]
      obtain ⟨total, kept, new⟩ := next
      refine ⟨?_, fun i less => ?_, fun j e at_ => ?_⟩
      · rw [total, List.length_cons]
        omega
      · obtain ⟨node, finalize, seen⟩ := kept i (by omega)
        rw [node, finalize, seen]
        simp [Body.write, Nat.ne_of_lt less]
      · cases j with
        | zero =>
            cases at_
            obtain ⟨node, finalize, seen⟩ := kept ix (by omega)
            exact ⟨node.trans (by simp [Body.write]), finalize.trans (by simp [Body.write]),
              seen.trans (by simp [Body.write])⟩
        | succ j =>
            have shift : ix + (j + 1) = ix + 1 + j := by omega
            rw [shift]
            exact new j e at_

theorem writes_op (op : Op V) (body : Body V) : (op.writes.foldl Body.write body).op = op := by
  obtain ⟨total, _, new⟩ := addNodes_deps op.deps 0 (body.write (.numNodes 0)) rfl
  simp only [Op.writes, List.foldl_cons, List.foldl_append, List.foldl_nil]
  generalize (addNodes 0 op.deps).foldl Body.write (body.write (.numNodes 0)) = filled at total new
  have deps : (List.range filled.numNodes).map
    (fun i => (⟨filled.nodes i, filled.finalize i, filled.seen i⟩ : Dep)) = op.deps := by
    refine List.ext_getElem (by simp [total]) fun i one two => ?_
    obtain ⟨node, finalize, seen⟩ := new i op.deps[i] (List.getElem?_eq_getElem two)
    rw [Nat.zero_add] at node finalize seen
    simp [node, finalize, seen]
  simp only [Body.op, Body.write, deps]

/-! Putting a step together. -/

/-- A step of a thread up to its new position. -/
structure Moves (max : Nat) (w w' : World V) (tid : Nat) : Prop where
  good : Good max w'
  evolves : Evolves w w'
  pcs : w'.pc = w.pc
  spares : ∀ other, other ≠ tid → Spares w w' other

theorem spares_refl (w : World V) (tid : Nat) : Spares w w tid := ⟨rfl, fun _ => rfl, rfl⟩

theorem quiet_evolves (w : World V) (pcs : Nat → Pc V) (handles : Nat → Nat → Option (Handle V))
    (calls : List (LlxCall V)) :
    Evolves w { w with pc := pcs, handle := handles, llxs := calls } := by
  have base := evolves_refl w
  exact ⟨base.held, base.enters, base.record, base.markers, base.log, base.quiet, base.seq,
    base.body⟩

theorem quiet_good (good : Good max w) {pcs : Nat → Pc V}
    {handles : Nat → Nat → Option (Handle V)} {calls : List (LlxCall V)}
    (linked : ∀ tid n h, handles tid n = some h → LinkOk w n h.tag h.link)
    (called : ∀ c ∈ calls, CallOk w c) :
    Good max { w with pc := pcs, handle := handles, llxs := calls } := by
  have evolves := quiet_evolves w pcs handles calls
  have heads (n : Nat) : w.scxPtr n ∉ (w.held n).tail := good.not_tail
  exact { good with
    record := fun x s known => RecordOk.keep good evolves heads known
      (fun d _ member absent => absurd member absent) (good.record x s known).still
    desc := fun tid => ⟨(good.desc tid).even, (good.desc tid).odd, (good.desc tid).used⟩
    handle := fun tid n h known => (linked tid n h known).keep evolves good heads
    llxs := fun c member => (called c member).keep evolves }

theorem Inv.goto (inv : Inv max w) (moves : Moves max w w' tid) {pc : Pc V}
    (ok : ThreadOk max w' tid pc) : Inv max (w'.goto tid pc) := by
  have good : Good max (w'.goto tid pc) := quiet_good moves.good moves.good.handle moves.good.llxs
  have evolves : Evolves w' (w'.goto tid pc) := quiet_evolves w' _ _ _
  refine ⟨good, fun other => ?_⟩
  by_cases apart : other = tid
  · subst apart
    rw [show (w'.goto other pc).pc other = pc by simp [World.goto]]
    exact ok.keep evolves moves.good good ⟨rfl, fun _ => rfl, rfl⟩
  · rw [show (w'.goto tid pc).pc other = w.pc other by simp [World.goto, apart, moves.pcs]]
    have kept := (inv.threads other).keep moves.evolves inv.good moves.good
      (moves.spares other apart)
    exact kept.keep evolves moves.good good ⟨rfl, fun _ => rfl, rfl⟩

theorem Inv.stays (inv : Inv max w) (tid : Nat) : Moves max w w tid :=
  ⟨inv.good, evolves_refl w, rfl, fun _ _ => spares_refl w _⟩

theorem Inv.stay (inv : Inv max w) {pc : Pc V} (ok : ThreadOk max w tid pc) :
    Inv max (w.goto tid pc) := inv.goto (inv.stays tid) ok

theorem giveUp_inv (inv : Inv max w) (moves : Moves max w w' tid) {l : Llx} (ok : LlxOk w' l)
    (even : (w'.mutables tid).seq % 2 = 0) :
    Inv max (w'.giveUp tid l) := by
  have call : CallOk w' ⟨l, if l.marked then .finalized else .failed, w'.word l.node,
    w'.marked l.node⟩ := by
    unfold CallOk
    cases marked : l.marked with
    | true => exact ok marked
    | false => trivial
  have good :
    Good max
    { w' with
      llxs := ⟨l, if l.marked then .finalized else .failed, w'.word l.node,
        w'.marked l.node⟩ :: w'.llxs } := by
    refine quiet_good moves.good moves.good.handle fun c member => ?_
    rcases List.mem_cons.mp member with rfl | member
    · exact call
    · exact moves.good.llxs c member
  have both :
    Evolves w
    { w' with
      llxs := ⟨l, if l.marked then .finalized else .failed, w'.word l.node,
        w'.marked l.node⟩ :: w'.llxs } :=
    ⟨moves.evolves.held, moves.evolves.enters, moves.evolves.record, moves.evolves.markers,
      moves.evolves.log, moves.evolves.quiet,
      moves.evolves.seq, moves.evolves.body⟩
  refine inv.goto ⟨good, both, moves.pcs, fun other apart => ?_⟩ ⟨trivial, even⟩
  have spares := moves.spares other apart
  exact ⟨spares.seq, spares.even, spares.handle⟩

/-! The published descriptor. -/

theorem Good.current (good : Good max w) {seq : Nat} {r : Record V}
    (here : w.record (.desc tid seq) = some r) (now : (w.mutables tid).seq = seq) :
    Consistent (w.mutables tid) ∧ (w.mutables tid).phase = r.phase ∧ (w.desc tid).body.op =
      r.op := by
  have odd := ((good.desc tid).used seq r here).1
  obtain ⟨consistent, r', there, phase, body⟩ := (good.desc tid).odd (now.symm ▸ odd)
  rw [now, here] at there
  cases there
  exact ⟨consistent, phase, body⟩

theorem Consistent.seals {m : Mutables} (ok : Consistent m) (all : m.allFrozen = true) :
    m.phase.Seals := by
  obtain ⟨seq, state, allFrozen⟩ := m
  cases all
  cases state with
  | inProgress => exact .inl rfl
  | committed => exact .inr rfl
  | aborted => cases ok.aborted rfl

theorem Consistent.not_seals {m : Mutables} (ok : Consistent m) (all : m.allFrozen = false) :
    ¬ m.phase.Seals := by
  obtain ⟨seq, state, allFrozen⟩ := m
  cases all
  cases state with
  | inProgress => rintro (no | no) <;> cases no
  | committed => cases ok.committed rfl
  | aborted => rintro (no | no) <;> cases no

theorem phase_aborted {m : Mutables} : m.phase = .aborted ↔ m.state = .aborted := by
  obtain ⟨seq, state, allFrozen⟩ := m
  cases state <;> cases allFrozen <;> simp [Mutables.phase]

theorem phase_committed {m : Mutables} : m.phase = .committed ↔ m.state = .committed := by
  obtain ⟨seq, state, allFrozen⟩ := m
  cases state <;> cases allFrozen <;> simp [Mutables.phase]

theorem doomed_not_frozen {t : Tag} {op : Op V} (doomed : Doomed w t op) (frozen : Frozen w t op) :
    False := by
  obtain ⟨d, among, _, never⟩ := doomed
  exact never (frozen d among)

/-! The steps of help. -/

section Help

variable {h : Help V} {place : Place}

-- The steps of help write no descriptor but through a compare-and-swap.
structure Helps (max : Nat) (w w' : World V) : Prop where
  good : Good max w'
  evolves : Evolves w w'
  pcs : w'.pc = w.pc
  spares : ∀ tid, Spares w w' tid

theorem Helps.moves (helps : Helps max w w') (tid : Nat) : Moves max w w' tid :=
  ⟨helps.good, helps.evolves, helps.pcs, fun other _ => helps.spares other⟩

theorem Inv.helps (inv : Inv max w) : Helps max w w :=
  ⟨inv.good, evolves_refl w, rfl, spares_refl w⟩

variable (inv : Inv max w) (helps : Helps max w w') (ok : ThreadOk max w tid (.help h place))

include inv helps ok

theorem help_goto {next : Place} (there : PlaceOk w' h.tag h.seq h.op next) :
    Inv max (w'.goto tid (.help h next)) := by
  have kept := ok.keep helps.evolves inv.good helps.good (helps.spares tid)
  exact inv.goto (helps.moves tid) ⟨⟨kept.knows.record, kept.knows.snap, kept.knows.caller, there⟩,
    kept.owns⟩

theorem help_leave {result : Bool}
    (final : h.caller = .owner → ∃ r, w'.record h.tag = some r ∧ r.phase = if result then .committed
      else .aborted) :
    Inv max (w'.leave tid h.caller result) := by
  have kept := ok.keep helps.evolves inv.good helps.good (helps.spares tid)
  obtain ⟨knows, owns⟩ := kept
  have caller := knows.caller
  obtain ⟨who, other, seq, snapSeq, op⟩ := h
  cases who with
  | owner =>
      obtain ⟨rfl, now⟩ := caller
      obtain ⟨r, here, phase⟩ := final rfl
      refine inv.goto (helps.moves other) ⟨⟨r, ?_, phase⟩, owns⟩
      rw [now]
      exact here
  | llx l => exact giveUp_inv inv (helps.moves tid) caller owns

omit inv helps ok

theorem freeze_helps (inv : Inv max w) {t : Tag} {r : Record V} (here : w.record t = some r)
    {d : Dep} (among : d ∈ r.op.deps) (now : w.scxPtr d.node = d.seen)
    (first : ∀ e ∈ r.op.deps.head?, e = d ∨ t ∈ w.held e.node) : Helps max w (w.freeze d.node t) :=
  ⟨freeze_good inv.good here among now first, freeze_evolves inv.good here among now, rfl,
    fun _ => ⟨rfl, fun _ => rfl, rfl⟩⟩

theorem mark_helps (inv : Inv max w) {t : Tag} {r : Record V} (here : w.record t = some r)
    (seals : r.phase.Seals) {d : Dep} (among : d ∈ r.op.deps) (finalize : d.finalize = true) :
    Helps max w (w.mark d.node t) :=
  ⟨mark_good inv.good here seals among finalize, mark_evolves w d.node t, rfl,
    fun _ => ⟨rfl, fun _ => rfl, rfl⟩⟩

theorem swing_helps (inv : Inv max w) {t : Tag} {r : Record V} (here : w.record t = some r)
    (none_ : r.updates = []) (frozen : r.phase = .frozen) :
    Helps max w (w.swing r.op t) :=
  ⟨swing_good inv.good here none_ frozen, swing_evolves inv.good here frozen, rfl,
    fun _ => ⟨rfl, fun _ => rfl, rfl⟩⟩

theorem decide_helps (inv : Inv max w) {other seq : Nat} {r : Record V}
    (here : w.record (.desc other seq) = some r) (current : (w.mutables other).seq = seq)
    {m : Mutables} (same : m.seq = seq) (step : Step w (.desc other seq) r m.phase)
    (consistent : Consistent m) : Helps max w (w.decide other seq m) ∧
      ∃ r', (w.decide other seq m).record (.desc other seq) = some r' ∧ r'.phase = m.phase := by
  refine ⟨⟨decide_good inv.good here current same step consistent,
    decide_evolves here current same step, rfl, fun tid => ?_⟩, _,
    setRecord_self (w := w.setDesc other ⟨m, (w.desc other).body⟩) here _, rfl⟩
  have odd := ((inv.good.desc other).used seq r here).1
  by_cases apart : tid = other
  · subst apart
    refine ⟨?_, fun even => ?_, rfl⟩
    · rw [World.mutables, show (w.decide tid seq m).desc tid = ⟨m, (w.desc tid).body⟩
        from setDesc_self _, current]
      exact same
    · omega
  · have desc : (w.decide other seq m).desc tid = w.desc tid := setDesc_other apart _
    exact ⟨by rw [World.mutables, desc]; rfl, fun _ => desc, rfl⟩

theorem upto_next {t : Tag} {op : Op V} {i : Nat} {d : Dep} (upto : Upto w t op i)
    (at_ : op.deps[i]? = some d) (held : t ∈ w.held d.node) :
    Upto w t op (i + 1) := by
  intro j less e found
  by_cases same : j = i
  · subst same
    rw [at_] at found
    cases found
    exact held
  · exact upto j (by omega) e found

theorem begun_next {t : Tag} {op : Op V} {i : Nat} (upto : Upto w t op (i + 1)) : Begun w t op := by
  intro d head
  refine upto 0 (Nat.succ_pos i) d ?_
  rw [← List.head?_eq_getElem?]
  exact head

theorem owner_current (ok : ThreadOk max w tid (.help h place)) (who : h.caller = .owner) :
    (w.mutables h.tid).seq = h.seq := by
  have caller := ok.knows.caller
  unfold CallerOk at caller
  rw [who] at caller
  rw [caller.1]
  exact caller.2

theorem Sealed.seals {t : Tag} {r : Record V} (sealed : Sealed w t) (here : w.record t = some r) :
    r.phase.Seals := by
  obtain ⟨s, there, seals⟩ := sealed
  rw [here] at there
  cases there
  exact seals

theorem Changed.updates {t : Tag} {r : Record V} (changed : Changed w t)
    (here : w.record t = some r) : r.updates ≠ [] := by
  obtain ⟨s, there, some_⟩ := changed
  rw [here] at there
  cases there
  exact some_

theorem Linkable.decided {n : Nat} {t : Tag} (linkable : Linkable w n t) : Decided w t := by
  rcases linkable with init | ⟨s, there, aborted | ⟨committed, _⟩⟩
  · exact .inl init
  · exact .inr ⟨s, there, .inr aborted⟩
  · exact .inr ⟨s, there, .inl committed⟩

-- An operation that has lost a node committed all the same, or it aborts.
theorem lost_cases {r : Record V} (here : w.record h.tag = some r)
    (lost : Decided w h.tag ∨ Doomed w h.tag h.op) :
    r.phase = .committed ∨ Aborting w h.tag h.op := by
  rcases lost with (no | ⟨s, there, decides⟩) | doomed
  · cases no
  · rw [here] at there
    cases there
    exact decides.imp_right fun aborted => .inl ⟨r, here, aborted⟩
  · exact .inr (.inr doomed)

theorem aborting_doomed {t : Tag} {op : Op V} {r : Record V} (here : w.record t = some r)
    (aborting : Aborting w t op) (live : r.phase ≠ .aborted) :
    Doomed w t op := by
  rcases aborting with ⟨s, there, aborted⟩ | doomed
  · rw [here] at there
    cases there
    exact absurd aborted live
  · exact doomed

theorem RecordOk.not_aborted {t : Tag} {r : Record V} (mine : RecordOk max w t r)
    (frozen : Frozen w t r.op) : r.phase ≠ .aborted :=
  fun aborted => doomed_not_frozen (mine.aborted aborted) frozen

theorem RecordOk.not_seals {t : Tag} {r : Record V} (mine : RecordOk max w t r)
    (doomed : Doomed w t r.op) : ¬ r.phase.Seals :=
  fun seals => doomed_not_frozen doomed (mine.holds seals)

theorem running_or_aborted {p : Phase} (open_ : ¬ p.Seals) : p = .running ∨ p = .aborted := by
  cases p with
  | running => exact .inl rfl
  | frozen => exact absurd (.inl rfl) open_
  | committed => exact absurd (.inr rfl) open_
  | aborted => exact .inr rfl

-- Frozen and not updated, the field still holds what the llx read.
theorem RecordOk.unswung {t : Tag} {r : Record V} (mine : RecordOk max w t r) (good : Good max w)
    (here : w.record t = some r) (seals : r.phase.Seals) (none_ : r.updates = []) :
    w.word r.op.node r.op.index = r.op.oldVal := by
  have frozen : r.phase = .frozen := seals.resolve_right fun committed =>
    (mine.committed committed).1 none_
  obtain ⟨d, among, field⟩ := mine.field
  have log := mine.still d among (good.frozen_ptr here frozen among) none_
  have word := good.word r.op.node r.op.index
  rw [← field, log, field, mine.old] at word
  exact (Option.some.inj word).symm

/-! One lemma for each place of help. -/

variable [DecidableEq V] (inv : Inv max w)

include inv

theorem help_freeze {i : Nat} (ok : ThreadOk max w tid (.help h (.freeze i))) :
    Inv max (helpStep w tid h (.freeze i)) := by
  obtain ⟨r, here, same⟩ := ok.knows.record
  obtain ⟨upto, begun⟩ := ok.knows.place
  simp only [helpStep]
  cases at_ : h.op.deps[i]? with
  | none =>
      refine help_goto inv inv.helps ok fun d among => ?_
      obtain ⟨j, less, found⟩ := List.getElem_of_mem among
      have ends := List.getElem?_eq_none_iff.mp at_
      exact upto j (by omega) d (List.getElem?_eq_some_iff.mpr ⟨less, found⟩)
  | some d =>
      have among : d ∈ r.op.deps := same ▸ List.mem_of_getElem? at_
      simp only
      split
      · rename_i now
        have first (e : Dep) (head : e ∈ r.op.deps.head?) : e = d ∨ h.tag ∈ w.held e.node := by
          rw [same] at head
          cases i with
          | zero =>
              rw [List.head?_eq_getElem?, at_] at head
              cases head
              exact .inl rfl
          | succ i => exact .inr (begun (Nat.succ_pos i) e head)
        have helps := freeze_helps inv here among now first
        have next : Upto (w.freeze d.node h.tag) h.tag h.op (i + 1) :=
          upto_next (helps.evolves.upto upto) at_ (by simp [World.freeze])
        exact help_goto inv helps ok ⟨next, fun _ => begun_next next⟩
      · rename_i differs
        refine help_goto inv inv.helps ok ⟨upto, begun, at_, ?_⟩
        exact (inv.good.ptr_or_tail ((inv.good.record _ r here).links d among).held).resolve_left
          differs

theorem help_recheck {i : Nat} {d : Dep} (ok : ThreadOk max w tid (.help h (.recheck i d))) :
    Inv max (helpStep w tid h (.recheck i d)) := by
  obtain ⟨upto, begun, at_, gone⟩ := ok.knows.place
  simp only [helpStep]
  split
  · rename_i now
    have next : Upto w h.tag h.op (i + 1) := upto_next upto at_ (now ▸ inv.good.ptr_mem)
    exact help_goto inv inv.helps ok ⟨next, fun _ => begun_next next⟩
  · rename_i differs
    refine help_goto inv inv.helps ok ?_
    by_cases member : h.tag ∈ w.held d.node
    · have lost := (inv.good.ptr_or_tail member).resolve_left differs
      exact .inl (inv.good.past _ _ lost).decided
    · exact .inr ⟨d, List.mem_of_getElem? at_, gone, member⟩

theorem help_readFrozen (ok : ThreadOk max w tid (.help h .readFrozen)) :
    Inv max (helpStep w tid h .readFrozen) := by
  obtain ⟨r, here, same⟩ := ok.knows.record
  have mine := inv.good.record _ r here
  have lost := lost_cases here ok.knows.place
  simp only [helpStep]
  split
  · rename_i moved
    exact help_leave inv inv.helps ok fun who => absurd (owner_current ok who) moved
  · rename_i now
    obtain ⟨consistent, phase, _⟩ := inv.good.current here (not_not.mp now)
    split
    · rename_i all
      have seals := consistent.seals all
      rw [phase] at seals
      refine help_leave inv inv.helps ok fun _ => ⟨r, here, lost.resolve_right fun aborting => ?_⟩
      have frozen : Frozen w h.tag h.op := same ▸ mine.holds seals
      exact doomed_not_frozen (aborting_doomed here aborting (mine.not_aborted (mine.holds seals)))
        frozen
    · rename_i none_
      have open_ := consistent.not_seals (Bool.not_eq_true _ ▸ none_)
      rw [phase] at open_
      exact help_goto inv inv.helps ok (lost.resolve_left fun committed => open_ (.inr committed))

theorem help_abortRead (ok : ThreadOk max w tid (.help h .abortRead)) :
    Inv max (helpStep w tid h .abortRead) := by
  obtain ⟨r, here, -⟩ := ok.knows.record
  have snap := ok.knows.snap
  have aborting := ok.knows.place
  simp only [helpStep]
  split
  · rename_i test
    exact help_goto inv inv.helps ok ⟨aborting, test.1.trans snap, test.2⟩
  · rename_i test
    refine help_leave inv inv.helps ok fun who => ⟨r, here, ?_⟩
    have now := owner_current ok who
    have state : (w.mutables h.tid).state = .aborted := by
      by_contra other
      exact test ⟨now.trans snap.symm, other⟩
    rw [← (inv.good.current here now).2.1]
    exact phase_aborted.mpr state

theorem help_abortCas {seen : Mutables} (ok : ThreadOk max w tid (.help h (.abortCas seen))) :
    Inv max (helpStep w tid h (.abortCas seen)) := by
  obtain ⟨r, here, same⟩ := ok.knows.record
  have mine := inv.good.record _ r here
  obtain ⟨aborting, number, live⟩ := ok.knows.place
  simp only [helpStep]
  split
  · rename_i equal
    have now : (w.mutables h.tid).seq = h.seq := equal ▸ number
    obtain ⟨consistent, phase, _⟩ := inv.good.current here now
    rw [equal] at consistent phase
    have live : r.phase ≠ .aborted := fun aborted => live (phase_aborted.mp (phase.trans aborted))
    have doomed : Doomed w h.tag r.op := same ▸ aborting_doomed here aborting live
    have open_ := mine.not_seals doomed
    have running : r.phase = .running := (running_or_aborted open_).resolve_right live
    have all : seen.allFrozen = false := by
      by_contra other
      refine open_ ?_
      rw [← phase]
      exact consistent.seals (by simpa using other)
    have after : ({ seen with state := .aborted } : Mutables).phase = .aborted :=
      phase_aborted.mpr rfl
    have step : Step w (.desc h.tid h.seq) r
      ({ seen with state := .aborted } : Mutables).phase := by
      rw [after]
      refine ⟨.inl running, fun seals => ?_, fun _ => mine.unchanged open_, by
        intros; contradiction, fun _ => doomed⟩
      rcases seals with no | no <;> cases no
    obtain ⟨helps, r', there, last⟩ :=
      decide_helps (m := { seen with state := .aborted }) inv here now number step
      ⟨by intros; contradiction, fun _ => all⟩
    exact help_leave inv helps ok fun _ => ⟨r', there, last.trans after⟩
  · exact help_goto inv inv.helps ok aborting

theorem help_frozenRead (ok : ThreadOk max w tid (.help h .frozenRead)) :
    Inv max (helpStep w tid h .frozenRead) := by
  obtain ⟨r, here, same⟩ := ok.knows.record
  have snap := ok.knows.snap
  have frozen := ok.knows.place
  simp only [helpStep]
  split
  · rename_i test
    exact help_goto inv inv.helps ok ⟨frozen, test.1.trans snap, test.2⟩
  · rename_i test
    refine help_goto inv inv.helps ok ⟨⟨r, here, ?_⟩, by intros; contradiction⟩
    by_cases now : (w.mutables h.tid).seq = h.seq
    · obtain ⟨consistent, phase, _⟩ := inv.good.current here now
      rw [← phase]
      refine consistent.seals ?_
      by_contra other
      exact test ⟨now.trans snap.symm, by simpa using other⟩
    · obtain ⟨_, upto, decides⟩ := (inv.good.desc h.tid).used h.seq r here
      have kept := (inv.good.record _ r here).not_aborted (same ▸ frozen)
      exact .inr ((decides (by omega)).resolve_right kept)

theorem help_frozenCas {seen : Mutables} (ok : ThreadOk max w tid (.help h (.frozenCas seen))) :
    Inv max (helpStep w tid h (.frozenCas seen)) := by
  obtain ⟨r, here, same⟩ := ok.knows.record
  obtain ⟨frozen, number, none_⟩ := ok.knows.place
  simp only [helpStep]
  split
  · rename_i equal
    have now : (w.mutables h.tid).seq = h.seq := equal ▸ number
    obtain ⟨consistent, phase, _⟩ := inv.good.current here now
    rw [equal] at consistent phase
    have open_ := consistent.not_seals none_
    rw [phase] at open_
    have running : r.phase = .running :=
      (running_or_aborted open_).resolve_right
      ((inv.good.record _ r here).not_aborted (same ▸ frozen))
    have live : seen.state = .inProgress := by
      rw [running] at phase
      cases state : seen.state with
      | inProgress => rfl
      | committed => cases (phase_committed.mpr state).symm.trans phase
      | aborted => cases (phase_aborted.mpr state).symm.trans phase
    have after : ({ seen with allFrozen := true } : Mutables).phase = .frozen := by
      simp [Mutables.phase, live]
    have step : Step w (.desc h.tid h.seq) r
      ({ seen with allFrozen := true } : Mutables).phase := by
      rw [after]
      exact ⟨.inl running, fun _ => same ▸ frozen, fun no => absurd (.inl rfl) no, by
        intros; contradiction, by intros; contradiction⟩
    obtain ⟨helps, r', there, last⟩ :=
      decide_helps (m := { seen with allFrozen := true }) inv here now number step
      ⟨fun _ => rfl, fun no => by simp [live] at no⟩
    exact help_goto inv helps ok ⟨⟨r', there, .inl (last.trans after)⟩, by intros; contradiction⟩
  · exact help_goto inv inv.helps ok frozen

theorem help_mark {i : Nat} (ok : ThreadOk max w tid (.help h (.mark i))) :
    Inv max (helpStep w tid h (.mark i)) := by
  obtain ⟨r, here, same⟩ := ok.knows.record
  obtain ⟨sealed, marks⟩ := ok.knows.place
  simp only [helpStep]
  cases at_ : h.op.deps[i]? with
  | none =>
      refine help_goto inv inv.helps ok ⟨sealed, fun d among finalize => ?_⟩
      obtain ⟨j, less, found⟩ := List.getElem_of_mem among
      have ends := List.getElem?_eq_none_iff.mp at_
      exact marks j (by omega) d (List.getElem?_eq_some_iff.mpr ⟨less, found⟩) finalize
  | some d =>
      simp only
      have next {w' : World V} (evolves : Evolves w w') (self : d.finalize = true →
        h.tag ∈ w'.markers d.node) :
          ∀ j < i + 1, ∀ e ∈ h.op.deps[j]?, e.finalize = true → h.tag ∈ w'.markers e.node := by
        intro j less e found finalize
        by_cases last : j = i
        · subst last
          rw [at_] at found
          cases found
          exact self finalize
        · exact evolves.mem_markers (marks j (by omega) e found finalize)
      split
      · rename_i finalize
        have helps := mark_helps inv here (sealed.seals here) (same ▸ List.mem_of_getElem? at_)
          finalize
        exact help_goto inv helps ok ⟨helps.evolves.sealed sealed,
          next helps.evolves fun _ => by simp [World.mark]⟩
      · rename_i plain
        exact help_goto inv inv.helps ok
          ⟨sealed, next inv.helps.evolves fun finalize => absurd finalize plain⟩

theorem help_update (ok : ThreadOk max w tid (.help h .update)) :
    Inv max (helpStep w tid h .update) := by
  obtain ⟨r, here, same⟩ := ok.knows.record
  obtain ⟨sealed, finalized⟩ := ok.knows.place
  have seals := sealed.seals here
  simp only [helpStep]
  rw [← same]
  split
  · rename_i old
    obtain ⟨none_, frozen⟩ := swing_once inv.good here seals old
    have helps := swing_helps inv here none_ frozen
    have changed : Changed (w.swing r.op h.tag) h.tag :=
      ⟨{ r with updates := ⟨w.log, w.markers⟩ :: r.updates },
        setRecord_self (w := { w with word := _, log := _ }) here _, List.cons_ne_nil _ _⟩
    exact help_goto inv helps ok ⟨helps.evolves.sealed sealed, helps.evolves.finalized finalized,
      changed⟩
  · rename_i differs
    refine help_goto inv inv.helps ok ⟨sealed, finalized, r, here, fun none_ => differs ?_⟩
    exact (inv.good.record _ r here).unswung inv.good here seals none_

theorem help_commitRead (ok : ThreadOk max w tid (.help h .commitRead)) :
    Inv max (helpStep w tid h .commitRead) := by
  obtain ⟨r, here, -⟩ := ok.knows.record
  have snap := ok.knows.snap
  obtain ⟨sealed, finalized, changed⟩ := ok.knows.place
  simp only [helpStep]
  split
  · rename_i test
    exact help_goto inv inv.helps ok ⟨sealed, finalized, changed, test.1.trans snap, test.2⟩
  · rename_i test
    refine help_leave inv inv.helps ok fun who => ⟨r, here, ?_⟩
    have now := owner_current ok who
    have state : (w.mutables h.tid).state = .committed := by
      by_contra other
      exact test ⟨now.trans snap.symm, other⟩
    rw [← (inv.good.current here now).2.1]
    exact phase_committed.mpr state

theorem help_commitCas {seen : Mutables} (ok : ThreadOk max w tid (.help h (.commitCas seen))) :
    Inv max (helpStep w tid h (.commitCas seen)) := by
  obtain ⟨r, here, same⟩ := ok.knows.record
  obtain ⟨sealed, finalized, changed, number, live⟩ := ok.knows.place
  simp only [helpStep]
  split
  · rename_i equal
    have now : (w.mutables h.tid).seq = h.seq := equal ▸ number
    obtain ⟨consistent, phase, _⟩ := inv.good.current here now
    rw [equal] at consistent phase
    have seals := sealed.seals here
    have frozen : r.phase = .frozen := seals.resolve_right fun committed =>
      live (phase_committed.mp (phase.trans committed))
    have all : seen.allFrozen = true := by
      by_contra other
      refine consistent.not_seals (by simpa using other) ?_
      rw [phase]
      exact seals
    have after : ({ seen with state := .committed } : Mutables).phase = .committed :=
      phase_committed.mpr rfl
    have step : Step w (.desc h.tid h.seq) r
      ({ seen with state := .committed } : Mutables).phase := by
      rw [after]
      exact ⟨.inr ⟨frozen, rfl⟩, fun _ => (inv.good.record _ r here).holds seals,
        fun no => absurd (.inr rfl) no,
        fun _ => ⟨changed.updates here, same ▸ finalized⟩, by intros; contradiction⟩
    obtain ⟨helps, r', there, last⟩ :=
      decide_helps (m := { seen with state := .committed }) inv here now number step
      ⟨fun _ => all, by intros; contradiction⟩
    exact help_leave inv helps ok fun _ => ⟨r', there, last.trans after⟩
  · exact help_goto inv inv.helps ok ⟨sealed, finalized, changed⟩

theorem helpStep_inv (ok : ThreadOk max w tid (.help h place)) :
    Inv max (helpStep w tid h place) := by
  cases place with
  | freeze i => exact help_freeze inv ok
  | recheck i d => exact help_recheck inv ok
  | readFrozen => exact help_readFrozen inv ok
  | abortRead => exact help_abortRead inv ok
  | abortCas seen => exact help_abortCas inv ok
  | frozenRead => exact help_frozenRead inv ok
  | frozenCas seen => exact help_frozenCas inv ok
  | mark i => exact help_mark inv ok
  | update => exact help_update inv ok
  | commitRead => exact help_commitRead inv ok
  | commitCas seen => exact help_commitCas inv ok

end Help

end SetBench.Scx
