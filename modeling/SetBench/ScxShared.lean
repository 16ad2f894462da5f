import SetBench.ScxInv

/-! The steps that write shared words keep the shared part of the invariant. -/
namespace SetBench.Scx

variable {V : Type} {max : Nat} {w w' : World V} {t : Tag} {r : Record V}

theorem CallOk.keep (evolves : Evolves w w') {c : LlxCall V} (ok : CallOk w c) : CallOk w' c := by
  unfold CallOk at ok ⊢
  split
  · rename_i found
    rw [found] at ok
    exact ok
  · rename_i found
    rw [found] at ok
    intro none_
    have suffix := evolves.markers c.llx.node
    rw [none_, List.suffix_nil] at suffix
    exact ok suffix
  · trivial

/-- A record that the step does not change. -/
theorem RecordOk.keep (good : Good max w) (evolves : Evolves w w')
    (heads : ∀ n, w'.scxPtr n ∉ (w'.held n).tail) (here : w.record t = some r)
    (left : ∀ d ∈ r.op.deps, t ∈ w'.held d.node → t ∉ w.held d.node →
      d.seen ∈ (w'.held d.node).tail)
    (still : ∀ d ∈ r.op.deps, w'.scxPtr d.node = t → r.updates = [] →
      w'.log d.node = r.link d.node) :
    RecordOk max w' t r := by
  have ok := good.record t r here
  refine ⟨ok.room, fun d among => (ok.links d among).keep evolves good heads, ok.same, ok.field,
    ok.old, ok.new, fun d among member => ?_,
    still, fun seals d among => evolves.mem_held (ok.holds seals d among), ok.unchanged,
      fun m rest list => ?_, fun committed => ?_,
    fun aborted => evolves.doomed good here (ok.aborted aborted), ok.returned⟩
  · by_cases before : t ∈ w.held d.node
    · exact tail_subset (evolves.held _) (ok.left d among before)
    · exact left d among member before
  · obtain ⟨alone, moment, suffix⟩ := ok.updated m rest list
    exact ⟨alone, moment, suffix.trans (evolves.log _ _)⟩
  · obtain ⟨changed, marks⟩ := ok.committed committed
    exact ⟨changed, fun d among finalize => evolves.mem_markers (marks d among finalize)⟩

theorem Good.marker_keep (good : Good max w) (evolves : Evolves w w') {n : Nat}
    (same : w'.scxPtr n = w.scxPtr n) {x : Tag} (member : x ∈ w.markers n) :
    x = w'.scxPtr n ∧ ∃ r, w'.record x = some r ∧ r.phase.Seals ∧ ∃ d ∈ r.op.deps, d.node = n ∧
      d.finalize = true := by
  obtain ⟨ptr, r, here, seals, dep⟩ := good.marker n x member
  obtain ⟨r', there, later⟩ := evolves.record x r here
  exact ⟨ptr.trans same.symm, r', there, later.seals seals, later.op.symm ▸ dep⟩

theorem Good.known_keep (good : Good max w) (evolves : Evolves w w') {n : Nat} {x : Tag}
    (member : x ∈ w.held n) :
    x = .init ∨ ∃ r, w'.record x = some r ∧ ∀ d ∈ r.op.deps.head?, x ∈ w'.held d.node := by
  rcases good.known n x member with rfl | ⟨r, here, first⟩
  · exact .inl rfl
  · obtain ⟨r', there, later⟩ := evolves.record x r here
    refine .inr ⟨r', there, fun d head => evolves.mem_held (first d ?_)⟩
    rw [← later.op]
    exact head

-- Marks are made by what seals and finalizes, which nobody links to.
theorem Good.linked_unmarked (good : Good max w) {n : Nat} (linkable : Linkable w n (w.scxPtr n)) :
    w.markers n = [] := by
  refine List.eq_nil_iff_forall_not_mem.mpr fun x member => ?_
  obtain ⟨rfl, r, here, seals, d, among, node, finalize⟩ := good.marker n x member
  rcases linkable with init | ⟨r', there, aborted | ⟨committed, spared⟩⟩
  · rw [init, good.dummy] at here
    cases here
  · rw [here] at there
    cases there
    rcases seals with frozen | committed
    · rw [frozen] at aborted
      cases aborted
    · rw [committed] at aborted
      cases aborted
  · rw [here] at there
    cases there
    rw [spared d among node] at finalize
    cases finalize

theorem later_refl (r : Record V) : Later r r := ⟨rfl, rfl, .inl rfl, id⟩

theorem evolves_refl (w : World V) : Evolves w w :=
  ⟨fun _ => List.suffix_refl _, fun _ _ _ _ _ member => .inl member,
    fun _ r here => ⟨r, here, later_refl r⟩, fun _ => List.suffix_refl _,
    fun _ _ => List.suffix_refl _, fun _ _ _ => ⟨rfl, rfl⟩, fun _ => le_rfl, fun _ _ _ => rfl⟩

/-! The freezing CAS. -/

section Freeze

variable (good : Good max w) (here : w.record t = some r) {d : Dep} (among : d ∈ r.op.deps)
    (now : w.scxPtr d.node = d.seen)

include good here among now

theorem freeze_new : t ∉ w.held d.node := by
  intro member
  have gone := (good.record t r here).left d among member
  rw [← now] at gone
  exact good.not_tail gone

theorem freeze_evolves : Evolves w (w.freeze d.node t) := by
  have base := evolves_refl w
  refine { base with
    held := fun n => ?_
    enters := fun x s known e deps member => ?_
    quiet := fun n _ _ => ⟨rfl, rfl⟩ }
  · by_cases node : n = d.node
    · subst node
      simp [World.freeze]
    · simp [World.freeze, node]
  · by_cases node : e.node = d.node
    · simp only [World.freeze, node, Function.update_self, List.mem_cons] at member
      rcases member with rfl | member
      · rw [here] at known
        cases known
        have same := (good.record x r here).same e deps d among node
        exact .inr (by rw [node, now, same])
      · exact .inl (by rw [node]; exact member)
    · simp only [World.freeze, Function.update_of_ne node] at member
      exact .inl member

theorem freeze_good (first : ∀ e ∈ r.op.deps.head?, e = d ∨ t ∈ w.held e.node) :
    Good max (w.freeze d.node t) := by
  have new := freeze_new good here among now
  have evolves := freeze_evolves good here among now
  have link := (good.record t r here).links d among
  have self : (w.freeze d.node t).held d.node = t :: w.held d.node := by simp [World.freeze]
  have other {n : Nat} (node : n ≠ d.node) : (w.freeze d.node t).held n = w.held n ∧
    (w.freeze d.node t).scxPtr n = w.scxPtr n := by
    simp [World.freeze, node]
  have ptr : (w.freeze d.node t).scxPtr d.node = t := by simp [World.freeze]
  have heads (n : Nat) : (w.freeze d.node t).scxPtr n ∉ ((w.freeze d.node t).held n).tail := by
    by_cases node : n = d.node
    · subst node
      rw [self, ptr]
      exact new
    · rw [(other node).1, (other node).2]
      exact good.not_tail
  refine { good with
    ptr := fun n => ?_
    once := fun n => ?_
    marker := fun n x member => ?_
    past := fun n x member => ?_
    known := fun n x member => ?_
    record := fun x s known => ?_
    desc := fun tid => ?_
    handle := fun tid n h known => ?_
    llxs := fun c member => (good.llxs c member).keep evolves }
  · by_cases node : n = d.node
    · subst node
      rw [self, ptr]
      rfl
    · rw [(other node).1, (other node).2]
      exact good.ptr n
  · by_cases node : n = d.node
    · subst node
      rw [self]
      exact List.nodup_cons.mpr ⟨new, good.once _⟩
    · rw [(other node).1]
      exact good.once n
  · by_cases node : n = d.node
    · subst node
      have none_ : w.markers d.node = [] := good.linked_unmarked (now.symm ▸ link.linkable)
      have member : x ∈ w.markers d.node := member
      rw [none_] at member
      cases member
    · exact good.marker_keep evolves (other node).2 member
  · by_cases node : n = d.node
    · subst node
      rw [self] at member
      rcases good.ptr_or_tail member with rfl | gone
      · exact evolves.linkable (now.symm ▸ link.linkable)
      · exact evolves.linkable (good.past _ x gone)
    · rw [(other node).1] at member
      exact evolves.linkable (good.past n x member)
  · by_cases node : n = d.node
    · subst node
      rw [self] at member
      rcases List.mem_cons.mp member with rfl | member
      · refine .inr ⟨r, here, fun e head => ?_⟩
        rcases first e head with rfl | held
        · rw [self]
          exact List.mem_cons_self ..
        · exact evolves.mem_held held
      · exact good.known_keep evolves member
    · rw [(other node).1] at member
      exact good.known_keep evolves member
  · have known : w.record x = some s := known
    refine RecordOk.keep good evolves heads known (fun e deps member absent => ?_)
      fun e deps at_ none_ => ?_
    · by_cases node : e.node = d.node
      · rw [node, self]
        rw [← node]
        exact ((good.record x s known).links e deps).held
      · rw [(other node).1] at member
        exact absurd member absent
    · by_cases node : e.node = d.node
      · rw [node, ptr] at at_
        subst at_
        rw [here] at known
        cases known
        have ok := good.record t r here
        have same := ok.same e deps d among node
        refine (ok.links e deps).same ?_
        rw [node, now, same]
      · rw [(other node).2] at at_
        exact (good.record x s known).still e deps at_ none_
  · exact ⟨(good.desc tid).even, (good.desc tid).odd, (good.desc tid).used⟩
  · exact (good.handle tid n h known).keep evolves good heads

end Freeze

/-! A change of one record. -/

theorem setRecord_self (here : w.record t = some r) (f : Record V → Record V) :
    (w.setRecord t f).record t = some (f r) := by
  simp [World.setRecord, here]

theorem setRecord_other {x : Tag} (other : x ≠ t) (f : Record V → Record V) :
    (w.setRecord t f).record x = w.record x := by
  simp [World.setRecord, other]

theorem setRecord_later (here : w.record t = some r) {f : Record V → Record V}
    (later : Later r (f r)) {x : Tag} {s : Record V} (known : w.record x = some s) :
    ∃ s', (w.setRecord t f).record x = some s' ∧ Later s s' := by
  by_cases same : x = t
  · subst same
    rw [here] at known
    cases known
    exact ⟨f r, setRecord_self here f, later⟩
  · exact ⟨s, (setRecord_other same f).trans known, later_refl s⟩

/-! The compare-and-swaps of the mutables. -/

-- What the new phase of a record needs.
structure Step (w : World V) (t : Tag) (r : Record V) (p : Phase) : Prop where
  later : r.phase = .running ∨ r.phase = .frozen ∧ p = .committed
  holds : p.Seals → Frozen w t r.op
  unchanged : ¬ p.Seals → r.updates = []
  committed : p = .committed → r.updates ≠ [] ∧ Finalized w t r.op
  aborted : p = .aborted → Doomed w t r.op

section Decide

variable (good : Good max w) {tid seq : Nat} (here : w.record (.desc tid seq) = some r)
    (current : (w.mutables tid).seq = seq) {m : Mutables}
  (same : m.seq = seq) (step : Step w (.desc tid seq) r m.phase)

include here current same step

theorem decide_evolves : Evolves w (w.decide tid seq m) := by
  have base := evolves_refl w
  have later : Later r { r with phase := m.phase } := ⟨rfl, rfl, .inr step.later, id⟩
  have seqs (other : Nat) : ((w.decide tid seq m).mutables other).seq = (w.mutables other).seq := by
    by_cases node : other = tid
    · subst node
      simp [World.decide, World.setRecord, World.setDesc, World.mutables, same, ← current]
    · simp [World.decide, World.setRecord, World.setDesc, World.mutables, node]
  refine { base with
    record := fun x s known => setRecord_later (w := w.setDesc tid ⟨m, (w.desc tid).body⟩) here
      later known
    seq := fun other => (seqs other).ge
    body := fun other _ _ => ?_ }
  by_cases node : other = tid
  · subst node
    simp [World.decide, World.setRecord, World.setDesc]
  · simp [World.decide, World.setRecord, World.setDesc, node]

include good

theorem decide_good (consistent : Consistent m) : Good max (w.decide tid seq m) := by
  have evolves := decide_evolves here current same step
  have ok := good.record _ r here
  have odd := ((good.desc tid).used seq r here).1
  have self : (w.decide tid seq m).record (.desc tid seq) = some { r with phase := m.phase } :=
    setRecord_self (w := w.setDesc tid ⟨m, (w.desc tid).body⟩) here _
  have other {x : Tag} (apart : x ≠ .desc tid seq) : (w.decide tid seq m).record x = w.record x :=
    setRecord_other (w := w.setDesc tid ⟨m, (w.desc tid).body⟩) apart _
  have heads (n : Nat) : (w.decide tid seq m).scxPtr n ∉ ((w.decide tid seq m).held n).tail :=
    good.not_tail
  have kept {x : Tag} {s : Record V} (known : w.record x = some s) :
    RecordOk max (w.decide tid seq m) x s :=
    RecordOk.keep good evolves heads known (fun d _ member absent => absurd member absent)
      (good.record x s known).still
  have descs (tid' : Nat) (apart : tid' ≠ tid) : (w.decide tid seq m).desc tid' = w.desc tid' := by
    simp [World.decide, World.setRecord, World.setDesc, apart]
  have own : (w.decide tid seq m).desc tid = ⟨m, (w.desc tid).body⟩ := by
    simp [World.decide, World.setRecord, World.setDesc]
  refine { good with
    marker := fun n x member => good.marker_keep evolves rfl member
    past := fun n x member => evolves.linkable (good.past n x member)
    known := fun n x member => good.known_keep evolves member
    dummy := (other (by simp)).trans good.dummy
    record := fun x s known => ?_
    desc := fun tid' => ?_
    handle := fun tid n h known => (good.handle tid n h known).keep evolves good heads
    llxs := fun c member => (good.llxs c member).keep evolves }
  · by_cases apart : x = .desc tid seq
    · subst apart
      rw [self] at known
      cases known
      have before := kept here
      have unreturned : r.returned = none := by
        cases back : r.returned with
        | none => rfl
        | some b =>
            have phase := ok.returned b back
            cases b with
            | true => rcases step.later with late | late <;> simp [phase] at late
            | false => rcases step.later with late | late <;> simp [phase] at late
      have doomed (aborted : m.phase = .aborted) : Doomed (w.decide tid seq m) (.desc tid seq)
        r.op :=
        evolves.doomed good here (step.aborted aborted)
      exact { before with
        holds := step.holds
        unchanged := step.unchanged
        committed := step.committed
        aborted := doomed
        returned := fun b back => absurd (unreturned.symm.trans back) nofun }
    · rw [other apart] at known
      exact kept known
  · by_cases apart : tid' = tid
    · subst apart
      have mine : (w.decide tid' seq m).mutables tid' = m := by
        rw [World.mutables, own]
      refine ⟨fun even => ?_, fun _ => ?_, fun x s known => ?_⟩
      · rw [mine, same] at even
        omega
      · rw [mine, same, own]
        obtain ⟨_, r', there, _, body⟩ := (good.desc tid').odd (current.symm ▸ odd)
        rw [current, here] at there
        cases there
        exact ⟨consistent, _, self, rfl, body⟩
      · rw [mine, same]
        by_cases now : x = seq
        · subst now
          exact ⟨odd, le_rfl, fun less => absurd less (lt_irrefl _)⟩
        · have old : w.record (.desc tid' x) = some s := by
            rw [← other (x := .desc tid' x) (by simp [now])]
            exact known
          have used := (good.desc tid').used x s old
          rw [current] at used
          exact used
    · have mine : (w.decide tid seq m).mutables tid' = w.mutables tid' := by
        rw [World.mutables, descs tid' apart]
        rfl
      have elsewhere (x : Nat) : (w.decide tid seq m).record (.desc tid' x) =
        w.record (.desc tid' x) := other (by simp [apart])
      have old := good.desc tid'
      refine ⟨?_, ?_, ?_⟩
      · rw [mine]
        exact old.even
      · rw [mine, elsewhere, descs tid' apart]
        exact old.odd
      · intro x s known
        rw [elsewhere] at known
        rw [mine]
        exact old.used x s known

end Decide

/-! Marking. -/

theorem Good.frozen_ptr (good : Good max w) (here : w.record t = some r)
    (frozen : r.phase = .frozen) {d : Dep} (among : d ∈ r.op.deps) :
    w.scxPtr d.node = t := by
  rcases good.ptr_or_tail ((good.record t r here).holds (.inl frozen) d among) with now | gone
  · exact now
  · rcases good.past _ t gone with rfl | ⟨s, there, aborted | ⟨committed, _⟩⟩
    · rw [good.dummy] at here
      cases here
    · rw [here] at there
      cases there
      rw [frozen] at aborted
      cases aborted
    · rw [here] at there
      cases there
      rw [frozen] at committed
      cases committed

theorem mark_evolves (w : World V) (n : Nat) (t : Tag) : Evolves w (w.mark n t) := by
  have base := evolves_refl w
  refine { base with markers := fun k => ?_ }
  by_cases node : k = n
  · subst node
    simp [World.mark]
  · simp [World.mark, node]

theorem mark_good (good : Good max w) (here : w.record t = some r) (seals : r.phase.Seals)
    {d : Dep} (among : d ∈ r.op.deps) (finalize : d.finalize = true) :
    Good max (w.mark d.node t) := by
  have evolves := mark_evolves w d.node t
  have heads (n : Nat) : (w.mark d.node t).scxPtr n ∉ ((w.mark d.node t).held n).tail :=
    good.not_tail
  have ptr : t = w.scxPtr d.node := by
    rcases seals with frozen | committed
    · exact (good.frozen_ptr here frozen among).symm
    · exact (good.marker _ t (((good.record t r here).committed committed).2 d among finalize)).1
  refine { good with
    marked := fun n => ?_
    marker := fun n x member => ?_
    past := fun n x member => evolves.linkable (good.past n x member)
    known := fun n x member => good.known_keep evolves member
    record := fun x s known => RecordOk.keep good evolves heads known
      (fun d _ member absent => absurd member absent) (good.record x s known).still
    desc := fun tid => ⟨(good.desc tid).even, (good.desc tid).odd, (good.desc tid).used⟩
    handle := fun tid n h known => (good.handle tid n h known).keep evolves good heads
    llxs := fun c member => (good.llxs c member).keep evolves }
  · by_cases node : n = d.node
    · subst node
      simp [World.mark]
    · simp only [World.mark, Function.update_of_ne node]
      exact good.marked n
  · by_cases node : n = d.node
    · subst node
      simp only [World.mark, Function.update_self, List.mem_cons] at member
      rcases member with rfl | member
      · exact ⟨ptr, r, here, seals, d, among, rfl, finalize⟩
      · exact good.marker_keep evolves rfl member
    · simp only [World.mark, Function.update_of_ne node] at member
      exact good.marker_keep evolves rfl member

/-! The update CAS. -/

-- A value that a later one has replaced is not in the field any more.
theorem Good.no_return (good : Good max w) {n i : Nat} {new : V} {link : List V}
    (suffix : new :: link <:+ w.log n i) : w.word n i ∉ link := by
  intro member
  have word := good.word n i
  have fresh := good.fresh n i
  obtain ⟨front, list⟩ := suffix
  rw [← list] at word fresh
  cases front with
  | nil =>
      cases word
      exact (List.nodup_cons.mp fresh).1 member
  | cons x front =>
      cases word
      refine (List.nodup_cons.mp fresh).1 ?_
      exact List.mem_append_right _ (List.mem_cons_of_mem _ member)

theorem swing_once (good : Good max w) (here : w.record t = some r) (seals : r.phase.Seals)
    (old : w.word r.op.node r.op.index = r.op.oldVal) :
    r.updates = [] ∧ r.phase = .frozen := by
  have ok := good.record t r here
  have none_ : r.updates = [] := by
    cases list : r.updates with
    | nil => rfl
    | cons m rest =>
        refine absurd ?_ (good.no_return (ok.updated m rest list).2.2)
        rw [old]
        exact List.mem_of_mem_head? ok.old
  refine ⟨none_, ?_⟩
  rcases seals with frozen | committed
  · exact frozen
  · exact absurd none_ (ok.committed committed).1

section Swing

variable (good : Good max w) (here : w.record t = some r) (none_ : r.updates = [])
    (frozen : r.phase = .frozen)

include good here frozen

theorem swing_evolves : Evolves w (w.swing r.op t) := by
  have base := evolves_refl w
  have later : Later r { r with updates := ⟨w.log, w.markers⟩ :: r.updates } :=
    ⟨rfl, rfl, .inl rfl, fun _ => nofun⟩
  have ok := good.record t r here
  refine { base with
    record := fun x s known => ?_
    log := fun n i => ?_
    quiet := fun n linkable _ => ?_ }
  · exact setRecord_later (f := fun r => { r with updates := ⟨w.log, w.markers⟩ :: r.updates }) here
      later known
  · by_cases node : n = r.op.node
    · subst node
      by_cases index : i = r.op.index
      · subst index
        simp [World.swing, World.setRecord]
      · simp [World.swing, World.setRecord, index]
    · simp [World.swing, World.setRecord, node]
  · by_cases node : n = r.op.node
    · obtain ⟨d, among, field⟩ := ok.field
      have ptr := good.frozen_ptr here frozen among
      rw [field, ← node] at ptr
      rw [ptr] at linkable
      rcases linkable with rfl | ⟨s, there, aborted | ⟨committed, _⟩⟩
      · rw [good.dummy] at here
        cases here
      · rw [here] at there
        cases there
        rw [frozen] at aborted
        cases aborted
      · rw [here] at there
        cases there
        rw [frozen] at committed
        cases committed
    · simp [World.swing, World.setRecord, node]

include none_

theorem swing_good : Good max (w.swing r.op t) := by
  have evolves := swing_evolves good here frozen
  have ok := good.record t r here
  have heads (n : Nat) : (w.swing r.op t).scxPtr n ∉ ((w.swing r.op t).held n).tail := good.not_tail
  have ptr {d : Dep} (among : d ∈ r.op.deps) : w.scxPtr d.node = t :=
    good.frozen_ptr here frozen among
  have same {d : Dep} (among : d ∈ r.op.deps) : w.log d.node = r.link d.node :=
    ok.still d among (ptr among) none_
  obtain ⟨d, among, field⟩ := ok.field
  have logNow : w.log r.op.node = r.link r.op.node := field ▸ same among
  have ptrNow : w.scxPtr r.op.node = t := field ▸ ptr among
  have self : (w.swing r.op t).record t =
    some { r with updates := ⟨w.log, w.markers⟩ :: r.updates } :=
    setRecord_self (w := { w with word := _, log := _ }) here _
  have other {x : Tag} (apart : x ≠ t) : (w.swing r.op t).record x = w.record x :=
    setRecord_other (w := { w with word := _, log := _ }) apart _
  have logOther {n : Nat} (node : n ≠ r.op.node) : (w.swing r.op t).log n = w.log n := by
    simp [World.swing, World.setRecord, node]
  have logSelf : (w.swing r.op t).log r.op.node r.op.index = r.op.newVal :: w.log r.op.node
    r.op.index := by
    simp [World.swing, World.setRecord]
  have logBeside {i : Nat} (index : i ≠ r.op.index) : (w.swing r.op t).log r.op.node i =
    w.log r.op.node i := by
    simp [World.swing, World.setRecord, index]
  refine { good with
    word := fun n i => ?_
    fresh := fun n i => ?_
    marker := fun n x member => good.marker_keep evolves rfl member
    past := fun n x member => evolves.linkable (good.past n x member)
    known := fun n x member => good.known_keep evolves member
    dummy := ?_
    record := fun x s known => ?_
    desc := fun tid => ?_
    handle := fun tid n h known => (good.handle tid n h known).keep evolves good heads
    llxs := fun c member => (good.llxs c member).keep evolves }
  · by_cases node : n = r.op.node
    · subst node
      by_cases index : i = r.op.index
      · subst index
        rw [logSelf]
        simp [World.swing, World.setRecord]
      · rw [logBeside index]
        simpa [World.swing, World.setRecord, index] using good.word r.op.node i
    · rw [logOther node]
      simpa [World.swing, World.setRecord, node] using good.word n i
  · by_cases node : n = r.op.node
    · subst node
      by_cases index : i = r.op.index
      · subst index
        rw [logSelf]
        refine List.nodup_cons.mpr ⟨?_, good.fresh _ _⟩
        rw [logNow]
        exact ok.new
      · rw [logBeside index]
        exact good.fresh _ _
    · rw [logOther node]
      exact good.fresh n i
  · refine (other ?_).trans good.dummy
    rintro rfl
    rw [good.dummy] at here
    cases here
  · by_cases apart : x = t
    · subst apart
      rw [self] at known
      cases known
      refine ⟨ok.room, fun e deps => (ok.links e deps).keep evolves good heads, ok.same, ok.field,
        ok.old, ok.new, ok.left, fun _ _ _ => nofun,
        ok.holds, fun no => absurd (.inl frozen) no, fun m rest list => ?_, fun committed =>
          ?_, fun aborted => ?_, ok.returned⟩
      · rw [none_] at list
        cases list
        refine ⟨rfl, fun e deps => ⟨same deps, fun y member => ?_⟩, ?_⟩
        · exact (good.marker _ y member).1.trans (ptr deps)
        · rw [logSelf, logNow]
      · rw [frozen] at committed
        cases committed
      · rw [frozen] at aborted
        cases aborted
    · rw [other apart] at known
      refine RecordOk.keep good evolves heads known (fun d _ member absent => absurd member absent)
        fun e deps now empty => ?_
      by_cases node : e.node = r.op.node
      · refine absurd ?_ apart
        rw [← now, node]
        exact ptrNow
      · rw [logOther node]
        exact (good.record x s known).still e deps now empty
  · refine ⟨(good.desc tid).even, fun odd => ?_, fun x s known => ?_⟩
    · obtain ⟨consistent, s, there, phase, body⟩ := (good.desc tid).odd odd
      refine ⟨consistent, ?_⟩
      by_cases apart : Tag.desc tid (w.mutables tid).seq = t
      · subst apart
        rw [here] at there
        cases there
        exact ⟨_, self, phase, body⟩
      · exact ⟨s, (other apart).trans there, phase, body⟩
    · by_cases apart : Tag.desc tid x = t
      · subst apart
        rw [self] at known
        cases known
        exact (good.desc tid).used x r here
      · rw [other apart] at known
        exact (good.desc tid).used x s known

end Swing

/-! The owner's writes to its descriptor. -/

section Owner

variable {tid : Nat}

-- The descriptors of the other threads.
theorem DescOk.apart {other : Nat} (ok : DescOk w other) (desc : w'.desc other = w.desc other)
    (record : ∀ s, w'.record (.desc other s) = w.record (.desc other s)) : DescOk w' other := by
  have same : w'.mutables other = w.mutables other := by
    rw [World.mutables, desc]
    rfl
  refine ⟨?_, ?_, ?_⟩
  · rw [same]
    exact ok.even
  · rw [same, record, desc]
    exact ok.odd
  · intro s r known
    rw [record] at known
    rw [same]
    exact ok.used s r known

theorem setDesc_other {other : Nat} (apart : other ≠ tid) (desc : Desc V) :
    (w.setDesc tid desc).desc other = w.desc other := by
  simp [World.setDesc, apart]

theorem setDesc_self (desc : Desc V) : (w.setDesc tid desc).desc tid = desc := by
  simp [World.setDesc]

theorem setDesc_evolves {desc : Desc V} (upto : (w.mutables tid).seq ≤ desc.mutables.seq)
    (body : (w.mutables tid).seq % 2 = 1 → desc.mutables.seq = (w.mutables tid).seq →
      desc.body = (w.desc tid).body) :
    Evolves w (w.setDesc tid desc) := by
  have base := evolves_refl w
  refine { base with
    seq := fun other => ?_
    body := fun other odd same => ?_ }
  · by_cases apart : other = tid
    · subst apart
      have now : (w.setDesc other desc).mutables other = desc.mutables := by
        rw [World.mutables, setDesc_self]
      rw [now]
      exact upto
    · rw [World.mutables, World.mutables, setDesc_other apart]
  · by_cases apart : other = tid
    · subst apart
      rw [World.mutables, setDesc_self] at same
      rw [setDesc_self]
      exact body odd same
    · rw [setDesc_other apart]

variable (good : Good max w) (even : (w.mutables tid).seq % 2 = 0)

include good even

theorem fill_good (body : Body V) : Good max (w.setDesc tid ⟨w.mutables tid, body⟩) := by
  have evolves : Evolves w (w.setDesc tid ⟨w.mutables tid, body⟩) :=
    setDesc_evolves le_rfl fun odd _ => by omega
  have heads (n : Nat) : (w.setDesc tid ⟨w.mutables tid, body⟩).scxPtr n ∉
    ((w.setDesc tid ⟨w.mutables tid, body⟩).held n).tail := good.not_tail
  refine { good with
    marker := fun n x member => good.marker_keep evolves rfl member
    past := fun n x member => evolves.linkable (good.past n x member)
    known := fun n x member => good.known_keep evolves member
    record := fun x s known => RecordOk.keep good evolves heads known
      (fun d _ member absent => absurd member absent) (good.record x s known).still
    desc := fun other => ?_
    handle := fun tid n h known => (good.handle tid n h known).keep evolves good heads
    llxs := fun c member => (good.llxs c member).keep evolves }
  by_cases apart : other = tid
  · subst apart
    have same : (w.setDesc other ⟨w.mutables other, body⟩).mutables other = w.mutables other := by
      rw [World.mutables, setDesc_self]
    refine ⟨?_, fun odd => ?_, ?_⟩
    · rw [same]
      exact (good.desc other).even
    · rw [same] at odd
      omega
    · intro s r known
      rw [same]
      exact (good.desc other).used s r known
  · exact (good.desc other).apart (setDesc_other apart _) fun _ => rfl

variable {op : Op V} {seen : Mutables} (armed : Armed max w tid op)
    (body : (w.desc tid).body.op = op) (same : seen = w.mutables tid)

omit even in
theorem publish_new : w.record (.desc tid ((w.mutables tid).seq + 1)) = none := by
  cases found : w.record (.desc tid ((w.mutables tid).seq + 1)) with
  | none => rfl
  | some r =>
      have used := (good.desc tid).used _ r found
      omega

include same

theorem publish_evolves : Evolves w (w.publish tid op seen) := by
  subst same
  have moved : Evolves w (w.setDesc tid ⟨{ w.mutables tid with seq := (w.mutables tid).seq + 1 },
    (w.desc tid).body⟩) :=
    setDesc_evolves (Nat.le_succ _) fun odd _ => by omega
  refine { moved with record := fun x s known => ⟨s, ?_, later_refl s⟩ }
  have apart : x ≠ .desc tid ((w.mutables tid).seq + 1) := by
    rintro rfl
    rw [publish_new good] at known
    cases known
  show Function.update w.record _ _ x = some s
  rw [Function.update_of_ne apart]
  exact known

include armed body

theorem publish_good : Good max (w.publish tid op seen) := by
  have evolves : Evolves w (w.publish tid op seen) := publish_evolves good even same
  subst same
  have new : w.record (.desc tid ((w.mutables tid).seq + 1)) = none := publish_new good
  have unheld {n : Nat} : Tag.desc tid ((w.mutables tid).seq + 1) ∉ w.held n := by
    intro member
    rcases good.known n _ member with no | ⟨r, here, _⟩
    · cases no
    · rw [new] at here
      cases here
  have self : (w.publish tid op (w.mutables tid)).record (.desc tid ((w.mutables tid).seq + 1)) =
    some ⟨op, w.links tid, .running, [], none⟩ := by
    simp [World.publish]
  have other {x : Tag} (apart : x ≠ .desc tid ((w.mutables tid).seq + 1)) :
    (w.publish tid op (w.mutables tid)).record x = w.record x := by
    simp [World.publish, apart]
  have heads (n : Nat) : (w.publish tid op (w.mutables tid)).scxPtr n ∉
    ((w.publish tid op (w.mutables tid)).held n).tail := good.not_tail
  refine { good with
    marker := fun n x member => good.marker_keep evolves rfl member
    past := fun n x member => evolves.linkable (good.past n x member)
    known := fun n x member => good.known_keep evolves member
    dummy := (other (by simp)).trans good.dummy
    record := fun x s known => ?_
    desc := fun tid' => ?_
    handle := fun tid n h known => (good.handle tid n h known).keep evolves good heads
    llxs := fun c member => (good.llxs c member).keep evolves }
  · by_cases apart : x = .desc tid ((w.mutables tid).seq + 1)
    · subst apart
      rw [self] at known
      cases known
      have linked (d : Dep) (among : d ∈ op.deps) :
        LinkOk w d.node d.seen (w.links tid d.node) := by
        obtain ⟨h, handle, tag⟩ := Option.map_eq_some_iff.mp (armed.deps d among)
        have ok := good.handle tid d.node h handle
        rw [tag] at ok
        simp only [World.links, handle]
        exact ok
      refine ⟨armed.room, fun d among => (linked d among).keep evolves good heads,
        fun d among e deps node => ?_, armed.field, armed.old, armed.new,
        fun d _ member => absurd member unheld, fun d _ ptr => absurd (ptr ▸ good.ptr_mem) unheld,
          fun seals => ?_,
        fun _ => rfl, by intros; contradiction, by intros; contradiction, by
          intros; contradiction, by intros; contradiction⟩
      · have one := armed.deps d among
        have two := armed.deps e deps
        rw [node, two] at one
        exact (Option.some.inj one).symm
      · rcases seals with no | no <;> cases no
    · rw [other apart] at known
      exact RecordOk.keep good evolves heads known (fun d _ member absent => absurd member absent)
        (good.record x s known).still
  · by_cases apart : tid' = tid
    · subst apart
      have mine : (w.publish tid' op (w.mutables tid')).mutables tid' =
        { w.mutables tid' with seq := (w.mutables tid').seq + 1 } := by
        rw [World.mutables]
        simp only [World.publish, setDesc_self]
      have blank := (good.desc tid').even even
      refine ⟨fun even' => ?_, fun _ => ?_, fun x s known => ?_⟩
      · rw [mine] at even'
        simp only at even'
        omega
      · rw [mine]
        refine ⟨⟨fun committed => ?_, fun _ => blank.2⟩, _, self, ?_, ?_⟩
        · rw [blank.1] at committed
          cases committed
        · simp [Mutables.phase, blank.1, blank.2]
        · simp only [World.publish, setDesc_self]
          exact body
      · rw [mine]
        by_cases now : x = (w.mutables tid').seq + 1
        · subst now
          exact ⟨by omega, le_rfl, fun less => absurd less (lt_irrefl _)⟩
        · rw [other (by simp [now])] at known
          obtain ⟨odd, upto, decides⟩ := (good.desc tid').used x s known
          exact ⟨odd, upto.trans (Nat.le_succ _), fun _ => decides (by omega)⟩
    · exact (good.desc tid').apart (setDesc_other apart _) fun s => other (by simp [apart])

end Owner

section Renew

variable {tid : Nat} (result : Bool) (good : Good max w)
    (here : w.record (.desc tid (w.mutables tid).seq) = some r)
  (phase : r.phase = if result then .committed else .aborted)

include here

theorem renew_evolves : Evolves w (w.renew tid (w.mutables tid).seq result) := by
  have moved : Evolves w (w.setDesc tid ⟨⟨(w.mutables tid).seq + 1, .inProgress, false⟩,
    (w.desc tid).body⟩) :=
    setDesc_evolves (Nat.le_succ _) fun _ same => absurd same (Nat.succ_ne_self _)
  have later : Later r { r with returned := some result } := ⟨rfl, rfl, .inl rfl, id⟩
  exact { moved with
    record := fun x s known => setRecord_later (f := fun r => { r with returned := some result })
      here later known }

include good phase

theorem renew_good : Good max (w.renew tid (w.mutables tid).seq result) := by
  have evolves := renew_evolves result here
  have odd := ((good.desc tid).used _ r here).1
  have self : (w.renew tid (w.mutables tid).seq result).record (.desc tid (w.mutables tid).seq) =
    some { r with returned := some result } :=
    setRecord_self (w := w.setDesc tid _) here _
  have other {x : Tag} (apart : x ≠ .desc tid (w.mutables tid).seq) :
    (w.renew tid (w.mutables tid).seq result).record x = w.record x :=
    setRecord_other (w := w.setDesc tid _) apart _
  have heads (n : Nat) : (w.renew tid (w.mutables tid).seq result).scxPtr n ∉
    ((w.renew tid (w.mutables tid).seq result).held n).tail := good.not_tail
  have kept {x : Tag} {s : Record V} (known : w.record x = some s) :
    RecordOk max (w.renew tid (w.mutables tid).seq result) x s :=
    RecordOk.keep good evolves heads known (fun d _ member absent => absurd member absent)
      (good.record x s known).still
  have decides : r.phase.Decides := by
    cases result with
    | true => exact .inl phase
    | false => exact .inr phase
  refine { good with
    marker := fun n x member => good.marker_keep evolves rfl member
    past := fun n x member => evolves.linkable (good.past n x member)
    known := fun n x member => good.known_keep evolves member
    dummy := (other (by simp)).trans good.dummy
    record := fun x s known => ?_
    desc := fun tid' => ?_
    handle := fun tid n h known => (good.handle tid n h known).keep evolves good heads
    llxs := fun c member => (good.llxs c member).keep evolves }
  · by_cases apart : x = .desc tid (w.mutables tid).seq
    · subst apart
      rw [self] at known
      cases known
      have before := kept here
      exact { before with
        returned := fun b back => by
          cases back
          exact phase }
    · rw [other apart] at known
      exact kept known
  · by_cases apart : tid' = tid
    · subst apart
      have mine : (w.renew tid' (w.mutables tid').seq result).mutables tid' =
        ⟨(w.mutables tid').seq + 1, .inProgress, false⟩ := by
        rw [World.mutables]
        simp only [World.renew, World.setRecord, setDesc_self]
      refine ⟨fun _ => ?_, fun odd' => ?_, fun x s known => ?_⟩
      · rw [mine]
        exact ⟨rfl, rfl⟩
      · rw [mine] at odd'
        simp only at odd'
        omega
      · rw [mine]
        by_cases now : x = (w.mutables tid').seq
        · subst now
          rw [self] at known
          cases known
          exact ⟨odd, Nat.le_succ _, fun _ => decides⟩
        · rw [other (by simp [now])] at known
          obtain ⟨odd', upto, before⟩ := (good.desc tid').used x s known
          exact ⟨odd', upto.trans (Nat.le_succ _), fun _ => before (by omega)⟩
    · exact (good.desc tid').apart (setDesc_other apart _) fun s => other (by simp [apart])

end Renew

end SetBench.Scx
