import SetBench.ScxSteps

/-! Runs of llx and scxExecute. -/
namespace SetBench.Scx

open Transition

variable {V : Type} {max : Nat} {w : World V} {tid : Nat}

theorem initial_inv (max : Nat) (word : Nat → Nat → V) (blank : Body V) :
    Inv max (initial word blank) := by
  have desc (tid : Nat) : DescOk (initial word blank) tid :=
    ⟨fun _ => ⟨rfl, rfl⟩, fun odd => by simp [initial, World.mutables] at odd, by
      intros; contradiction⟩
  refine ⟨⟨fun _ => rfl, fun _ => List.nodup_singleton _, fun _ _ => rfl,
    fun _ _ => List.nodup_singleton _, fun _ => ?_, by intros; contradiction,
    by intros; contradiction, fun n t member => .inl (List.mem_singleton.mp member), rfl, by
      intros; contradiction, desc, by intros; contradiction,
    by intros; contradiction⟩, fun tid => ⟨trivial, by simp [initial, World.mutables, Pc.owns]⟩⟩
  simp [initial]

/-! llx. -/

section Llx

variable {l : Llx} {tag : Tag}

theorem readState_aborted (good : Good max w) (held : tag ∈ w.held l.node)
    (found : readState w tag = .aborted) : Linkable w l.node tag := by
  cases tag with
  | init => cases found
  | desc other seq =>
      simp only [readState] at found
      split at found
      · rename_i now
        rcases good.known _ _ held with no | ⟨r, here, _⟩
        · cases no
        · refine .inr ⟨r, here, .inl ?_⟩
          rw [← (good.current here now).2.1]
          exact phase_aborted.mpr found
      · cases found

theorem readState_committed (good : Good max w) (held : tag ∈ w.held l.node)
    (found : readState w tag = .committed) : Decided w tag := by
  rcases good.known _ _ held with rfl | ⟨r, here, _⟩
  · exact .inl rfl
  · refine .inr ⟨r, here, ?_⟩
    cases tag with
    | init =>
        rw [good.dummy] at here
        cases here
    | desc other seq =>
        simp only [readState] at found
        split at found
        · rename_i now
          rw [← (good.current here now).2.1]
          exact .inl (phase_committed.mpr found)
        · rename_i moved
          obtain ⟨_, upto, decides⟩ := (good.desc other).used seq r here
          exact decides (by omega)

-- A committed scx has marked what it finalizes.
theorem Good.unmarked_linkable (good : Good max w) {n : Nat} (decided : Decided w tag)
    (unmarked : ¬ w.marked n = true) : Linkable w n tag := by
  rcases decided with init | ⟨r, here, committed | aborted⟩
  · exact .inl init
  · refine .inr ⟨r, here, .inr ⟨committed, fun d among node => ?_⟩⟩
    by_contra finalize
    have marker := ((good.record tag r here).committed committed).2 d among
      (by simpa using finalize)
    rw [node] at marker
    exact unmarked ((good.marked n).mpr (List.ne_nil_of_mem marker))
  · exact .inr ⟨r, here, .inl aborted⟩

theorem linked_inv (inv : Inv max w) {copy : Nat → V} (held : tag ∈ w.held l.node)
    (linkable : Linkable w l.node tag) (copied : ∀ j < l.width, copy j = w.word l.node j)
    (now : w.scxPtr l.node = tag) (even : (w.mutables tid).seq % 2 = 0) :
    Inv max ((w.linked tid l.node tag).endLlx tid l (.snapshot copy)) := by
  have unmarked : w.marked l.node = false := by
    have none_ := inv.good.linked_unmarked (now.symm ▸ linkable)
    by_contra marked
    exact (inv.good.marked _).mp (by simpa using marked) none_
  have call : CallOk w ⟨l, .snapshot copy, w.word l.node, w.marked l.node⟩ := ⟨copied, unmarked⟩
  have link : LinkOk w l.node tag (w.log l.node) :=
    ⟨held, linkable, fun _ => rfl, fun _ => List.suffix_refl _⟩
  have good : Good max { w.linked tid l.node tag with
    llxs := ⟨l, .snapshot copy, w.word l.node, w.marked l.node⟩ :: w.llxs } := by
    refine quiet_good inv.good (fun other n h known => ?_) fun c member => ?_
    · by_cases same : other = tid
      · subst same
        by_cases node : n = l.node
        · subst node
          simp only [World.linked, Function.update_self] at known
          cases known
          exact link
        · simp only [World.linked, Function.update_self, Function.update_of_ne node] at known
          exact inv.good.handle other n h known
      · simp only [World.linked, Function.update_of_ne same] at known
        exact inv.good.handle other n h known
    · rcases List.mem_cons.mp member with rfl | member
      · exact call
      · exact inv.good.llxs c member
  refine inv.goto ⟨good, quiet_evolves w _ _ _, rfl, fun other apart => ⟨rfl, fun _ => rfl, ?_⟩⟩
    ⟨trivial, even⟩
  exact Function.update_of_ne apart _ _

end Llx

/-! What the owner writes. -/

-- A copy that was read while the descriptor was not used again is that of an operation with its
-- first node frozen.
theorem valid_copy (good : Good max w) {n other seq snapSeq : Nat} {got : Body V}
    (held : .desc other seq ∈ w.held n) (copying : Copying max w other seq snapSeq [] got)
    (now : (w.mutables other).seq = seq) :
    snapSeq = seq ∧ ∃ r, w.record (.desc other seq) = some r ∧ r.op = got.op ∧
      Begun w (.desc other seq) got.op ∧ Upto w (.desc other seq) got.op 1 := by
  obtain ⟨snap, agree⟩ := copying now
  rcases good.known _ _ held with no | ⟨r, here, first⟩
  · cases no
  · obtain ⟨_, _, body⟩ := good.current here now
    have room : (w.desc other).body.numNodes ≤ max := by
      have room := (good.record _ r here).room
      rw [← body] at room
      simpa [Body.op] using room
    have op : got.op = r.op :=
      (op_of_agree room fun slot member => (agree slot member).resolve_left
      (List.not_mem_nil)).trans body
    have begun : Begun w (.desc other seq) got.op := by
      rw [op]
      exact first
    refine ⟨snap, r, here, op.symm, begun, fun j less d found => ?_⟩
    cases Nat.lt_one_iff.mp less
    rw [← List.head?_eq_getElem?] at found
    exact begun d found

-- A step that writes the thread's own descriptor leaves those of the others.
theorem setDesc_spares {w' : World V} (handles : w'.handle = w.handle)
    (desc : ∀ other, other ≠ tid → w'.desc other = w.desc other) (other : Nat)
    (apart : other ≠ tid) : Spares w w' other :=
  ⟨by rw [World.mutables, desc other apart]; rfl, fun _ => desc other apart, by rw [handles]⟩

theorem Inv.fill_moves (inv : Inv max w) (even : (w.mutables tid).seq % 2 = 0) (body : Body V) :
    Moves max w (w.setDesc tid ⟨w.mutables tid, body⟩) tid := by
  refine ⟨fill_good inv.good even _, setDesc_evolves le_rfl fun odd _ => ?_, rfl,
    setDesc_spares rfl fun other apart => setDesc_other apart _⟩
  omega

theorem Inv.publish_moves (inv : Inv max w) {op : Op V} {seen : Mutables}
    (even : (w.mutables tid).seq % 2 = 0) (armed : Armed max w tid op)
    (body : (w.desc tid).body.op = op) (same : seen = w.mutables tid) :
    Moves max w (w.publish tid op seen) tid :=
  ⟨publish_good inv.good even armed body same, publish_evolves inv.good even same, rfl,
    setDesc_spares rfl fun _ apart => setDesc_other apart _⟩

theorem publish_seq {op : Op V} {seen : Mutables} :
    ((w.publish tid op seen).mutables tid).seq = seen.seq + 1 := by
  simp [World.publish, World.mutables, setDesc_self]

theorem Inv.renew_moves (inv : Inv max w) {result : Bool} {r : Record V}
    (here : w.record (.desc tid (w.mutables tid).seq) = some r)
    (phase : r.phase = if result then .committed else .aborted) :
    Moves max w (w.renew tid (w.mutables tid).seq result) tid :=
  ⟨renew_good result inv.good here phase, renew_evolves result here, rfl,
    setDesc_spares rfl fun _ apart => setDesc_other apart _⟩

theorem renew_seq {result : Bool} :
    ((w.renew tid (w.mutables tid).seq result).mutables tid).seq = (w.mutables tid).seq + 1 := by
  simp [World.renew, World.setRecord, World.mutables, setDesc_self]

variable [DecidableEq V]

theorem move_inv (blank : Body V) (dest : Nat → V) (inv : Inv max w) :
    Inv max (move max blank dest w tid (w.pc tid)) := by
  have good := inv.good
  have ok := inv.threads tid
  obtain ⟨knows, owns⟩ := ok
  cases pc : w.pc tid with
  | idle => exact inv
  | llxMarked n width =>
      rw [pc] at owns
      exact inv.stay ⟨(good.marked n).mp, owns⟩
  | llxPtr l =>
      rw [pc] at knows owns
      exact inv.stay ⟨⟨knows, good.ptr_mem⟩, owns⟩
  | llxState l tag =>
      rw [pc] at knows owns
      obtain ⟨marked, held⟩ := knows
      simp only [move]
      cases found : readState w tag with
      | aborted =>
          exact inv.stay ⟨⟨marked, held, readState_aborted good held found, by
            intros; contradiction⟩, owns⟩
      | committed => exact inv.stay ⟨⟨marked, held, readState_committed good held found⟩, owns⟩
      | inProgress =>
          cases tag with
          | init => cases found
          | desc other seq => exact inv.stay ⟨⟨marked, held⟩, owns⟩
  | llxAgain l tag =>
      rw [pc] at knows owns
      obtain ⟨marked, held, decided⟩ := knows
      simp only [move]
      split
      · exact giveUp_inv inv (inv.stays tid) marked owns
      · rename_i unmarked
        exact inv.stay ⟨⟨marked, held, good.unmarked_linkable decided unmarked, by
          intros; contradiction⟩, owns⟩
  | llxCopy l tag i copy =>
      rw [pc] at knows owns
      obtain ⟨marked, held, linkable, copied⟩ := knows
      simp only [move]
      split
      · refine inv.stay ⟨⟨marked, held, linkable, fun now j less => ?_⟩, owns⟩
        by_cases last : j = i
        · subst last
          rw [Function.update_self]
        · rw [Function.update_of_ne last]
          exact copied now j (by omega)
      · exact inv.stay ⟨⟨marked, held, linkable, fun now j less => copied now j (by omega)⟩, owns⟩
  | llxCheck l tag copy =>
      rw [pc] at knows owns
      obtain ⟨marked, held, linkable, copied⟩ := knows
      simp only [move]
      split
      · rename_i now
        exact linked_inv inv held linkable (copied now) now owns
      · exact giveUp_inv inv (inv.stays tid) marked owns
  | copyMutables l other seq =>
      rw [pc] at knows owns
      obtain ⟨marked, held⟩ := knows
      exact inv.stay ⟨⟨marked, held, fun now => ⟨now, fun slot member => .inl member⟩⟩, owns⟩
  | copy l other seq snapSeq todo got =>
      rw [pc] at knows owns
      obtain ⟨marked, held, copying⟩ := knows
      cases todo with
      | nil => exact inv.stay ⟨⟨marked, held, copying⟩, owns⟩
      | cons slot rest =>
          refine inv.stay ⟨⟨marked, held, fun now => ⟨(copying now).1, fun x member => ?_⟩⟩, owns⟩
          rcases (copying now).2 x member with waiting | agree
          · rcases List.mem_cons.mp waiting with rfl | waiting
            · exact .inr (agree_write ..)
            · exact .inl waiting
          · exact .inr (agree_other agree)
  | validate l other seq snapSeq got =>
      rw [pc] at knows owns
      obtain ⟨marked, held, copying⟩ := knows
      simp only [move]
      split
      · rename_i now
        obtain ⟨snap, r, here, op, begun, upto⟩ := valid_copy good held copying now
        exact inv.stay ⟨⟨⟨r, here, op⟩, snap, marked, upto, fun _ => begun⟩, owns⟩
      · exact giveUp_inv inv (inv.stays tid) marked owns
  | help h place =>
      rw [pc] at knows owns
      exact helpStep_inv inv ⟨knows, owns⟩
  | fill op todo =>
      rw [pc] at knows owns
      obtain ⟨armed, filled⟩ := knows
      cases todo with
      | nil => exact inv.stay ⟨⟨armed, filled⟩, owns⟩
      | cons x rest =>
          have moves := inv.fill_moves owns ((w.desc tid).body.write x)
          refine inv.goto moves ⟨⟨⟨armed.room, armed.deps, armed.field, armed.old, armed.new⟩,
            ?_⟩, ?_⟩
          · rw [setDesc_self]
            exact filled
          · rw [World.mutables, setDesc_self]
            exact owns
  | initialized op =>
      rw [pc] at knows owns
      exact inv.stay ⟨⟨knows.1, knows.2, rfl⟩, owns⟩
  | publish op seen =>
      rw [pc] at knows owns
      obtain ⟨armed, body, same⟩ := knows
      have even : (w.mutables tid).seq % 2 = 0 := owns
      have moves := inv.publish_moves even armed body same
      have number : ((w.publish tid op seen).mutables tid).seq = seen.seq + 1 := publish_seq
      refine inv.goto moves ⟨⟨⟨op, w.links tid, .running, [], none⟩, ?_, rfl⟩, ?_⟩
      · rw [number]
        simp [World.publish]
      · rw [number, same]
        show _ = 1
        omega
  | makeTag op =>
      rw [pc] at knows owns
      obtain ⟨r, here, same⟩ := knows
      exact inv.stay ⟨⟨⟨r, here, same⟩, rfl, ⟨rfl, rfl⟩,
        fun j below => absurd below (Nat.not_lt_zero j), fun positive =>
        absurd positive (lt_irrefl 0)⟩, owns⟩
  | descNew result =>
      rw [pc] at knows owns
      exact inv.stay ⟨⟨knows, rfl⟩, owns⟩
  | renew result seen =>
      rw [pc] at knows owns
      obtain ⟨⟨r, here, phase⟩, same⟩ := knows
      have odd : (w.mutables tid).seq % 2 = 1 := owns
      simp only [move, same]
      have moves := inv.renew_moves here phase
      refine inv.goto moves ⟨trivial, ?_⟩
      rw [renew_seq]
      show _ = 0
      omega

omit [DecidableEq V] in
theorem armed_of_current (good : Good max w) {op : Op V} (current : Current max w tid op) :
    Armed max w tid op := by
  refine ⟨current.room, current.deps, current.field, current.old, fun member => current.fresh ?_⟩
  obtain ⟨d, among, node⟩ := current.field
  obtain ⟨h, handle, _⟩ := Option.map_eq_some_iff.mp (current.deps d among)
  rw [node] at handle
  have link := good.handle tid op.node h handle
  simp only [World.links, handle] at member
  exact (link.past op.index).mem member

theorem step_inv {blank : Body V} {dest : Nat → V} {w w' : World V} (event : Event V)
    (inv : Inv max w) (kept : event.Keeps (Current max) w)
    (stepped : step max blank dest w event = some w') : Inv max w' := by
  cases event with
  | llx tid n width =>
      have ok := inv.threads tid
      simp only [step] at stepped
      split at stepped
      · rename_i pc
        cases stepped
        rw [pc] at ok
        exact inv.stay ⟨trivial, ok.owns⟩
      · cases stepped
  | scx tid op =>
      have ok := inv.threads tid
      simp only [step] at stepped
      split at stepped
      · rename_i pc
        cases stepped
        rw [pc] at ok
        exact inv.stay ⟨⟨armed_of_current inv.good kept, writes_op op _⟩, ok.owns⟩
      · cases stepped
  | move tid =>
      simp only [step] at stepped
      split at stepped
      · cases stepped
      · cases stepped
        exact move_inv blank dest inv

/-! What the calls did. -/

/-- An scxExecute took effect if and only if it returns true; then it did so once, at a
moment at which nothing had happened to its nodes since the linked llx. -/
structure Outcome (w : World V) (t : Tag) (r : Record V) : Prop where
  exact : ∀ b, r.returned = some b → (b = true ↔ ∃ m, r.updates = [m])
  once : ∀ m ∈ r.updates, r.updates = [m] ∧ MomentOk t r m ∧ (m.log r.op.node r.op.index).head? =
    some r.op.oldVal ∧
    r.op.newVal :: m.log r.op.node r.op.index <:+ w.log r.op.node r.op.index
  finalized : r.returned = some true → ∀ d ∈ r.op.deps, d.finalize = true → w.marked d.node = true ∧
    t ∈ w.markers d.node
  only : ∀ n, t ∈ w.markers n → ∃ d ∈ r.op.deps, d.node = n ∧ d.finalize = true
  nothing : r.returned = some false → r.updates = [] ∧ ∀ n, t ∉ w.markers n

/-- A copy is the node at the last step of the llx, which is not marked then. FINALIZED
comes from an scx with all its nodes frozen that finalizes the node. -/
structure Answer (w : World V) (c : LlxCall V) : Prop where
  snapshot : ∀ copy, c.result = .snapshot copy → (∀ i < c.llx.width, copy i = c.words i) ∧
    c.marked = false
  finalized : c.result = .finalized → w.marked c.llx.node = true ∧
    ∃ t r, w.record t = some r ∧ r.phase.Seals ∧ r.returned ≠ some false ∧ ∃ d ∈ r.op.deps, d.node =
      c.llx.node ∧ d.finalize = true

omit [DecidableEq V] in
theorem Good.outcome (good : Good max w) {t : Tag} {r : Record V} (here : w.record t = some r) :
    Outcome w t r := by
  have ok := good.record t r here
  have none_ (back : r.returned = some false) : r.updates = [] ∧ ¬ r.phase.Seals := by
    have phase : r.phase = .aborted := ok.returned false back
    have open_ : ¬ r.phase.Seals := by
      rw [phase]
      rintro (no | no) <;> cases no
    exact ⟨ok.unchanged open_, open_⟩
  refine ⟨fun b back => ?_, fun m member => ?_, fun back d among finalize => ?_, fun n member => ?_,
    fun back => ⟨(none_ back).1, fun n member => ?_⟩⟩
  · cases b with
    | true =>
        have phase : r.phase = .committed := ok.returned true back
        have changed := (ok.committed phase).1
        cases list : r.updates with
        | nil => exact absurd list changed
        | cons m rest =>
            obtain ⟨rfl, _⟩ := ok.updated m rest list
            simp
    | false => simp [(none_ back).1]
  · cases list : r.updates with
    | nil =>
        rw [list] at member
        cases member
    | cons m' rest =>
        obtain ⟨rfl, moment, suffix⟩ := ok.updated m' rest list
        rw [list] at member
        cases List.mem_singleton.mp member
        obtain ⟨d, among, node⟩ := ok.field
        have log : m.log r.op.node = r.link r.op.node := node ▸ (moment d among).1
        refine ⟨rfl, moment, ?_, ?_⟩
        · rw [log]
          exact ok.old
        · rw [log]
          exact suffix
  · have phase : r.phase = .committed := ok.returned true back
    have marker := (ok.committed phase).2 d among finalize
    exact ⟨(good.marked _).mpr (List.ne_nil_of_mem marker), marker⟩
  · obtain ⟨_, r', there, _, dep⟩ := good.marker n t member
    rw [here] at there
    cases there
    exact dep
  · obtain ⟨_, r', there, seals, _⟩ := good.marker n t member
    rw [here] at there
    cases there
    exact (none_ back).2 seals

omit [DecidableEq V] in
theorem Good.answer (good : Good max w) {c : LlxCall V} (member : c ∈ w.llxs) : Answer w c := by
  have ok := good.llxs c member
  refine ⟨fun copy result => ?_, fun result => ?_⟩
  · unfold CallOk at ok
    rw [result] at ok
    exact ok
  · unfold CallOk at ok
    rw [result] at ok
    obtain ⟨t, marker⟩ := List.exists_mem_of_ne_nil _ ok
    obtain ⟨_, r, here, seals, dep⟩ := good.marker _ t marker
    refine ⟨(good.marked _).mpr ok, t, r, here, seals, fun back => ?_, dep⟩
    have phase : r.phase = .aborted := (good.record t r here).returned false back
    rw [phase] at seals
    rcases seals with no | no <;> cases no

/-- Every run in which oldVal is what the field held at the linked llx. -/
theorem scx_atomic (max : Nat) (word : Nat → Nat → V) (blank : Body V) (dest : Nat → V)
    {events : List (Event V)} {w : World V}
    (run : Run (step max blank dest) (fun w event => event.Keeps (Current max) w)
      (initial word blank) events w) :
    (∀ t r, w.record t = some r → Outcome w t r) ∧ (∀ c ∈ w.llxs, Answer w c) ∧
      (∀ n i, (w.log n i).head? = some (w.word n i)) ∧ ∀ n, w.marked n = true ↔
      w.markers n ≠ [] := by
  have inv : Inv max w := by
    refine run_invariant (Inv max) (initial_inv max word blank) ?_ run
    intro before event after inv kept stepped
    exact step_inv event inv kept stepped
  exact ⟨fun t r here => inv.good.outcome here, fun c member => inv.good.answer member,
    inv.good.word, inv.good.marked⟩

/-! Two runs. -/

instance instDecidableKeeps {rule : World V → Nat → Op V → Prop}
    [∀ w tid op, Decidable (rule w tid op)] (w : World V) (event : Event V) :
    Decidable (event.Keeps rule w) :=
  match event with
  | .scx tid op => inferInstanceAs (Decidable (rule w tid op))
  | .llx _ _ _ => .isTrue trivial
  | .move _ => .isTrue trivial

def emptyBody : Body Nat := ⟨0, 0, (0, 0), 0, fun _ => 0, fun _ => false, fun _ => .init⟩

-- Every field holds 7.
def sevens : World Nat := initial (fun _ _ => 7) emptyBody

def replace (oldVal : Nat) : Op Nat := ⟨[⟨0, true, .init⟩], 0, 0, oldVal, 9⟩

-- Thread 0 freezes the node; thread 1 finds it so and helps to the end, then finds it finalized.
def helpedRun : List (Event Nat) :=
  .llx 0 0 1 :: List.replicate 7 (.move 0) ++ .scx 0 (replace 7) :: List.replicate 13 (.move 0) ++
    .llx 1 0 1 :: List.replicate 21 (.move 1) ++ .llx 1 0 1 :: List.replicate 4
      (.move 1) ++ List.replicate 8 (.move 0)

theorem helped_scx_atomic :
    ∃ w, Run (step 1 emptyBody fun _ => 0) (fun w event => event.Keeps (Current 1) w) sevens
      helpedRun w ∧
    ∃ r, w.record (.desc 0 3) = some r ∧ r.returned = some true ∧ w.word 0 0 = 9 ∧ w.marked 0 =
      true ∧ Outcome w (.desc 0 3) r := by
  have replayed : (replay (step 1 emptyBody fun _ => 0) (fun w event => event.Keeps (Current 1) w)
    helpedRun sevens).map
      (fun w => ((w.record (.desc 0 3)).map Record.returned, w.word 0 0, w.marked 0)) =
      some (some (some true), 9, true) := by
    decide +kernel
  obtain ⟨w, last, facts⟩ := Option.map_eq_some_iff.mp replayed
  have run := run_of_replay helpedRun last
  obtain ⟨record, word, marked⟩ : (w.record (.desc 0 3)).map Record.returned = some (some true) ∧
    w.word 0 0 = 9 ∧ w.marked 0 = true := by
    simpa using facts
  obtain ⟨r, here, returned⟩ := Option.map_eq_some_iff.mp record
  exact ⟨w, run, r, here, returned, word, marked,
    (scx_atomic 1 (fun _ _ => 7) emptyBody (fun _ => 0) run).1 _ r here⟩

-- The field does not hold 5.
def staleRun : List (Event Nat) :=
  .llx 0 0 1 :: List.replicate 7 (.move 0) ++ .scx 0 (replace 5) :: List.replicate 23 (.move 0)

/-- With any other oldVal scxExecute finalizes its nodes, changes nothing and returns true. -/
theorem stale_scx_returns_true :
    ∃ w, Run (step 1 emptyBody fun _ => 0) (fun w event => event.Keeps (Linked 1) w) sevens
      staleRun w ∧
    ∃ r, w.record (.desc 0 3) = some r ∧ r.returned = some true ∧ r.updates = [] ∧ w.word 0 0 = 7 ∧
      w.marked 0 = true ∧
      ¬ Outcome w (.desc 0 3) r := by
  have replayed : (replay (step 1 emptyBody fun _ => 0) (fun w event => event.Keeps (Linked 1) w)
    staleRun sevens).map
      (fun w => ((w.record (.desc 0 3)).map fun r => (r.returned, r.updates.length), w.word 0 0,
        w.marked 0)) =
        some (some (some true, 0), 7, true) := by
    decide +kernel
  obtain ⟨w, last, facts⟩ := Option.map_eq_some_iff.mp replayed
  have run := run_of_replay staleRun last
  obtain ⟨record, word, marked⟩ :
    ((w.record (.desc 0 3)).map fun r => (r.returned, r.updates.length)) = some (some true, 0) ∧
      w.word 0 0 = 7 ∧ w.marked 0 = true := by
    simpa using facts
  obtain ⟨r, here, same⟩ := Option.map_eq_some_iff.mp record
  obtain ⟨returned, length⟩ := Prod.mk.inj same
  have none_ : r.updates = [] := List.length_eq_zero_iff.mp length
  refine ⟨w, run, r, here, returned, none_, word, marked, fun outcome => ?_⟩
  obtain ⟨m, one⟩ := (outcome.exact true returned).mp rfl
  rw [none_] at one
  cases one

end SetBench.Scx
