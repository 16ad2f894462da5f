import SetBench.WriterSteps

/-! What the version chain gives its users: snapshot reads return the last store at
or below their stamp, a returned value is already persistent, and done_stamp is low
enough for both. -/
namespace SetBench.VersionedPtr

open SetBench.Transition

variable {workers : Nat} {before after : State workers}

/-- The abstract answer of a snapshot: the last of the stores so far whose stamp is at
most the local stamp. A store that has no stamp yet does not count. -/
def State.lastStore (state : State workers) (local_ : Nat) : Option Ptr :=
  (state.stores.filter fun new => atMost (state.stampAt new) local_).getLast?

theorem getLast_filter {α : Type} (items : List α) (keep : α → Bool) {index : Nat} {item : α}
    (here : items[index]? = some item) (kept : keep item = true)
    (later : ∀ (place : Nat) other, index < place → items[place]? = some other →
      keep other = false) :
    (items.filter keep).getLast? = some item := by
  induction items generalizing index with
  | nil => cases here
  | cons head rest ih =>
      cases index with
      | zero =>
          have empty : rest.filter keep = [] := by
            rw [List.filter_eq_nil_iff]
            intro other member
            obtain ⟨place, bound, same⟩ := List.mem_iff_getElem.mp member
            have gone := later (place + 1) other (by omega) (by simp [same, bound])
            simp [gone]
          cases here
          simp [kept, empty]
      | succ index =>
          have tail := @ih index here fun place other beyond present =>
            later (place + 1) other (by omega) present
          rw [List.filter_cons]
          split
          · rw [List.getLast?_cons, tail]
            rfl
          · exact tail

theorem advance_versions {id : Fin workers} (stepped : advance before id = some after) :
    before.versions <+: after.versions := by
  have stamping {ptr : Ptr} {place : StampPc} {resume : StampPc → Pc} {rest : Pc}
      (stepped : stampStep before id ptr place resume rest = some after) :
      after.versions = before.versions := by
    unfold stampStep at stepped
    split at stepped
    · cases stepped
      rfl
    · split at stepped
      · cases stepped; rfl
      · obtain ⟨epoch, _, rfl⟩ := Option.map_eq_some_iff.mp stepped
        rfl
      · cases stepped
      · cases stepped; rfl
      · cases stepped; rfl
      · split at stepped <;> cases stepped <;> rfl
  cases pc : before.pc id with
  | idle =>
      simp only [advance, pc] at stepped
      cases stepped
  | stamping snapshot head place | stampNew new place =>
      simp only [advance, pc] at stepped
      rw [stamping stepped]
  | camExchange new old | againExchange new =>
      simp only [advance, pc] at stepped
      split at stepped <;> cases stepped
      · exact List.prefix_append _ _
      · exact List.prefix_refl _
  | spin snapshot | shortcutExchange head | pathExchange new | storeNext new old =>
      simp only [advance, pc] at stepped
      split at stepped <;> cases stepped <;> exact List.prefix_refl _
  | chase snapshot head =>
      simp only [advance, pc] at stepped
      split at stepped
      · cases stepped
        exact List.prefix_refl _
      · split at stepped <;> cases stepped <;> exact List.prefix_refl _
  | _ =>
      simp only [advance, pc] at stepped
      cases stepped
      exact List.prefix_refl _

theorem step_versions (event : Event workers) (stepped : step before event = some after) :
    before.versions <+: after.versions := by
  cases event with
  | epoch event =>
      simp only [step, Option.ite_none_right_eq_some] at stepped
      obtain ⟨epoch, _, rfl⟩ := Option.map_eq_some_iff.mp stepped.2
      exact List.prefix_refl _
  | load id =>
      simp only [step, Option.ite_none_right_eq_some] at stepped
      obtain ⟨_, ⟨⟩⟩ := stepped
      exact List.prefix_refl _
  | store id null =>
      simp only [step, Option.ite_none_right_eq_some] at stepped
      obtain ⟨_, ⟨⟩⟩ := stepped
      exact List.prefix_refl _
  | advance id => exact advance_versions stepped
  | returnStamp id stamp =>
      simp only [step] at stepped
      split at stepped
      · obtain ⟨epoch, _, rfl⟩ := Option.map_eq_some_iff.mp stepped
        exact List.prefix_refl _
      · obtain ⟨epoch, _, rfl⟩ := Option.map_eq_some_iff.mp stepped
        exact List.prefix_refl _
      · cases stepped

section Runs

variable {clock : Nat} {stamp : Option Nat} {next : Nat → Word} {events : List (Event workers)}
  {state : State workers}

theorem run_first (run : Run step callersAnnounced (initial clock stamp next) events state) :
    state.versions[0]? = some (initial clock stamp next : State workers).word.ptr := by
  have reached : (initial clock stamp next : State workers).versions <+: state.versions :=
    run_invariant (fun last => (initial clock stamp next : State workers).versions <+:
      last.versions)
      (List.prefix_refl _) (fun _ event _ held _ stepped => held.trans
        (step_versions event stepped)) run
  obtain ⟨rest, same⟩ := reached
  rw [← same]
  rfl

-- A store in progress that has not been linked yet has no stamp either.
theorem stores_versions (inv : Inv state) : state.stores = state.versions.tail ∨
    ∃ new, state.stores = state.versions.tail ++ [new] ∧ state.stampAt new = none := by
  have started {new : Ptr} (fresh : Fresh state new) : state.stores = state.versions.tail ∨
      ∃ new, state.stores = state.versions.tail ++ [new] ∧ state.stampAt new = none := by
    obtain ⟨object, is, _, unstamped, _, stores⟩ := fresh
    exact Or.inr ⟨new, stores, by simp [State.stampAt, is, unstamped]⟩
  cases locked : state.writer with
  | none => exact Or.inl (inv.free locked).2
  | some writer =>
      have held := inv.writer writer locked
      cases pc : state.pc writer <;> simp only [pc, WriterInv] at held
      case storeLoad => exact started held.1
      case storeNext => exact started held.1
      case camLoad => exact started held.1
      case camExchange => exact started held.1
      case recheck =>
        exact held.2.elim (fun pending => started pending.1) fun linked => Or.inl linked.1.2.2.1
      case againLoad => exact started held.1
      case againExchange => exact started held.1
      case stampNew => exact Or.inl held.1.1.2.2.1
      case pathStamp => exact Or.inl held.1.2.2.1
      case pathDone => exact Or.inl held.1.1.2.2.1
      case flush => exact Or.inl held.2.1.2.2.1
      case clear => exact Or.inl held.2.1.2.2.1

theorem lastStore_tail (inv : Inv state) (local_ : Nat) : state.lastStore local_ =
    (state.versions.tail.filter fun new => atMost (state.stampAt new) local_).getLast? := by
  rcases stores_versions inv with same | ⟨new, same, unstamped⟩
  · rw [State.lastStore, same]
  · simp [State.lastStore, same, List.filter_append, unstamped, atMost]

theorem stampAt_stored (inv : Inv state) {index : Nat} {ptr : Ptr}
    (present : state.versions[index + 1]? = some ptr) : state.stampAt ptr = state.stampOf ptr := by
  cases ptr with
  | null => exact absurd rfl (inv.history.stored index _ present)
  | node id | link id => rfl

theorem got_lastStore (inv : Inv state) {local_ source : Nat} {value : Option Nat} {first : Ptr}
    (oldest : state.versions[0]? = some first) (got : Got state (some local_) source value) :
    value = ((state.lastStore local_).getD first).value := by
  obtain ⟨ptr, present, same, rest⟩ := got
  obtain ⟨_, later, reached⟩ := rest local_ rfl
  have shape : ∀ index : Nat, state.versions.tail[index]? = state.versions[index + 1]? := by
    intro index
    cases state.versions with
    | nil => rfl
    | cons head rest => rfl
  have beyond (place : Nat) (other : Ptr) (above : source < place + 1)
      (stored : state.versions.tail[place]? = some other) : atMost (state.stampAt other) local_ =
      false := by
    rw [shape] at stored
    rw [stampAt_stored inv stored]
    cases known : state.stampOf other with
    | none => rfl
    | some value =>
        have := (later _ other above stored).1 value known
        simp only [atMost, decide_eq_false_iff_not]
        omega
  rw [lastStore_tail inv]
  cases source with
  | zero =>
      have empty : (state.versions.tail.filter fun new => atMost (state.stampAt new) local_) =
        [] := by
        rw [List.filter_eq_nil_iff]
        intro other member
        obtain ⟨place, bound, here⟩ := List.mem_iff_getElem.mp member
        rw [beyond place other (by omega) (by rw [List.getElem?_eq_getElem bound, here])]
        simp
      rw [oldest] at present
      cases present
      rw [empty, ← same]
      rfl
  | succ index =>
      obtain ⟨value, stamped, bound⟩ := reached.resolve_left (by omega)
      have found := getLast_filter state.versions.tail
        (fun new => atMost (state.stampAt new) local_)
        (by rw [shape]; exact present)
        (by rw [stampAt_stored inv present, stamped]; simpa [atMost] using bound)
        fun place other above stored => beyond place other (by omega) stored
      rw [found, ← same]
      rfl

theorem stamps_increase (history : History state) {i : Nat} {earlier : Ptr}
    (present : state.versions[i]? = some earlier) (gap : Nat) {later : Ptr} {second : Nat}
    (beyond : state.versions[i + gap + 1]? = some later)
    (stamped : state.stampOf later = some second) :
    ∃ first, state.stampOf earlier = some first ∧ first < second := by
  induction gap generalizing later second with
  | zero =>
      obtain ⟨first, known, bound⟩ := history.stamped i earlier later present beyond
      exact ⟨first, known, Nat.lt_of_le_of_lt bound (history.above i later second beyond stamped)⟩
  | succ gap ih =>
      have inside : i + gap + 1 < state.versions.length := by
        have := (List.getElem?_eq_some_iff.mp beyond).1
        omega
      have middle := List.getElem?_eq_getElem inside
      obtain ⟨between, known, bound⟩ := history.stamped _ _ later middle beyond
      obtain ⟨first, found, below⟩ := ih middle known
      have above := history.above _ later second beyond stamped
      exact ⟨first, found, by omega⟩

theorem stored_version (inv : Inv state) {index : Nat} {new : Ptr} {value : Nat}
    (present : state.stores[index]? = some new) (stamped : state.stampAt new = some value) :
    state.versions[index + 1]? = some new := by
  have tail : state.versions.tail[index]? = some new := by
    rcases stores_versions inv with same | ⟨pending, same, unstamped⟩
    · rw [← same]; exact present
    · rw [same, List.getElem?_append] at present
      split at present
      · exact present
      · have member := List.mem_of_getElem? present
        rw [List.mem_singleton] at member
        subst member
        rw [unstamped] at stamped
        cases stamped
  cases versions : state.versions with
  | nil =>
      rw [versions] at tail
      cases tail
  | cons head rest =>
      rw [versions] at tail
      exact tail

/-- Every finished snapshot read returned the value of the last store at or below its
stamp, and still does so for every later state of the run; while no store is in
progress, every store started so far is linked, stamped in order, and the word
stands for the last of them. -/
theorem snapshot_correct (past : ∀ value, stamp = some value → value ≤ clock)
    (run : Run step callersAnnounced (initial clock stamp next) events state) :
    (∀ read ∈ state.reads, ∀ local_, read.snapshot = some local_ → read.value =
      ((state.lastStore local_).getD (initial clock stamp next : State workers).word.ptr).value) ∧
    (state.writer = none →
      state.versions = (initial clock stamp next : State workers).word.ptr :: state.stores ∧
      Shows state state.word state.stores.length) ∧
    ∀ (i j : Nat) earlier later, i < j → state.stores[i]? = some earlier → state.stores[j]? =
      some later →
      ∀ second, state.stampAt later = some second → ∃ first, state.stampAt earlier = some first ∧
        first < second := by
  have inv := run_inv past run
  have oldest := run_first run
  refine ⟨?_, ?_, ?_⟩
  · intro read member local_ taken
    have got := (inv.reads read member).1
    rw [taken] at got
    exact got_lastStore inv oldest got
  · intro unlocked
    obtain ⟨⟨shown, flushed, _⟩, stores⟩ := inv.free unlocked
    cases versions : state.versions with
    | nil =>
        rw [versions] at oldest
        cases oldest
    | cons head rest =>
        rw [versions] at oldest stores shown
        cases oldest
        exact ⟨by rw [stores]; rfl, by rw [stores]; exact shown⟩
  · intro i j earlier later before here there second stamped
    have last := stored_version inv there stamped
    have stamp_ := stampAt_stored inv last
    rw [stamp_] at stamped
    obtain ⟨gap, shape⟩ : ∃ gap, j = i + gap + 1 := ⟨j - i - 1, by omega⟩
    -- Everything before a linked store is linked.
    have first : state.versions[i + 1]? = some earlier := by
      have bound := (List.getElem?_eq_some_iff.mp last).1
      rcases stores_versions inv with same | ⟨pending, same, _⟩
      · rw [same, List.getElem?_tail] at here
        exact here
      · rw [same, List.getElem?_append_left (by rw [List.length_tail]; omega),
          List.getElem?_tail] at here
        exact here
    obtain ⟨value, known, below⟩ := stamps_increase inv.history first gap
      (by rw [shape] at last; rw [show i + 1 + gap + 1 = i + gap + 1 + 1 by omega]; exact last)
      stamped
    exact ⟨value, by rw [stampAt_stored inv first]; exact known, below⟩

-- Thread 0 replaces the first node by a null link with stamp 6.
def announced (id : Fin 2) : List (Event 2) :=
  .epoch (.enter id) :: List.replicate 3 (.epoch (.announceStep id))

def nullStored : List (Event 2) :=
  .store 0 true :: List.replicate 6 (.advance 0) ++ [.epoch (.tick 2), .returnStamp 0 6] ++
    List.replicate 7 (.advance 0)

def oneNode : State 2 := initial 5 (some 1) fun _ => clean .null

def readPast : List (Event 2) :=
  announced 0 ++ announced 1 ++ [.epoch (.openSnapshot 1)] ++ nullStored ++
    .load 1 :: List.replicate 5 (.advance 1)

theorem read_past_replay :
    (replay step callersAnnounced readPast oneNode).map (fun state => (state.reads, state.stores)) =
    some ([⟨some 5, 0, some 0, marked (.link 1)⟩], [.link 1]) := by decide +kernel

theorem read_past_snapshot : ∃ state : State 2, Run step callersAnnounced oneNode readPast state ∧
    state.stores = [.link 1] ∧ ((state.lastStore 5).getD (.node 0)).value = some 0 := by
  obtain ⟨state, replayed, shape⟩ := Option.map_eq_some_iff.mp read_past_replay
  obtain ⟨reads, stores⟩ := Prod.mk.inj shape
  have run := run_of_replay readPast replayed
  refine ⟨state, run, stores, ?_⟩
  have past : ∀ value, some 1 = some value → value ≤ 5 := by
    rintro _ ⟨⟩
    decide
  have correct := (snapshot_correct past run).1 ⟨some 5, 0, some 0, marked (.link 1)⟩
    (by simp [reads]) 5 rfl
  exact correct.symm

/-- A load never returns ahead of the persistent copy: the version it read is the one
the persistent word denotes at the return, or an earlier one. -/
theorem persist_before_read (past : ∀ value, stamp = some value → value ≤ clock)
    (run : Run step callersAnnounced (initial clock stamp next) events state) :
    ∀ read ∈ state.reads, ∃ (index : Nat) (ptr : Ptr), state.versions[read.source]? = some ptr ∧
      ptr.value = read.value ∧ read.source ≤ index ∧
      state.versions[index]? = some read.persistent.ptr := by
  intro read member
  obtain ⟨⟨ptr, present, same, _⟩, index, bound, flushed⟩ := (run_inv past run).reads read member
  exact ⟨index, ptr, present, same, bound, flushed⟩

def readNull : List (Event 2) :=
  announced 0 ++ nullStored ++ .load 0 :: List.replicate 5 (.advance 0)

theorem read_null_replay :
    (replay step callersAnnounced readNull oneNode).map
    (fun state => (state.reads, state.versions)) =
    some ([⟨none, 1, none, marked (.link 1)⟩], [.node 0, .link 1]) := by decide +kernel

theorem read_null_persistent : ∃ state : State 2, Run step callersAnnounced oneNode readNull state ∧
    state.reads = [⟨none, 1, none, marked (.link 1)⟩] ∧
    ∃ index : Nat, 1 ≤ index ∧ state.versions[index]? = some (.link 1) := by
  obtain ⟨state, replayed, shape⟩ := Option.map_eq_some_iff.mp read_null_replay
  obtain ⟨reads, versions⟩ := Prod.mk.inj shape
  have run := run_of_replay readNull replayed
  have past : ∀ value, some 1 = some value → value ≤ 5 := by
    rintro _ ⟨⟩
    decide
  obtain ⟨index, ptr, _, _, bound, present⟩ :=
    persist_before_read past run ⟨none, 1, none, marked (.link 1)⟩ (by simp [reads])
  exact ⟨state, run, reads, index, bound, present⟩

/-- done_stamp stays below every open snapshot and every stamp taken since its thread
announced. So a shortcut drops only a link that every open snapshot is past, the write
path never shortcuts, and an unmarked word is always a flushed one. -/
theorem done_stamp_safety (past : ∀ value, stamp = some value → value ≤ clock)
    (run : Run step callersAnnounced (initial clock stamp next) events state) :
    (∀ id local_, (state.epoch.thread id).localStamp = some local_ →
      state.epoch.doneStamp ≤ local_) ∧
    (∀ id, (state.epoch.thread id).announcing = .inside →
      ∀ taken ∈ (state.epoch.thread id).taken, state.epoch.doneStamp < taken) ∧
    (∀ id head after, state.pc id = .shortcutExchange head → advance state id = some after →
      after.word ≠ state.word → ∃ object dropped, state.word = clean (.link object) ∧
        state.stamp object = some dropped ∧
        ∀ other local_, (state.epoch.thread other).localStamp = some local_ → dropped ≤ local_) ∧
    (∀ id new, state.pc id ≠ .pathLoad new ∧ state.pc id ≠ .pathExchange new) ∧
    (state.word.unpersisted = false →
      state.versions[state.versions.length - 1]? = some state.persistent.ptr) := by
  have inv := run_inv past run
  refine ⟨?_, ?_, ?_, ?_, ?_⟩
  · exact fun id local_ opened => (Epoch.done_le_snapshot inv.epoch opened).1
  · exact fun id inside taken member => Epoch.done_lt_taken inv.epoch inside member
  · intro id head after pc stepped changed
    have own := inv.reader id
    rw [pc] at own
    obtain ⟨reading, object, dropped, link, stamped, old⟩ := own
    simp only [advance, pc] at stepped
    split at stepped <;> cases stepped
    · rename_i here
      refine ⟨object, dropped, ?_, stamped, old.2⟩
      rw [here, clean, ← link, ← reading.shown.1]
    · exact absurd rfl changed
  · intro id new
    have never (held : storing (state.pc id) = true) := inv.writer id (inv.owner id held)
    constructor <;> intro pc <;> simp [pc, storing, WriterInv] at never
  · intro unmarked
    have flushed := (unmarked_flushed inv unmarked).2
    have bound := (List.getElem?_eq_some_iff.mp inv.durable).1
    rw [show state.versions.length - 1 = state.durable by omega]
    exact inv.durable

def epochAdvanced : List (Event 2) :=
  .epoch (.beginUpdate 0) :: List.replicate 10 (.epoch (.updateStep 0))

-- Two epochs after the store done_stamp is 7 and the next load may drop the link.
def shortcutReady : List (Event 2) :=
  announced 0 ++ nullStored ++ epochAdvanced ++ .epoch (.unannounce 0) :: announced
    0 ++ epochAdvanced ++
    .load 0 :: List.replicate 5 (.advance 0)

theorem shortcut_ready_replay :
    (replay step callersAnnounced shortcutReady oneNode).map (fun state =>
      (state.pc 0, state.word, (advance state 0).map State.word, state.epoch.doneStamp)) =
    some (.shortcutExchange (clean (.link 1)), clean (.link 1), some (clean .null), 7) := by
      decide +kernel

theorem shortcut_ready_safe :
    ∃ state after : State 2, Run step callersAnnounced oneNode shortcutReady state ∧
    advance state 0 = some after ∧ after.word ≠ state.word ∧
    ∃ object dropped, state.word = clean (.link object) ∧ state.stamp object = some dropped ∧
      ∀ other local_, (state.epoch.thread other).localStamp = some local_ → dropped ≤ local_ := by
  obtain ⟨state, replayed, shape⟩ := Option.map_eq_some_iff.mp shortcut_ready_replay
  simp only [Prod.mk.injEq] at shape
  obtain ⟨pc, word, advanced, _⟩ := shape
  obtain ⟨after, stepped, null⟩ := Option.map_eq_some_iff.mp advanced
  have run := run_of_replay shortcutReady replayed
  have past : ∀ value, some 1 = some value → value ≤ 5 := by
    rintro _ ⟨⟩
    decide
  have changed : after.word ≠ state.word := by
    rw [word, null]
    decide
  exact ⟨state, after, run, stepped, changed,
    (done_stamp_safety past run).2.2.1 0 _ after pc stepped changed⟩

end Runs

end SetBench.VersionedPtr
