import SetBench.VersionChain

/-! Every step keeps the version chain. A step moves one thread; all other readers
only see the state grow, and the writer only sees readers stamp versions that were
flushed before its own or shortcut the link its own version replaces. -/
namespace SetBench.VersionedPtr

open SetBench.Transition

variable {workers : Nat} {before after : State workers}

theorem grows_of_same (epoch : after.epoch = before.epoch)
    (versions : after.versions = before.versions) (linked : after.linked = before.linked)
    (stamp : after.stamp = before.stamp) : Grows before after := by
  have linkedOf (ptr : Ptr) : after.linkedOf ptr = before.linkedOf ptr := by
    cases ptr <;> simp [State.linkedOf, linked]
  have stampOf (ptr : Ptr) : after.stampOf ptr = before.stampOf ptr := by
    cases ptr <;> simp [State.stampOf, stamp]
  refine ⟨by rw [epoch], fun id snapshot opened => Or.inl (epoch ▸ opened),
    fun _ _ present => versions ▸ present, fun _ _ present => Or.inl (versions ▸ present),
    fun _ ptr _ => linkedOf ptr, fun _ _ known => stamp ▸ known, fun _ ptr _ _ none_ some_ => ?_⟩
  rw [stampOf, none_] at some_
  cases some_

theorem Steady.keep (steady : Steady before) (growth : Grows before after)
    (word : after.word = before.word) (versions : after.versions = before.versions)
    (durable : after.durable = before.durable) : Steady after := by
  obtain ⟨shown, flushed, stamped⟩ := steady
  refine ⟨?_, by rw [durable, versions]; exact flushed, ?_⟩
  · rw [word, versions]; exact shown.grow growth
  · rw [versions]
    intro ptr present none_
    obtain ⟨stamp, known⟩ := Option.ne_none_iff_exists'.mp (stamped ptr present)
    rw [growth.stampOf known] at none_
    cases none_

-- What the writer's part of the state looks like to a step of somebody else.
structure Undisturbed (before after : State workers) (id : Fin workers) : Prop where
  growth : Grows before after
  word : after.word = before.word
  next : after.next = before.next
  versions : after.versions = before.versions
  stores : after.stores = before.stores
  durable : after.durable = before.durable
  allocated : after.allocated = before.allocated
  call : (after.epoch.thread id).stampCall = (before.epoch.thread id).stampCall
  taken : (before.epoch.thread id).taken ⊆ (after.epoch.thread id).taken
  stamped : ∀ object, before.stamp object = none → after.stamp object ≠ none →
    ∃ (index : Nat) (ptr : Ptr), index ≤ before.durable ∧ before.versions[index]? = some ptr ∧
      ptr.object = some object

theorem Fresh.keep {id : Fin workers} {new : Ptr} (fresh : Fresh before new)
    (same : Undisturbed before after id) : Fresh after new := by
  obtain ⟨object, is, known, unstamped, absent, stores⟩ := fresh
  refine ⟨object, is, by rw [same.allocated]; exact known, ?_, by rw [same.versions]; exact absent,
    by rw [same.stores, same.versions]; exact stores⟩
  by_contra stamped
  obtain ⟨index, ptr, _, present, matching⟩ := same.stamped object unstamped stamped
  exact absent index ptr present matching

theorem Tracks.keep {id : Fin workers} {old : Word} (tracks : Tracks before old)
    (same : Undisturbed before after id) : Tracks after old := by
  refine ⟨?_, by rw [same.word]; exact tracks.2⟩
  rw [same.versions]
  exact tracks.1.grow same.growth

theorem Pending.keep {id : Fin workers} {new : Ptr} (pending : Pending before new)
    (same : Undisturbed before after id) : Pending after new := by
  obtain ⟨fresh, steady, null, chained⟩ := pending
  refine ⟨fresh.keep same, steady.keep same.growth same.word same.versions same.durable,
    same.word.trans null, ?_⟩
  rw [same.next, same.versions]
  exact fun object is => (chained object is).grow same.growth

theorem Linked.keep {id : Fin workers} {new : Ptr} (linked : Linked before new)
    (same : Undisturbed before after id) : Linked after new := by
  obtain ⟨word, last, stores, length⟩ := linked
  refine ⟨same.word.trans word, ?_, ?_, ?_⟩
  · rw [same.versions]; exact last
  · rw [same.stores, same.versions]; exact stores
  · rw [same.versions]; exact length

theorem Linked.object {new : Ptr} (linked : Linked before new) (history : History before) :
    ∃ object, new.object = some object := by
  obtain ⟨_, last, _, length⟩ := linked
  have shape : before.versions.length - 1 = (before.versions.length - 2) + 1 := by omega
  rw [shape] at last
  cases new with
  | null => exact absurd rfl (history.stored _ _ last)
  | node id => exact ⟨id, rfl⟩
  | link id => exact ⟨id, rfl⟩

theorem stampOf_object {state : State workers} {ptr : Ptr} {object : Nat}
    (is : ptr.object = some object) : state.stampOf ptr = state.stamp object := by
  cases ptr <;> simp_all [Ptr.object, State.stampOf]

theorem linkedOf_object {state : State workers} {ptr : Ptr} {object : Nat}
    (is : ptr.object = some object) : state.linkedOf ptr = state.linked object := by
  cases ptr <;> simp_all [Ptr.object, State.linkedOf]

theorem Unstamped.keep {id : Fin workers} {new : Ptr} (unstamped : Unstamped before new)
    (history : History before) (same : Undisturbed before after id) : Unstamped after new := by
  obtain ⟨linked, flushed, none_⟩ := unstamped
  refine ⟨linked.keep same, by rw [same.durable, same.versions]; exact flushed, ?_⟩
  obtain ⟨object, is⟩ := linked.object history
  rw [stampOf_object is] at none_ ⊢
  by_contra stamped
  obtain ⟨index, ptr, bound, present, matching⟩ := same.stamped object none_ stamped
  have := history.distinct _ _ _ _ _ present linked.2.1 matching is
  omega

theorem Signed.keep {id : Fin workers} {new : Ptr} (signed : Signed before id new)
    (same : Undisturbed before after id) : Signed after id new := by
  obtain ⟨linked, flushed, stamp, stamped, member⟩ := signed
  exact ⟨linked.keep same, by rw [same.durable, same.versions]; exact flushed, stamp,
    same.growth.stampOf stamped, same.taken member⟩

theorem WriterInv.keep {id : Fin workers} {pc : Pc} (writer : WriterInv before id pc)
    (history : History before) (same : Undisturbed before after id) : WriterInv after id pc := by
  have steady (held : Steady before) : Steady after :=
    held.keep same.growth same.word same.versions same.durable
  cases pc with
  | storeLoad new => exact ⟨writer.1.keep same, steady writer.2⟩
  | storeNext new old => exact ⟨writer.1.keep same, steady writer.2.1, writer.2.2.keep same⟩
  | camLoad new old | camExchange new old =>
      refine ⟨writer.1.keep same, steady writer.2.1, writer.2.2.1.keep same, ?_⟩
      intro object is
      rw [same.next]
      exact writer.2.2.2 object is
  | recheck new old =>
      exact ⟨writer.1, writer.2.imp (·.keep same) (·.keep history same)⟩
  | againLoad new | againExchange new => exact Pending.keep writer same
  | stampNew new place =>
      exact ⟨writer.1.keep history same,
        writer.2.keep same.growth.clock same.call same.taken
          (same.growth.linked _ _ writer.1.1.2.1)⟩
  | pathStamp new => exact Signed.keep writer same
  | pathDone new stamp =>
      refine ⟨writer.1.keep same, ?_⟩
      obtain ⟨_, _, value, stamped, _⟩ := writer.1
      rw [writer.2, stamped, same.growth.stampOf stamped]
  | flush new shortcutted => exact ⟨writer.1, writer.2.keep same⟩
  | clear new shortcutted =>
      obtain ⟨cleared, linked, flushed, stamped⟩ := writer
      refine ⟨cleared, linked.keep same, by rw [same.durable, same.versions]; exact flushed, ?_⟩
      obtain ⟨stamp, known⟩ := Option.ne_none_iff_exists'.mp stamped
      rw [same.growth.stampOf known]
      simp
  | _ => exact writer.elim

/-- Thread `id` moves and every other reader only sees the state grow. -/
theorem assemble (inv : Inv before) (id : Fin workers) (growth : Grows before after)
    (epoch : Epoch.Invariant after.epoch)
    (threads : ∀ other, other ≠ id → after.epoch.thread other = before.epoch.thread other)
    (pcs : ∀ other, other ≠ id → after.pc other = before.pc other)
    (sources : ∀ other, other ≠ id → after.source other = before.source other)
    (durable : before.durable ≤ after.durable) (history : History after)
    (unused : ∀ object, after.allocated ≤ object → after.stamp object = none)
    (persistent : after.versions[after.durable]? = some after.persistent.ptr)
    (free : after.writer = none → Steady after ∧ after.stores = after.versions.tail)
    (writer : ∀ other, after.writer = some other → WriterInv after other (after.pc other))
    (owner : ∀ other, storing (after.pc other) → after.writer = some other)
    (reader : ReaderInv after id (after.pc id))
    (reads : ∀ read ∈ after.reads, read ∈ before.reads ∨ Recorded after read)
    (inside : after.pc id ≠ .idle → (after.epoch.thread id).announcing = .inside) : Inv after := by
  refine ⟨epoch, history, unused, persistent, free, writer, owner, ?_, ?_, ?_⟩
  · intro other
    by_cases here : other = id
    · exact here ▸ reader
    · rw [pcs other here]
      have thread := threads other here
      exact (inv.reader other).keep inv.epoch ⟨growth, by rw [thread], by rw [thread],
        by rw [thread]; exact List.Subset.refl _, sources other here, durable⟩
  · intro read member
    rcases reads read member with old | new
    · exact (inv.reads read old).grow growth
    · exact new
  · intro other busy
    by_cases here : other = id
    · subst here; exact inside busy
    · rw [threads other here]
      exact inv.inside other (by rwa [← pcs other here])


@[simp] theorem goto_self (state : State workers) (id : Fin workers) (pc : Pc) :
    (state.goto id pc).pc id = pc := Function.update_self ..

theorem goto_other (state : State workers) {id other : Fin workers} (pc : Pc)
    (different : other ≠ id) :
    (state.goto id pc).pc other = state.pc other := Function.update_of_ne different ..

-- A move of a reader that touches no shared word.
theorem reader_moves {state : State workers} (inv : Inv state) (id : Fin workers) (pc : Pc)
    (source : Fin workers → Nat) (reads : List Read)
    (calm : storing (state.pc id) = false) (still : storing pc = false)
    (sources : ∀ other, other ≠ id → source other = state.source other)
    (reader : ReaderInv { state.goto id pc with source, reads } id pc)
    (recorded : ∀ read ∈ reads, read ∈ state.reads ∨ Recorded state read)
    (inside : pc ≠ .idle → (state.epoch.thread id).announcing = .inside) :
    Inv { state.goto id pc with source, reads } := by
  have growth : Grows state { state.goto id pc with source, reads } := grows_of_same rfl rfl rfl rfl
  refine assemble inv id growth inv.epoch (fun _ _ => rfl)
    (fun _ different => goto_other _ _ different)
    sources (Nat.le_refl _) (inv.history.grow growth rfl rfl (Nat.le_refl _)) inv.unused inv.durable
      ?_ ?_ ?_ ?_ ?_ ?_
  · intro unlocked
    exact ⟨(inv.free unlocked).1.keep growth rfl rfl rfl, (inv.free unlocked).2⟩
  · intro other locked
    have held := inv.writer other locked
    have different : other ≠ id := by
      intro here
      subst here
      cases pc' : state.pc other <;> simp [pc', storing, WriterInv] at calm held
    simp only [goto_other _ _ different]
    exact held.keep inv.history ⟨growth, rfl, rfl, rfl, rfl, rfl, rfl, rfl, List.Subset.refl _,
      fun _ none_ some_ => absurd none_ some_⟩
  · intro other stores
    by_cases here : other = id
    · subst here
      simp only [goto_self, still] at stores
      cases stores
    · exact inv.owner other (by simpa only [goto_other _ _ here] using stores)
  · simpa only [goto_self] using reader
  · intro read member
    exact (recorded read member).imp_right fun held => held.grow growth
  · intro busy
    rw [goto_self] at busy
    exact inside busy

theorem reader_goto {state : State workers} (inv : Inv state) (id : Fin workers) (pc : Pc)
    (calm : storing (state.pc id) = false) (still : storing pc = false) (busy : state.pc id ≠ .idle)
    (reader : ReaderInv state id pc) : Inv (state.goto id pc) :=
  reader_moves inv id pc state.source state.reads calm still (fun _ _ => rfl)
    (reader.keep inv.epoch ⟨grows_of_same rfl rfl rfl rfl, rfl, rfl, List.Subset.refl _, rfl,
      Nat.le_refl _⟩)
    (fun _ member => Or.inl member) (fun _ => inv.inside id busy)

-- A move of the writer: its own part is restated, everything else only grows.
theorem writer_moves (inv : Inv before) (id : Fin workers) (locked : before.writer = some id)
    (growth : Grows before after) (same : after.epoch = before.epoch)
    (pcs : ∀ other, other ≠ id → after.pc other = before.pc other)
    (sources : after.source = before.source) (reads : after.reads = before.reads)
    (durable : before.durable ≤ after.durable) (history : History after)
    (unused : ∀ object, after.allocated ≤ object → after.stamp object = none)
    (persistent : after.versions[after.durable]? = some after.persistent.ptr)
    (still : after.writer = some id) (stores : storing (after.pc id) = true)
    (writer : WriterInv after id (after.pc id)) : Inv after := by
  refine assemble inv id growth (same ▸ inv.epoch) (fun _ _ => by rw [same]) pcs
    (fun _ _ => by rw [sources]) durable history unused persistent ?_ ?_ ?_ ?_ ?_ ?_
  · intro unlocked
    rw [still] at unlocked
    cases unlocked
  · intro other locked'
    rw [still] at locked'
    cases locked'
    exact writer
  · intro other storing'
    by_cases here : other = id
    · rw [still, here]
    · rw [pcs other here] at storing'
      have theirs := inv.owner other storing'
      rw [locked] at theirs
      cases theirs
      exact absurd rfl here
  · cases pc : after.pc id <;> simp [pc, storing] at stores <;> trivial
  · intro read member
    exact Or.inl (reads ▸ member)
  · intro _
    rw [same]
    apply inv.inside id
    intro idle
    have held := inv.writer id locked
    rw [idle] at held
    exact held

theorem writer_goto {state : State workers} (inv : Inv state) (id : Fin workers) (pc : Pc)
    (locked : state.writer = some id) (stores : storing pc = true)
    (writer : WriterInv state id pc) :
    Inv (state.goto id pc) := by
  have growth : Grows state (state.goto id pc) := grows_of_same rfl rfl rfl rfl
  refine writer_moves inv id locked growth rfl (fun _ different => goto_other _ _ different) rfl rfl
    (Nat.le_refl _) (inv.history.grow growth rfl rfl (Nat.le_refl _)) inv.unused inv.durable locked
    ?_ ?_
  · rw [goto_self]; exact stores
  · rw [goto_self]
    exact writer.keep inv.history ⟨growth, rfl, rfl, rfl, rfl, rfl, rfl, rfl, List.Subset.refl _,
      fun _ none_ some_ => absurd none_ some_⟩


theorem epoch_grows (event : Epoch.Event workers)
    (stepped : Epoch.step before.epoch event = some after.epoch)
    (versions : after.versions = before.versions) (linked : after.linked = before.linked)
    (stamp : after.stamp = before.stamp) : Grows before after := by
  obtain ⟨clock, -, -, moves⟩ := Epoch.step_moves event stepped
  have plain : Grows before { after with epoch := before.epoch } :=
    grows_of_same rfl versions linked stamp
  refine ⟨clock, fun id snapshot opened => ?_, plain.versions, plain.fresh, plain.linked,
    plain.stamp,
    fun index ptr value present none_ some_ =>
      ⟨(plain.stamped index ptr value present none_ some_).1,
        (plain.stamped index ptr value present none_ some_).2.trans clock⟩⟩
  rcases (moves id).snapshot with same | ⟨_, now⟩ | ⟨_, closed⟩
  · exact Or.inl (same ▸ opened)
  · rw [now] at opened
    cases opened
    exact Or.inr (Nat.le_refl _)
  · rw [closed] at opened
    cases opened

theorem stamp_grows {object stamp : Nat} (epoch : after.epoch = before.epoch)
    (versions : after.versions = before.versions) (linked : after.linked = before.linked)
    (stamps : after.stamp = Function.update before.stamp object (some stamp))
    (unset : before.stamp object = none) (above : before.linked object < stamp)
    (bound : stamp ≤ before.epoch.clock) : Grows before after := by
  have linkedOf (ptr : Ptr) : after.linkedOf ptr = before.linkedOf ptr := by
    cases ptr <;> simp [State.linkedOf, linked]
  refine ⟨by rw [epoch], fun id snapshot opened => Or.inl (epoch ▸ opened),
    fun _ _ present => versions ▸ present, fun _ _ present => Or.inl (versions ▸ present),
    fun _ ptr _ => linkedOf ptr, fun other value known => ?_, fun _ ptr value _ none_ some_ => ?_⟩
  · rw [stamps, Function.update_of_ne]
    · exact known
    · intro here
      rw [here, unset] at known
      cases known
  · cases is : ptr.object with
    | none => cases ptr <;> simp [Ptr.object, State.stampOf] at is none_
    | some mine =>
        rw [stampOf_object is] at none_ some_
        rw [linkedOf_object is, epoch]
        by_cases here : mine = object
        · subst here
          rw [stamps, Function.update_self] at some_
          cases some_
          exact ⟨above, bound⟩
        · rw [stamps, Function.update_of_ne here, none_] at some_
          cases some_

-- get_write_stamp starts or returns inside a set_stamp of thread `id`.
theorem stamp_call_inv {state : State workers} {epoch : Epoch.State workers} (inv : Inv state)
    (id : Fin workers) (pc : Pc) (event : Epoch.Event workers) (acts : Epoch.actor event = some id)
    (kept : Epoch.callersAnnounced state.epoch event) (stays : event ≠ .unannounce id)
    (stepped : Epoch.step state.epoch event = some epoch)
    (role : storing pc = storing (state.pc id)) (busy : state.pc id ≠ .idle)
    (reader : ReaderInv { state.goto id pc with epoch } id pc)
    (writer : state.writer = some id → WriterInv { state.goto id pc with epoch } id pc) :
    Inv { state.goto id pc with epoch } := by
  have growth : Grows state { state.goto id pc with epoch } := epoch_grows event stepped rfl rfl rfl
  obtain ⟨_, _, others, moves⟩ := Epoch.step_moves event stepped
  have same (other : Fin workers) (different : other ≠ id) : epoch.thread other =
    state.epoch.thread other := by
    apply (others other _).1
    rw [acts]
    intro here
    cases here
    exact different rfl
  refine assemble inv id growth (Epoch.step_invariant event inv.epoch kept stepped) same
    (fun _ different => goto_other _ _ different) (fun _ _ => rfl) (Nat.le_refl _)
    (inv.history.grow growth rfl rfl (Nat.le_refl _)) inv.unused inv.durable ?_ ?_ ?_ ?_ ?_ ?_
  · intro unlocked
    exact ⟨(inv.free unlocked).1.keep growth rfl rfl rfl, (inv.free unlocked).2⟩
  · intro other locked
    by_cases here : other = id
    · subst here
      rw [goto_self]
      exact writer locked
    · simp only [goto_other _ _ here]
      have thread := same other here
      exact (inv.writer other locked).keep inv.history ⟨growth, rfl, rfl, rfl, rfl, rfl, rfl,
        by rw [thread], by
          rw [thread]; exact List.Subset.refl _, fun _ none_ some_ => absurd none_ some_⟩
  · intro other stores
    by_cases here : other = id
    · subst here
      simp only [goto_self] at stores
      exact inv.owner other (by rwa [← role])
    · exact inv.owner other (by simpa only [goto_other _ _ here] using stores)
  · simpa only [goto_self] using reader
  · exact fun read member => Or.inl member
  · intro _
    exact ((moves id).stay (inv.inside id busy) stays).1

theorem Denotes.value {state : State workers} {ptr : Ptr} {index : Nat}
    (denotes : Denotes state ptr index) :
    ∃ version, state.versions[index]? = some version ∧ version.value = ptr.value := by
  rcases denotes with direct | ⟨rfl, object, stamp, link, _⟩
  · exact ⟨ptr, direct, rfl⟩
  · exact ⟨.link object, link, rfl⟩

theorem Denotes.direct {state : State workers} {ptr : Ptr} {index object : Nat}
    (denotes : Denotes state ptr index) (is : ptr.object = some object) :
    state.versions[index]? = some ptr := by
  rcases denotes with direct | ⟨rfl, _⟩
  · exact direct
  · cases is

theorem afterStamp_reader {state : State workers} {id : Fin workers} {snapshot : Option Nat}
    {head : Word} (reading : Reading state id snapshot head)
    (stamped : state.stampOf head.ptr ≠ none) :
    ReaderInv state id (afterStamp snapshot head) := by
  cases snapshot with
  | some local_ => exact ⟨reading, stamped⟩
  | none =>
      simp only [afterStamp]
      split
      · rename_i indirect
        exact ⟨reading, indirect⟩
      · obtain ⟨version, present, same⟩ := reading.shown.2.value
        exact ⟨⟨version, present, same, by simp⟩, reading.flushed⟩

theorem afterStamp_calm (snapshot : Option Nat) (head : Word) :
    storing (afterStamp snapshot head) = false := by
  cases snapshot with
  | some local_ => rfl
  | none => simp only [afterStamp]; split <;> rfl


-- The exchange of a set_stamp. A reader stamps a version that was flushed, so never
-- the one a writer is about to stamp itself.
theorem stamp_inv {state : State workers} (inv : Inv state) (id : Fin workers) (pc : Pc)
    (object stamp : Nat) (unset : state.stamp object = none) (known : object < state.allocated)
    (above : state.linked object < stamp) (bound : stamp ≤ state.epoch.clock)
    (role : storing pc = storing (state.pc id)) (busy : state.pc id ≠ .idle)
    (flushed : state.writer ≠ some id → ∃ (index : Nat) (ptr : Ptr), index ≤ state.durable ∧
      state.versions[index]? = some ptr ∧ ptr.object = some object)
    (reader : Grows state
      { state.goto id pc with stamp := Function.update state.stamp object (some stamp) } →
      ReaderInv { state.goto id pc with stamp := Function.update state.stamp object (some stamp) }
      id pc)
    (writer : state.writer = some id →
      WriterInv { state.goto id pc with stamp := Function.update state.stamp object (some stamp) }
      id pc) :
    Inv { state.goto id pc with stamp := Function.update state.stamp object (some stamp) } := by
  have growth : Grows state
      { state.goto id pc with stamp := Function.update state.stamp object (some stamp) } :=
    stamp_grows rfl rfl rfl rfl unset above bound
  refine assemble inv id growth inv.epoch (fun _ _ => rfl)
    (fun _ different => goto_other _ _ different)
    (fun _ _ => rfl) (Nat.le_refl _) (inv.history.grow growth rfl rfl (Nat.le_refl _)) ?_
    inv.durable
    ?_ ?_ ?_ ?_ ?_ ?_
  · intro other beyond
    simp only [State.goto] at beyond
    simp only [Function.update_of_ne (show other ≠ object by omega)]
    exact inv.unused other beyond
  · intro unlocked
    exact ⟨(inv.free unlocked).1.keep growth rfl rfl rfl, (inv.free unlocked).2⟩
  · intro other locked
    by_cases here : other = id
    · subst here
      rw [goto_self]
      exact writer locked
    · simp only [goto_other _ _ here]
      refine (inv.writer other locked).keep inv.history ⟨growth, rfl, rfl, rfl, rfl, rfl, rfl, rfl,
        List.Subset.refl _, fun changed none_ some_ => ?_⟩
      have same : changed = object := by
        by_contra different
        simp only [Function.update_of_ne different] at some_
        exact some_ none_
      subst same
      apply flushed
      intro mine
      have theirs : state.writer = some other := locked
      rw [mine] at theirs
      cases theirs
      exact here rfl
  · intro other stores
    by_cases here : other = id
    · subst here
      simp only [goto_self] at stores
      exact inv.owner other (by rwa [← role])
    · exact inv.owner other (by simpa only [goto_other _ _ here] using stores)
  · simpa only [goto_self] using reader growth
  · exact fun read member => Or.inl member
  · intro _
    exact inv.inside id busy

theorem not_writer {state : State workers} (inv : Inv state) {id : Fin workers}
    (calm : storing (state.pc id) = false) : state.writer ≠ some id := by
  intro locked
  have held := inv.writer id locked
  cases pc : state.pc id <;> simp [pc, storing, WriterInv] at calm held

theorem linked_le_clock {state : State workers} (history : History state) {ptr : Ptr} {index : Nat}
    (denotes : Denotes state ptr index) : state.linkedOf ptr ≤ state.epoch.clock := by
  rcases denotes with direct | ⟨rfl, _⟩
  · exact (history.bound index ptr direct).1
  · exact Nat.zero_le _

theorem reader_stamping {id : Fin workers} {snapshot : Option Nat} {head : Word} {place : StampPc}
    (inv : Inv before) (pc : before.pc id = .stamping snapshot head place)
    (stepped : stampStep before id head.ptr place (.stamping snapshot head)
      (afterStamp snapshot head) = some after) : Inv after := by
  have own := inv.reader id
  rw [pc] at own
  obtain ⟨reading, placed⟩ := own
  have calm : storing (before.pc id) = false := by rw [pc]; rfl
  have busy : before.pc id ≠ .idle := by simp [pc]
  have leave (stamped : before.stampOf head.ptr ≠ none) :
    Inv (before.goto id (afterStamp snapshot head)) :=
    reader_goto inv id _ calm (afterStamp_calm _ _) busy (afterStamp_reader reading stamped)
  have resume (next : StampPc) (justified : Place before id head.ptr next) :
      Inv (before.goto id (.stamping snapshot head next)) :=
    reader_goto inv id _ calm rfl busy ⟨reading, justified⟩
  cases is : head.ptr.object with
  | none =>
      simp only [stampStep, is, Option.some.injEq] at stepped
      subst stepped
      apply leave
      cases ptr : head.ptr <;> simp [ptr, Ptr.object, State.stampOf] at is ⊢
  | some object =>
      have direct := reading.shown.2.direct is
      cases place with
      | test =>
          simp only [stampStep, is, Option.some.injEq] at stepped
          split at stepped <;> subst stepped
          · exact resume _ trivial
          · rename_i stamped
            exact leave (by rwa [stampOf_object is])
      | call =>
          simp only [stampStep, is] at stepped
          obtain ⟨epoch, called, rfl⟩ := Option.map_eq_some_iff.mp stepped
          have thread := Epoch.callWriteStamp_thread called
          refine stamp_call_inv inv id _ (.callWriteStamp id) rfl trivial (by simp) called
            (by rw [calm]; rfl) busy
            ⟨reading.keep inv.epoch (epoch_grows _ called rfl rfl rfl) ?_ rfl (Nat.le_refl _), ?_⟩
            fun locked => absurd locked (not_writer inv calm)
          · simp only [thread.2]
          · exact ⟨before.epoch.clock, by simp only [thread.2],
              linked_le_clock inv.history reading.shown.2⟩
      | wait => simp [stampStep, is] at stepped
      | retest stamp =>
          simp only [stampStep, is, Option.some.injEq] at stepped
          split at stepped <;> subst stepped
          · exact resume _ placed
          · rename_i stamped
            exact leave (by rwa [stampOf_object is])
      | load stamp =>
          simp only [stampStep, is, Option.some.injEq] at stepped
          split at stepped <;> subst stepped
          · exact resume _ placed
          · rename_i stamped
            exact leave (by rwa [stampOf_object is])
      | exchange stamp =>
          simp only [stampStep, is] at stepped
          split at stepped <;> simp only [Option.some.injEq] at stepped <;> subst stepped
          · rename_i unset
            obtain ⟨above, bound, _⟩ := placed
            rw [linkedOf_object is] at above
            refine stamp_inv inv id _ object stamp unset (inv.history.known _ _ _ direct is) above
              bound ?_ busy
              (fun _ => ⟨_, _, reading.flushed, direct, is⟩) (fun growth => ?_)
              fun locked => absurd locked (not_writer inv calm)
            · rw [calm]; exact afterStamp_calm _ _
            · apply afterStamp_reader (reading.keep inv.epoch growth rfl rfl (Nat.le_refl _))
              rw [stampOf_object is]
              simp
          · rename_i stamped
            exact leave (by rwa [stampOf_object is])


/-- An unmarked word stands for the newest version, and that one is flushed. -/
theorem unmarked_flushed {state : State workers} (inv : Inv state)
    (unmarked : state.word.unpersisted = false) :
    Shows state state.word (state.versions.length - 1) ∧
      state.versions.length - 1 ≤ state.durable := by
  have still {new : Ptr} (linked : Linked state new) : False := by
    rw [linked.1] at unmarked
    cases unmarked
  have calm (steady : Steady state) : Shows state state.word (state.versions.length - 1) ∧
      state.versions.length - 1 ≤ state.durable := by
    obtain ⟨shown, flushed, _⟩ := steady
    exact ⟨shown, by omega⟩
  cases locked : state.writer with
  | none => exact calm (inv.free locked).1
  | some writer =>
      have held := inv.writer writer locked
      cases pc : state.pc writer <;> simp only [pc, WriterInv] at held
      case storeLoad => exact calm held.2
      case storeNext => exact calm held.2.1
      case camLoad => exact calm held.2.1
      case camExchange => exact calm held.2.1
      case recheck => exact held.2.elim (fun pending => calm pending.2.1) fun linked =>
        (still linked.1).elim
      case againLoad => exact calm held.2.1
      case againExchange => exact calm held.2.1
      case stampNew => exact (still held.1.1).elim
      case pathStamp => exact (still held.1).elim
      case pathDone => exact (still held.1.1).elim
      case flush => exact (still held.2.1).elim
      case clear => exact (still held.2.1).elim

theorem reader_spin {id : Fin workers} {snapshot : Option Nat} (inv : Inv before)
    (pc : before.pc id = .spin snapshot) (stepped : advance before id = some after) :
    Inv after := by
  have own := inv.reader id
  rw [pc] at own
  have calm : storing (before.pc id) = false := by rw [pc]; rfl
  simp only [advance, pc] at stepped
  split at stepped <;> simp only [Option.some.injEq] at stepped <;> subst stepped
  · exact inv
  · rename_i unmarked
    obtain ⟨shown, flushed⟩ := unmarked_flushed inv (Bool.eq_false_iff.mpr unmarked)
    refine reader_moves inv id _ _ before.reads calm rfl
      (fun other different => Function.update_of_ne different ..)
      ⟨⟨?_, ?_, ?_⟩, trivial⟩ (fun _ member => Or.inl member)
        (fun _ => inv.inside id (by simp [pc]))
    · simp only [Function.update_self]
      exact shown
    · simp only [Function.update_self]
      exact flushed
    · intro local_ taken
      simp only [Function.update_self]
      refine ⟨?_, fun index ptr beyond present => ?_⟩
      · exact Eq.trans (Eq.symm own) taken
      · have : index < before.versions.length := (List.getElem?_eq_some_iff.mp present).1
        omega

theorem chase_inv {id : Fin workers} {snapshot : Nat} {head : Word} (inv : Inv before)
    (pc : before.pc id = .chase snapshot head) (stepped : advance before id = some after) :
    Inv after := by
  have own := inv.reader id
  rw [pc] at own
  obtain ⟨reading, stamped⟩ := own
  obtain ⟨opened, later⟩ := reading.within snapshot rfl
  have past := (Epoch.done_le_snapshot inv.epoch opened).2
  have calm : storing (before.pc id) = false := by rw [pc]; rfl
  have busy : before.pc id ≠ .idle := by simp [pc]
  simp only [advance, pc] at stepped
  cases is : head.ptr.object with
  | none =>
      simp only [is, Option.some.injEq] at stepped
      subst stepped
      refine reader_goto inv id _ calm rfl busy ⟨?_, reading.flushed⟩
      have null : head.ptr = .null := by cases ptr : head.ptr <;> simp [ptr, Ptr.object] at is ⊢
      rcases reading.shown.2 with direct | ⟨_, object, stamp, link, stamped, old⟩
      · refine ⟨_, direct, rfl, ?_⟩
        rintro _ ⟨⟩
        refine ⟨past, later, Or.inl ?_⟩
        by_contra positive
        obtain ⟨index, shape⟩ := Nat.exists_eq_succ_of_ne_zero positive
        rw [shape] at direct
        exact inv.history.stored index _ direct null
      · refine ⟨_, link, by rw [null]; rfl, ?_⟩
        rintro _ ⟨⟩
        exact ⟨past, later, Or.inr ⟨stamp, stamped, old.2 id _ opened⟩⟩
  | some object =>
      have direct := reading.shown.2.direct is
      obtain ⟨stamp, known⟩ := Option.ne_none_iff_exists'.mp stamped
      rw [stampOf_object is] at known
      simp only [is, known, atMost, decide_eq_true_eq] at stepped
      split at stepped <;> simp only [Option.some.injEq] at stepped <;> subst stepped
      · rename_i bound
        refine reader_goto inv id _ calm rfl busy ⟨⟨_, direct, rfl, ?_⟩, reading.flushed⟩
        rintro _ ⟨⟩
        exact ⟨past, later, Or.inr ⟨stamp, by rwa [stampOf_object is], bound⟩⟩
      · rename_i above
        -- The first version is never above a snapshot, so there is one to hop to.
        obtain ⟨index, shape⟩ : ∃ index, before.source id = index + 1 := by
          apply Nat.exists_eq_succ_of_ne_zero
          intro zero
          obtain ⟨ptr, oldest, present, stamp', old⟩ := inv.history.first
          rw [zero, present] at direct
          cases direct
          rw [stampOf_object is, known] at stamp'
          cases stamp'
          exact above (old.2 id _ opened)
        rw [shape] at direct
        have bounded : index + 1 < before.versions.length := (List.getElem?_eq_some_iff.mp direct).1
        have shown := inv.history.chain index _ object direct is
        have flushed := reading.flushed
        refine reader_moves inv id _ _ before.reads calm rfl
          (fun other different => Function.update_of_ne different ..) ⟨⟨?_, ?_, ?_⟩, ?_⟩
          (fun _ member => Or.inl member) (fun _ => inv.inside id busy)
        · simp only [Function.update_self, shape, Nat.add_sub_cancel]
          exact shown
        · simp only [Function.update_self, shape, Nat.add_sub_cancel]
          change index ≤ before.durable
          omega
        · rintro _ ⟨⟩
          simp only [Function.update_self, shape, Nat.add_sub_cancel]
          refine ⟨opened, fun place ptr beyond present => ?_⟩
          by_cases here : place = index + 1
          · subst here
            change before.versions[index + 1]? = some ptr at present
            rw [direct] at present
            cases present
            refine ⟨fun value now => ?_, fun none_ => absurd none_ stamped⟩
            change before.stampOf head.ptr = some value at now
            rw [stampOf_object is, known] at now
            cases now
            omega
          · exact later place ptr (by omega) present
        · have earlier : ∃ ptr, before.versions[index]? = some ptr :=
            ⟨_, List.getElem?_eq_getElem (by omega)⟩
          obtain ⟨ptr, present⟩ := earlier
          obtain ⟨value, known', _⟩ := inv.history.stamped index ptr _ present direct
          change before.stampOf (before.next object).ptr ≠ none
          rcases shown.2 with same | ⟨null, _⟩
          · rw [present] at same
            cases same
            rw [known']
            simp
          · rw [null]
            simp [State.stampOf]


/-! shortcut. Its test against done_stamp makes the link droppable, and it stays so
until the exchange, whatever snapshots open in between. -/

theorem old_of_done {state : State workers} (inv : Inv state) {stamp : Nat}
    (bound : stamp ≤ state.epoch.doneStamp) : Old state stamp :=
  ⟨bound.trans (Epoch.done_le_clock inv.epoch), fun _ _ opened =>
    bound.trans (Epoch.done_le_snapshot inv.epoch opened).1⟩

theorem indirect_link {ptr : Ptr} (indirect : ptr.isIndirect = true) :
    ∃ object, ptr = .link object := by
  cases ptr with
  | link object => exact ⟨object, rfl⟩
  | null => cases indirect
  | node id => cases indirect

theorem finish_reader {state : State workers} {id : Fin workers} {head : Word}
    (reading : Reading state id none head) : ReaderInv state id (.finish none head.ptr.value) := by
  obtain ⟨version, present, same⟩ := reading.shown.2.value
  exact ⟨⟨version, present, same, by simp⟩, reading.flushed⟩

theorem Steady.shortcut {state : State workers} {head : Word} (steady : Steady state)
    (here : state.word = head) (droppable : Droppable state head.ptr) :
    Steady { state with word := clean .null } := by
  obtain ⟨shown, flushed, stamped⟩ := steady
  obtain ⟨object, stamp, link, known, old⟩ := droppable
  rw [here, Shows, link] at shown
  exact ⟨⟨rfl, Or.inr ⟨rfl, object, stamp, shown.2.direct rfl, known, old⟩⟩, flushed, stamped⟩

-- The writer's part after somebody else's shortcut.
theorem WriterInv.shortcut {state : State workers} {id : Fin workers} {pc : Pc} {head : Word}
    (writer : WriterInv state id pc) (here : state.word = head)
    (unmarked : head.unpersisted = false) (droppable : Droppable state head.ptr) :
    WriterInv { state with word := clean .null } id pc := by
  have still {new : Ptr} (linked : Linked state new) : False := by
    rw [← here, linked.1] at unmarked
    cases unmarked
  have full {new : Ptr} (pending : Pending state new) : False := by
    obtain ⟨object, stamp, link, _⟩ := droppable
    have null := pending.2.2.1
    rw [here] at null
    rw [null] at link
    cases link
  have tracks {old : Word} (held : Tracks state old) : Tracks { state with word := clean .null }
    old := by
    refine ⟨held.1, Or.inr ⟨rfl, ?_⟩⟩
    rcases held.2 with same | ⟨_, indirect⟩
    · obtain ⟨object, stamp, link, _⟩ := droppable
      rw [← same, here, link]
      rfl
    · exact indirect
  cases pc with
  | storeLoad new => exact ⟨writer.1, writer.2.shortcut here droppable⟩
  | storeNext new old => exact ⟨writer.1, writer.2.1.shortcut here droppable, tracks writer.2.2⟩
  | camLoad new old | camExchange new old =>
      exact ⟨writer.1, writer.2.1.shortcut here droppable, tracks writer.2.2.1, writer.2.2.2⟩
  | recheck new old =>
      exact ⟨writer.1, writer.2.elim (fun pending => (full pending).elim) fun linked =>
        (still linked.1).elim⟩
  | againLoad new | againExchange new => exact (full writer).elim
  | stampNew new place => exact (still writer.1.1).elim
  | pathStamp new => exact (still writer.1).elim
  | pathDone new stamp => exact (still writer.1.1).elim
  | flush new shortcutted => exact (still writer.2.1).elim
  | clear new shortcutted => exact (still writer.2.1).elim
  | _ => exact writer.elim

theorem shortcut_exchange_inv {state : State workers} (inv : Inv state) (id : Fin workers)
    {head : Word} (pc : state.pc id = .shortcutExchange head) (here : state.word = head) :
    Inv { state.goto id (.finish none head.ptr.value) with word := clean .null } := by
  have own := inv.reader id
  rw [pc] at own
  obtain ⟨reading, droppable⟩ := own
  have moved := reader_goto inv id (.finish none head.ptr.value) (by rw [pc]; rfl) rfl
    (by simp [pc])
    (finish_reader reading)
  have growth : Grows (state.goto id (.finish none head.ptr.value))
      { state.goto id (.finish none head.ptr.value) with word := clean .null } :=
        grows_of_same rfl rfl rfl rfl
  refine assemble moved id growth moved.epoch (fun _ _ => rfl) (fun _ _ => rfl) (fun _ _ => rfl)
    (Nat.le_refl _) (moved.history.grow growth rfl rfl (Nat.le_refl _)) moved.unused moved.durable
    ?_ ?_ moved.owner ?_ ?_
    (fun busy => moved.inside id busy)
  · intro unlocked
    exact ⟨(moved.free unlocked).1.shortcut here droppable, (moved.free unlocked).2⟩
  · intro other locked
    exact (moved.writer other locked).shortcut here reading.shown.1 droppable
  · exact (moved.reader id).keep moved.epoch ⟨growth, rfl, rfl, List.Subset.refl _, rfl,
      Nat.le_refl _⟩
  · exact fun read member => Or.inl member

theorem finish_inv {state : State workers} (inv : Inv state) (id : Fin workers)
    {snapshot value : Option Nat} (pc : state.pc id = .finish snapshot value) :
    Inv { state.goto id .idle with
      reads := ⟨snapshot, state.source id, value, state.persistent⟩ :: state.reads } := by
  have own := inv.reader id
  rw [pc] at own
  obtain ⟨got, flushed⟩ := own
  refine reader_moves inv id .idle state.source _ (by rw [pc]; rfl) rfl (fun _ _ => rfl) trivial ?_
    (by simp)
  intro read member
  rcases List.mem_cons.mp member with rfl | old
  · exact Or.inr ⟨got, state.durable, flushed, inv.durable⟩
  · exact Or.inl old

end SetBench.VersionedPtr
