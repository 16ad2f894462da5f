import SetBench.Transition
import SetBench.VersionedPtr

/-! The version chain behind a versioned_ptr. `versions` lists every version that
was ever linked; the word `v` and each next_version stand for one of them, either
directly or, after a shortcut, as a plain null in place of a link whose stamp
no open snapshot can be below. -/
namespace SetBench.VersionedPtr

open SetBench.Transition

variable {workers : Nat}

def State.stampOf (state : State workers) : Ptr → Option Nat
  | .null => some 0
  | .node id | .link id => state.stamp id

def State.linkedOf (state : State workers) : Ptr → Nat
  | .null => 0
  | .node id | .link id => state.linked id

-- No snapshot, open now or later, has a local stamp below `stamp`.
def Old (state : State workers) (stamp : Nat) : Prop :=
  stamp ≤ state.epoch.clock ∧
    ∀ id snapshot, (state.epoch.thread id).localStamp = some snapshot → stamp ≤ snapshot

def Denotes (state : State workers) (ptr : Ptr) (index : Nat) : Prop :=
  state.versions[index]? = some ptr ∨
    (ptr = .null ∧ ∃ object stamp, state.versions[index]? = some (.link object) ∧
      state.stamp object = some stamp ∧ Old state stamp)

def Shows (state : State workers) (word : Word) (index : Nat) : Prop :=
  word.unpersisted = false ∧ Denotes state word.ptr index

/-- Every version after `source` has, or will get, a stamp above the snapshot. -/
def Later (state : State workers) (snapshot source : Nat) : Prop :=
  ∀ (index : Nat) ptr, source < index → state.versions[index]? = some ptr →
    (∀ stamp, state.stampOf ptr = some stamp → snapshot < stamp) ∧
    (state.stampOf ptr = none → snapshot ≤ state.linkedOf ptr)

/-- How every step changes what the version chain depends on. -/
structure Grows (before after : State workers) : Prop where
  clock : before.epoch.clock ≤ after.epoch.clock
  snapshots : ∀ id snapshot, (after.epoch.thread id).localStamp = some snapshot →
    (before.epoch.thread id).localStamp = some snapshot ∨ before.epoch.clock ≤ snapshot
  versions : ∀ (index : Nat) ptr, before.versions[index]? = some ptr → after.versions[index]? =
    some ptr
  fresh : ∀ (index : Nat) ptr, after.versions[index]? = some ptr → before.versions[index]? =
    some ptr ∨
    (after.stampOf ptr = none ∧ before.epoch.clock ≤ after.linkedOf ptr)
  linked : ∀ (index : Nat) ptr, before.versions[index]? = some ptr → after.linkedOf ptr =
    before.linkedOf ptr
  stamp : ∀ object stamp, before.stamp object = some stamp → after.stamp object = some stamp
  stamped : ∀ (index : Nat) ptr stamp, before.versions[index]? = some ptr → before.stampOf ptr =
    none →
    after.stampOf ptr = some stamp → before.linkedOf ptr < stamp ∧ stamp ≤ after.epoch.clock

variable {before after : State workers}

theorem Grows.stampOf (growth : Grows before after) {ptr : Ptr} {stamp : Nat}
    (known : before.stampOf ptr = some stamp) : after.stampOf ptr = some stamp := by
  cases ptr with
  | null => exact known
  | node id => exact growth.stamp id stamp known
  | link id => exact growth.stamp id stamp known

theorem Old.grow {stamp : Nat} (old : Old before stamp) (growth : Grows before after) :
    Old after stamp := by
  refine ⟨old.1.trans growth.clock, fun id snapshot opened => ?_⟩
  rcases growth.snapshots id snapshot opened with earlier | later
  · exact old.2 id snapshot earlier
  · exact old.1.trans later

theorem Denotes.grow {ptr : Ptr} {index : Nat} (denotes : Denotes before ptr index)
    (growth : Grows before after) : Denotes after ptr index := by
  rcases denotes with direct | ⟨null, object, stamp, link, stamped, old⟩
  · exact Or.inl (growth.versions index ptr direct)
  · exact Or.inr ⟨null, object, stamp, growth.versions _ _ link, growth.stamp _ _ stamped,
      old.grow growth⟩

theorem Shows.grow {word : Word} {index : Nat} (shows_ : Shows before word index)
    (growth : Grows before after) : Shows after word index :=
  ⟨shows_.1, shows_.2.grow growth⟩

theorem Later.grow {snapshot source : Nat} (later : Later before snapshot source)
    (past : snapshot ≤ before.epoch.clock) (growth : Grows before after) :
    Later after snapshot source := by
  intro index ptr beyond present
  rcases growth.fresh index ptr present with old | ⟨unstamped, linked⟩
  · obtain ⟨above, waiting⟩ := later index ptr beyond old
    cases known : before.stampOf ptr with
    | none =>
        have bound := waiting known
        refine ⟨fun stamp now => ?_, fun _ => by rw [growth.linked index ptr old]; exact bound⟩
        exact Nat.lt_of_le_of_lt bound (growth.stamped index ptr stamp old known now).1
    | some value =>
        have kept := growth.stampOf known
        refine ⟨fun stamp now => ?_, fun none_ => ?_⟩
        · rw [kept] at now
          cases now
          exact above value known
        · rw [kept] at none_
          cases none_
  · refine ⟨fun stamp now => ?_, fun _ => past.trans linked⟩
    rw [unstamped] at now
    cases now

structure History (state : State workers) : Prop where
  first : ∃ ptr stamp, state.versions[0]? = some ptr ∧ state.stampOf ptr = some stamp ∧
    Old state stamp
  stored : ∀ (index : Nat) ptr, state.versions[index + 1]? = some ptr → ptr ≠ .null
  distinct : ∀ (i j : Nat) first second object, state.versions[i]? = some first →
    state.versions[j]? = some second →
    first.object = some object → second.object = some object → i = j
  known : ∀ (index : Nat) ptr object, state.versions[index]? = some ptr → ptr.object = some object →
    object < state.allocated
  chain : ∀ (index : Nat) ptr object, state.versions[index + 1]? = some ptr →
    ptr.object = some object →
    Shows state (state.next object) index
  stamped : ∀ (index : Nat) earlier ptr, state.versions[index]? = some earlier →
    state.versions[index + 1]? = some ptr →
    ∃ stamp, state.stampOf earlier = some stamp ∧ stamp ≤ state.linkedOf ptr
  bound : ∀ (index : Nat) ptr, state.versions[index]? = some ptr →
    state.linkedOf ptr ≤ state.epoch.clock ∧
    ∀ stamp, state.stampOf ptr = some stamp → stamp ≤ state.epoch.clock
  above : ∀ (index : Nat) ptr stamp, state.versions[index + 1]? = some ptr → state.stampOf ptr =
    some stamp →
    state.linkedOf ptr < stamp

-- A step that links nothing keeps the chain.
theorem History.grow (history : History before) (growth : Grows before after)
    (versions : after.versions = before.versions) (next : after.next = before.next)
    (allocated : before.allocated ≤ after.allocated) : History after := by
  refine ⟨?_, ?_, ?_, ?_, ?_, ?_, ?_, ?_⟩
  · obtain ⟨ptr, stamp, present, stamped, old⟩ := history.first
    exact ⟨ptr, stamp, versions ▸ present, growth.stampOf stamped, old.grow growth⟩
  · rw [versions]; exact history.stored
  · rw [versions]; exact history.distinct
  · rw [versions]
    intro index ptr object present same
    exact (history.known index ptr object present same).trans_le allocated
  · rw [versions, next]
    intro index ptr object present same
    exact (history.chain index ptr object present same).grow growth
  · rw [versions]
    intro index earlier ptr present later
    obtain ⟨stamp, stamped, bound⟩ := history.stamped index earlier ptr present later
    exact ⟨stamp, growth.stampOf stamped, by rw [growth.linked _ _ later]; exact bound⟩
  · rw [versions]
    intro index ptr present
    obtain ⟨linked, stamps⟩ := history.bound index ptr present
    refine ⟨by rw [growth.linked _ _ present]; exact linked.trans growth.clock, fun stamp now => ?_⟩
    cases known : before.stampOf ptr with
    | none => exact (growth.stamped index ptr stamp present known now).2
    | some value =>
        rw [growth.stampOf known] at now
        cases now
        exact (stamps _ known).trans growth.clock
  · rw [versions]
    intro index ptr stamp present now
    rw [growth.linked _ _ present]
    cases known : before.stampOf ptr with
    | none => exact (growth.stamped _ ptr stamp present known now).1
    | some value =>
        rw [growth.stampOf known] at now
        cases now
        exact history.above index ptr _ present known

-- What a finished or finishing load knows about the version it returns.
def Got (state : State workers) (snapshot : Option Nat) (source : Nat) (value : Option Nat) :
    Prop :=
  ∃ ptr, state.versions[source]? = some ptr ∧ ptr.value = value ∧
    ∀ local_, snapshot = some local_ → local_ ≤ state.epoch.clock ∧ Later state local_ source ∧
      (source = 0 ∨ ∃ stamp, state.stampOf ptr = some stamp ∧ stamp ≤ local_)

theorem Got.grow {snapshot : Option Nat} {source : Nat} {value : Option Nat}
    (got : Got before snapshot source value) (growth : Grows before after) :
    Got after snapshot source value := by
  obtain ⟨ptr, present, same, rest⟩ := got
  refine ⟨ptr, growth.versions _ _ present, same, fun local_ taken => ?_⟩
  obtain ⟨past, later, reached⟩ := rest local_ taken
  refine ⟨past.trans growth.clock, later.grow past growth, ?_⟩
  rcases reached with zero | ⟨stamp, stamped, bound⟩
  · exact Or.inl zero
  · exact Or.inr ⟨stamp, growth.stampOf stamped, bound⟩

def Recorded (state : State workers) (read : Read) : Prop :=
  Got state read.snapshot read.source read.value ∧
    ∃ index : Nat, read.source ≤ index ∧ state.versions[index]? = some read.persistent.ptr

theorem Recorded.grow {read : Read} (recorded : Recorded before read)
    (growth : Grows before after) :
    Recorded after read := by
  obtain ⟨got, index, bound, present⟩ := recorded
  exact ⟨got.grow growth, index, bound, growth.versions _ _ present⟩


/-! Readers. A reader that left the spin loop holds a word that stands for the
version `source`, which is flushed, and no version after `source` can belong to
its snapshot. -/

def Place (state : State workers) (id : Fin workers) (ptr : Ptr) : StampPc → Prop
  | .test | .call => True
  | .wait => ∃ called, (state.epoch.thread id).stampCall = some called ∧ state.linkedOf ptr ≤ called
  | .retest stamp | .load stamp | .exchange stamp =>
      state.linkedOf ptr < stamp ∧ stamp ≤ state.epoch.clock ∧ stamp ∈ (state.epoch.thread id).taken

structure Reading (state : State workers) (id : Fin workers) (snapshot : Option Nat) (head : Word) :
    Prop where
  shown : Shows state head (state.source id)
  flushed : state.source id ≤ state.durable
  within : ∀ local_, snapshot = some local_ →
    (state.epoch.thread id).localStamp = some local_ ∧ Later state local_ (state.source id)

def Droppable (state : State workers) (ptr : Ptr) : Prop :=
  ∃ object stamp, ptr = .link object ∧ state.stamp object = some stamp ∧ Old state stamp

def ReaderInv (state : State workers) (id : Fin workers) : Pc → Prop
  | .spin snapshot => snapshot = (state.epoch.thread id).localStamp
  | .stamping snapshot head place => Reading state id snapshot head ∧ Place state id head.ptr place
  | .shortcutStamp head => Reading state id none head ∧ head.ptr.isIndirect
  | .shortcutDone head stamp => Reading state id none head ∧ head.ptr.isIndirect ∧
      ∀ value, stamp = some value → state.stampAt head.ptr = some value
  | .shortcutLoad head | .shortcutExchange head =>
      Reading state id none head ∧ Droppable state head.ptr
  | .chase snapshot head => Reading state id (some snapshot) head ∧ state.stampOf head.ptr ≠ none
  | .finish snapshot value =>
      Got state snapshot (state.source id) value ∧ state.source id ≤ state.durable
  | _ => True

structure Keeps (before after : State workers) (id : Fin workers) : Prop where
  growth : Grows before after
  snapshot : (after.epoch.thread id).localStamp = (before.epoch.thread id).localStamp
  call : (after.epoch.thread id).stampCall = (before.epoch.thread id).stampCall
  taken : (before.epoch.thread id).taken ⊆ (after.epoch.thread id).taken
  source : after.source id = before.source id
  durable : before.durable ≤ after.durable

theorem Place.keep {id : Fin workers} {ptr : Ptr} {place : StampPc}
    (placed : Place before id ptr place) (clock : before.epoch.clock ≤ after.epoch.clock)
    (call : (after.epoch.thread id).stampCall = (before.epoch.thread id).stampCall)
    (taken : (before.epoch.thread id).taken ⊆ (after.epoch.thread id).taken)
    (linked : after.linkedOf ptr = before.linkedOf ptr) : Place after id ptr place := by
  cases place with
  | test => trivial
  | call => trivial
  | wait =>
      obtain ⟨called, open_, bound⟩ := placed
      exact ⟨called, call.trans open_, linked ▸ bound⟩
  | retest stamp | load stamp | exchange stamp =>
      obtain ⟨above, bound, member⟩ := placed
      exact ⟨linked ▸ above, bound.trans clock, taken member⟩

theorem Denotes.linked {ptr : Ptr} {index : Nat} (denotes : Denotes before ptr index)
    (growth : Grows before after) : after.linkedOf ptr = before.linkedOf ptr := by
  rcases denotes with direct | ⟨null, _⟩
  · exact growth.linked index ptr direct
  · rw [null]; rfl

theorem Reading.keep {id : Fin workers} {snapshot : Option Nat} {head : Word}
    (reading : Reading before id snapshot head) (invariant : Epoch.Invariant before.epoch)
    (growth : Grows before after)
    (opened : (after.epoch.thread id).localStamp = (before.epoch.thread id).localStamp)
    (source : after.source id = before.source id) (durable : before.durable ≤ after.durable) :
    Reading after id snapshot head := by
  refine ⟨?_, ?_, ?_⟩
  · rw [source]; exact reading.shown.grow growth
  · rw [source]; exact reading.flushed.trans durable
  · intro local_ taken
    obtain ⟨mine, later⟩ := reading.within local_ taken
    rw [source, opened]
    exact ⟨mine, later.grow (Epoch.done_le_snapshot invariant mine).2 growth⟩

theorem Droppable.grow {ptr : Ptr} (droppable : Droppable before ptr)
    (growth : Grows before after) :
    Droppable after ptr := by
  obtain ⟨object, stamp, link, stamped, old⟩ := droppable
  exact ⟨object, stamp, link, growth.stamp _ _ stamped, old.grow growth⟩

theorem ReaderInv.keep {id : Fin workers} {pc : Pc} (reader : ReaderInv before id pc)
    (invariant : Epoch.Invariant before.epoch) (keeps : Keeps before after id) :
    ReaderInv after id pc := by
  have growth := keeps.growth
  have reading {snapshot : Option Nat} {head : Word} (held : Reading before id snapshot head) :
      Reading after id snapshot head :=
    held.keep invariant growth keeps.snapshot keeps.source keeps.durable
  cases pc with
  | spin snapshot => exact Eq.trans reader keeps.snapshot.symm
  | stamping snapshot head place =>
      exact ⟨reading reader.1,
        reader.2.keep growth.clock keeps.call keeps.taken (reader.1.shown.2.linked growth)⟩
  | shortcutStamp head => exact ⟨reading reader.1, reader.2⟩
  | shortcutDone head stamp =>
      refine ⟨reading reader.1, reader.2.1, fun value same => ?_⟩
      have known := reader.2.2 value same
      simp only [State.stampAt, Option.bind_eq_some_iff] at known ⊢
      obtain ⟨object, is, stamped⟩ := known
      exact ⟨object, is, growth.stamp _ _ stamped⟩
  | shortcutLoad head => exact ⟨reading reader.1, reader.2.grow growth⟩
  | shortcutExchange head => exact ⟨reading reader.1, reader.2.grow growth⟩
  | chase snapshot head =>
      refine ⟨reading reader.1, fun none_ => ?_⟩
      obtain ⟨stamp, stamped⟩ := Option.ne_none_iff_exists'.mp reader.2
      rw [growth.stampOf stamped] at none_
      cases none_
  | finish snapshot value =>
      simp only [ReaderInv, keeps.source]
      exact ⟨reader.1.grow growth, reader.2.trans keeps.durable⟩
  | _ => trivial

/-! The writer. It holds the lock from `storeLoad` to `clear`; before its cam takes
effect the only other change to the word is a shortcut of the old link, and from
then on the word is marked and nobody but the writer touches it. -/

def Fresh (state : State workers) (new : Ptr) : Prop :=
  ∃ object, new.object = some object ∧ object < state.allocated ∧ state.stamp object = none ∧
    (∀ (index : Nat) ptr, state.versions[index]? = some ptr → ptr.object ≠ some object) ∧
    state.stores = state.versions.tail ++ [new]

def Steady (state : State workers) : Prop :=
  Shows state state.word (state.versions.length - 1) ∧ state.durable + 1 = state.versions.length ∧
    ∀ ptr, state.versions[state.versions.length - 1]? = some ptr → state.stampOf ptr ≠ none

def Tracks (state : State workers) (old : Word) : Prop :=
  Shows state old (state.versions.length - 1) ∧
    (state.word = old ∨ (state.word = clean .null ∧ old.ptr.isIndirect))

def Follows (state : State workers) (new : Ptr) (old : Word) : Prop :=
  ∀ object, new.object = some object → state.next object = old

def Pending (state : State workers) (new : Ptr) : Prop :=
  Fresh state new ∧ Steady state ∧ state.word = clean .null ∧
    ∀ object, new.object = some object → Shows state (state.next object) (state.versions.length - 1)

def Linked (state : State workers) (new : Ptr) : Prop :=
  state.word = marked new ∧ state.versions[state.versions.length - 1]? = some new ∧
    state.stores = state.versions.tail ∧ 2 ≤ state.versions.length

-- The new version is linked, and nobody can have stamped it but its writer.
def Unstamped (state : State workers) (new : Ptr) : Prop :=
  Linked state new ∧ state.durable + 2 = state.versions.length ∧ state.stampOf new = none

def Signed (state : State workers) (id : Fin workers) (new : Ptr) : Prop :=
  Linked state new ∧ state.durable + 2 = state.versions.length ∧
    ∃ stamp, state.stampOf new = some stamp ∧ stamp ∈ (state.epoch.thread id).taken

def WriterInv (state : State workers) (id : Fin workers) : Pc → Prop
  | .storeLoad new => Fresh state new ∧ Steady state
  | .storeNext new old => Fresh state new ∧ Steady state ∧ Tracks state old
  | .camLoad new old | .camExchange new old =>
      Fresh state new ∧ Steady state ∧ Tracks state old ∧ Follows state new old
  | .recheck new old => old.ptr.isIndirect ∧ (Pending state new ∨ Unstamped state new)
  | .againLoad new | .againExchange new => Pending state new
  | .stampNew new place => Unstamped state new ∧ Place state id new place
  | .pathStamp new => Signed state id new
  | .pathDone new stamp => Signed state id new ∧ stamp = state.stampOf new
  | .flush new shortcutted => shortcutted = false ∧ Signed state id new
  | .clear new shortcutted => shortcutted = false ∧ Linked state new ∧
      state.durable + 1 = state.versions.length ∧ state.stampOf new ≠ none
  | _ => False

def storing : Pc → Bool
  | .storeLoad _ | .storeNext _ _ | .camLoad _ _ | .camExchange _ _ | .recheck _ _ | .againLoad _
  | .againExchange _ | .stampNew _ _ | .pathStamp _ | .pathDone _ _ | .pathLoad _ | .pathExchange _
  | .flush _ _ | .clear _ _ => true
  | _ => false

structure Inv (state : State workers) : Prop where
  epoch : Epoch.Invariant state.epoch
  history : History state
  unused : ∀ object, state.allocated ≤ object → state.stamp object = none
  durable : state.versions[state.durable]? = some state.persistent.ptr
  free : state.writer = none → Steady state ∧ state.stores = state.versions.tail
  writer : ∀ id, state.writer = some id → WriterInv state id (state.pc id)
  owner : ∀ id, storing (state.pc id) → state.writer = some id
  reader : ∀ id, ReaderInv state id (state.pc id)
  reads : ∀ read ∈ state.reads, Recorded state read
  inside : ∀ id, state.pc id ≠ .idle → (state.epoch.thread id).announcing = .inside

theorem initial_inv {clock : Nat} {stamp : Option Nat}
    (past : ∀ value, stamp = some value → value ≤ clock) (next : Nat → Word) :
    Inv (initial clock stamp next : State workers) := by
  have only (index : Nat) (ptr : Ptr)
      (present : (initial clock stamp next : State workers).versions[index]? = some ptr) :
      index = 0 ∧ ptr = if stamp.isSome then .node 0 else .null := by
    cases index with
    | zero =>
        simp only [initial, List.getElem?_cons_zero, Option.some.injEq] at present
        exact ⟨rfl, present.symm⟩
    | succ index => simp [initial] at present
  refine ⟨Epoch.initial_invariant clock, ?_, ?_, by simp [initial, clean], ?_, by simp [initial],
    by simp [initial, storing], fun _ => trivial, by simp [initial], by simp [initial]⟩
  · refine ⟨?_, ?_, ?_, ?_, ?_, ?_, ?_, ?_⟩
    · cases stamp with
      | none =>
          exact ⟨.null, 0, rfl, rfl, Nat.zero_le _, by simp [initial, Epoch.initial, Epoch.fresh]⟩
      | some value =>
          exact ⟨.node 0, value, rfl, rfl,
            past value rfl, by simp [initial, Epoch.initial, Epoch.fresh]⟩
    · intro index ptr present
      exact absurd (only _ _ present).1 (by simp)
    · intro i j first second object here there _ _
      rw [(only _ _ here).1, (only _ _ there).1]
    · intro index ptr object present is
      rw [(only _ _ present).2] at is
      cases stamp <;> simp [Ptr.object] at is
      subst is
      simp [initial]
    · intro index ptr object present
      exact absurd (only _ _ present).1 (by simp)
    · intro index earlier ptr _ present
      exact absurd (only _ _ present).1 (by simp)
    · intro index ptr present
      rw [(only _ _ present).2]
      cases stamp with
      | none => simp [initial, State.linkedOf, State.stampOf]
      | some value =>
          simpa [initial, State.linkedOf, State.stampOf, Epoch.initial] using past value rfl
    · intro index ptr stamp present
      exact absurd (only _ _ present).1 (by simp)
  · intro object beyond
    have positive : object ≠ 0 := by
      simp only [initial] at beyond
      omega
    simp [initial, positive]
  · intro _
    refine ⟨⟨⟨rfl, Or.inl ?_⟩, rfl, ?_⟩, rfl⟩
    · simp [initial, clean]
    · intro ptr present
      rw [(only _ _ present).2]
      cases stamp <;> simp [initial, State.stampOf]

end SetBench.VersionedPtr
