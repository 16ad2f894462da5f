import SetBench.Transition

/-! The key and value words of one leaf of ABTreeOptik (optik_btree.h) and their values in
persistent memory. A store joins the queue of its word; the oldest store of a queue may
become persistent at any moment, and a sync makes those persistent that a flush has covered. -/
namespace SetBench.LeafSlots

open Transition

inductive Cell where
  | key (i : Nat)
  | val (i : Nat)
  deriving DecidableEq, Repr

structure Word where
  value : Nat
  persistent : Nat
  queue : List Nat
  flushed : Nat

namespace Word

def store (w : Word) (value : Nat) : Word := { w with value, queue := w.queue ++ [value] }

def flush (w : Word) : Word := { w with flushed := w.queue.length }

/-- The oldest stores, `count` of them, reach persistent memory. -/
def persist (w : Word) (count : Nat) : Word :=
  { w with
    persistent := ((w.queue.take count).getLast?).getD w.persistent
    queue := w.queue.drop count
    flushed := w.flushed - count }

def sync (w : Word) : Word := w.persist w.flushed

/-- What a crash, now or later, may leave. -/
def possible (w : Word) : List Nat := w.persistent :: w.queue

end Word

inductive Act where
  | store (c : Cell) (value : Nat)
  | flush (c : Cell)
  | sync

-- The write of insert into the empty slot `i`.
def insertActs (i k v : Nat) : List Act :=
  [.store (.val i) v, .flush (.val i), .sync, .store (.key i) k, .flush (.key i), .sync]

-- The write of erase; the value stays.
def eraseActs (i : Nat) : List Act := [.store (.key i) 0, .flush (.key i), .sync]

/-- `todo` is left of the call that holds the leaf's lock, `inserted` are the pairs of the
insertions so far. -/
structure Leaf where
  words : Cell → Word
  todo : List Act
  inserted : List (Nat × Nat)

inductive Event where
  | insert (k v : Nat)
  | erase (k : Nat)
  | act
  | persist (c : Cell)

section Machine

variable (degree : Nat) (leaf : Leaf)

def keyAt (i : Nat) : Nat := (leaf.words (.key i)).value

def slotOf (k : Nat) : Option Nat := (List.range degree).find? fun i => keyAt leaf i == k

def act : Act → Leaf
  | .store c value =>
      { leaf with words := Function.update leaf.words c ((leaf.words c).store value) }
  | .flush c => { leaf with words := Function.update leaf.words c (leaf.words c).flush }
  | .sync => { leaf with words := fun c => (leaf.words c).sync }

/-- Calls whose key is there (insert) or not there (erase) write nothing; a leaf without an empty
slot is split instead. -/
def step : Event → Option Leaf
  | .insert k v =>
      match leaf.todo, slotOf degree leaf k, slotOf degree leaf 0 with
      | [], none, some i =>
          if k ≠ 0 then
            some { leaf with todo := insertActs i k v, inserted := (k, v) :: leaf.inserted }
          else none
      | _, _, _ => none
  | .erase k =>
      match leaf.todo, slotOf degree leaf k with
      | [], some i => if k ≠ 0 then some { leaf with todo := eraseActs i } else none
      | _, _ => none
  | .act =>
      match leaf.todo with
      | [] => none
      | next :: rest => some { act leaf next with todo := rest }
  | .persist c =>
      some { leaf with words := Function.update leaf.words c ((leaf.words c).persist 1) }

end Machine

/-- A leaf whose stores are all persistent. -/
def Settled (leaf : Leaf) : Prop := ∀ c, (leaf.words c).queue = []

/-- Before the first call: nothing is in flight and the pairs of the leaf are known. -/
structure Initial (leaf : Leaf) : Prop where
  idle : leaf.todo = []
  settled : Settled leaf
  persistent : ∀ c, (leaf.words c).persistent = (leaf.words c).value
  pairs : ∀ i, keyAt leaf i ≠ 0 → (keyAt leaf i, (leaf.words (.val i)).value) ∈ leaf.inserted

/-- No crash, now or later, can leave a key beside a value it was not inserted with. -/
def Paired (leaf : Leaf) : Prop :=
  ∀ i, ∀ k ∈ (leaf.words (.key i)).possible, k ≠ 0 → ∀ v ∈ (leaf.words (.val i)).possible, (k, v) ∈
    leaf.inserted

-- The last store of a word is its value.
def Current (w : Word) : Prop := w.possible.getLast? = some w.value

def SettledBut (leaf : Leaf) (c : Cell) : Prop := ∀ other, other ≠ c → (leaf.words other).queue = []

def Covered (w : Word) : Prop := w.queue.length ≤ w.flushed

/-- Where the call under the lock is. -/
inductive Phase (leaf : Leaf) : Prop where
  | idle (todo : leaf.todo = []) (settled : Settled leaf)
  | valueStore (i k v : Nat) (todo : leaf.todo = insertActs i k v) (settled : Settled leaf)
    (empty : keyAt leaf i = 0)
      (pair : (k, v) ∈ leaf.inserted)
  | valueFlush (i k v : Nat) (todo : leaf.todo = (insertActs i k v).drop 1)
    (settled : SettledBut leaf (.val i))
      (value : (leaf.words (.val i)).value = v) (pair : (k, v) ∈ leaf.inserted)
  | valueSync (i k v : Nat) (todo : leaf.todo = (insertActs i k v).drop 2)
    (settled : SettledBut leaf (.val i))
      (covered : Covered (leaf.words (.val i))) (value : (leaf.words (.val i)).value = v)
      (pair : (k, v) ∈ leaf.inserted)
  | keyStore (i k v : Nat) (todo : leaf.todo = (insertActs i k v).drop 3) (settled : Settled leaf)
      (value : (leaf.words (.val i)).value = v) (pair : (k, v) ∈ leaf.inserted)
  | clear (i : Nat) (todo : leaf.todo = eraseActs i) (settled : Settled leaf)
  | keyFlush (i : Nat) (todo : leaf.todo = (eraseActs i).drop 1)
    (settled : SettledBut leaf (.key i))
  | keySync (i : Nat) (todo : leaf.todo = (eraseActs i).drop 2) (settled : SettledBut leaf (.key i))
      (covered : Covered (leaf.words (.key i)))

structure Inv (leaf : Leaf) : Prop where
  paired : Paired leaf
  current : ∀ c, Current (leaf.words c)
  phase : Phase leaf

section Word

variable {w : Word}

theorem Current.of_settled (current : Current w) (settled : w.queue = []) :
    w.possible = [w.value] := by
  rw [Current, Word.possible, settled] at current
  rw [Word.possible, settled]
  simpa using current

theorem possible_persist (count : Nat) : ∀ x ∈ (w.persist count).possible, x ∈ w.possible := by
  intro x member
  rw [Word.possible, List.mem_cons] at member ⊢
  rcases member with rfl | later
  · simp only [Word.persist]
    cases last : (w.queue.take count).getLast? with
    | none => exact .inl rfl
    | some y => exact .inr (List.mem_of_mem_take (List.mem_of_getLast? last))
  · exact .inr (List.mem_of_mem_drop later)

theorem Current.persist (current : Current w) (count : Nat) : Current (w.persist count) := by
  rw [Current, Word.possible] at current ⊢
  simp only [Word.persist]
  cases rest : w.queue.drop count with
  | nil =>
      have all : w.queue.take count = w.queue := by
        have := List.take_append_drop count w.queue
        rwa [rest, List.append_nil] at this
      rw [all]
      cases queue : w.queue.getLast? with
      | none =>
          rw [List.getLast?_eq_none_iff] at queue
          rw [queue] at current
          exact current
      | some y =>
          rw [List.getLast?_cons, queue] at current
          simpa using current
  | cons x later =>
      have split : w.queue = w.queue.take count ++ x :: later := by
        rw [← rest, List.take_append_drop]
      rw [split, ← List.cons_append, List.getLast?_append_of_ne_nil _
        (List.cons_ne_nil _ _)] at current
      rw [List.getLast?_cons_cons]
      exact current

theorem Current.store (value : Nat) : Current (w.store value) := by
  rw [Current, Word.possible]
  simp only [Word.store]
  rw [← List.cons_append, List.getLast?_append_of_ne_nil _ (List.cons_ne_nil _ _)]
  rfl

theorem sync_queue (covered : Covered w) : w.sync.queue = [] := List.drop_eq_nil_of_le covered

theorem queue_persist_nil (settled : w.queue = []) (count : Nat) :
    (w.persist count).queue = [] := by
  simp only [Word.persist, settled, List.drop_nil]

theorem Covered.persist (covered : Covered w) (count : Nat) : Covered (w.persist count) := by
  rw [Covered] at covered ⊢
  simp only [Word.persist, List.length_drop]
  omega

end Word

section Steps

variable {leaf : Leaf}

/-- Words that only lose possible values keep the pairs. -/
theorem Paired.shrink {after : Leaf} (paired : Paired leaf)
    (fewer : ∀ c, ∀ x ∈ (after.words c).possible, x ∈ (leaf.words c).possible)
    (inserted : ∀ pair ∈ leaf.inserted, pair ∈ after.inserted) : Paired after :=
  fun i k key nonzero v val => inserted _ (paired i k (fewer _ k key) nonzero v (fewer _ v val))

theorem possible_update (c : Cell) (w : Word) (same : w.possible = (leaf.words c).possible)
    (other : Cell) :
    (Function.update leaf.words c w other).possible = (leaf.words other).possible := by
  by_cases here : other = c
  · rw [here, Function.update_self, same]
  · rw [Function.update_of_ne here]

theorem current_update (current : ∀ c, Current (leaf.words c)) {c : Cell} {w : Word}
    (kept : Current w) (other : Cell) :
    Current (Function.update leaf.words c w other) := by
  by_cases here : other = c
  · rw [here, Function.update_self]
    exact kept
  · rw [Function.update_of_ne here]
    exact current other

-- A store of a value beside an empty key.
theorem Paired.storeVal (paired : Paired leaf) (i v : Nat)
    (empty : (leaf.words (.key i)).possible = [0]) :
    Paired (act leaf (.store (.val i) v)) := by
  intro j k key nonzero x val
  simp only [act] at key val ⊢
  rw [Function.update_of_ne (by simp)] at key
  by_cases here : j = i
  · subst here
    rw [empty, List.mem_singleton] at key
    exact absurd key nonzero
  · rw [Function.update_of_ne (by simp [here])] at val
    exact paired j k key nonzero x val

-- A store of a key beside its value, or of the empty key.
theorem Paired.storeKey (paired : Paired leaf) (i k : Nat)
    (safe : k = 0 ∨ ∀ v ∈ (leaf.words (.val i)).possible, (k, v) ∈ leaf.inserted) :
    Paired (act leaf (.store (.key i) k)) := by
  intro j other key nonzero x val
  simp only [act] at key val ⊢
  rw [Function.update_of_ne (by simp)] at val
  by_cases here : j = i
  · subst here
    rw [Function.update_self, Word.possible, Word.store, ← List.cons_append, List.mem_append,
      List.mem_singleton] at key
    rcases key with old | rfl
    · exact paired j other old nonzero x val
    · exact safe.resolve_left nonzero x val
  · rw [Function.update_of_ne (by simp [here])] at key
    exact paired j other key nonzero x val

theorem SettledBut.act_store (settled : Settled leaf) (c : Cell) (value : Nat) :
    SettledBut (act leaf (.store c value)) c := by
  intro other away
  simp only [act]
  rw [Function.update_of_ne away]
  exact settled other

theorem SettledBut.act_flush {c : Cell} (settled : SettledBut leaf c) :
    SettledBut (act leaf (.flush c)) c := by
  intro other away
  simp only [act]
  rw [Function.update_of_ne away]
  exact settled other away

theorem covered_flush (c : Cell) : Covered ((act leaf (.flush c)).words c) := by
  simp only [act]
  rw [Function.update_self]
  exact Nat.le_refl _

theorem SettledBut.act_sync {c : Cell} (settled : SettledBut leaf c)
    (covered : Covered (leaf.words c)) :
    Settled (act leaf .sync) := by
  intro other
  by_cases here : other = c
  · rw [here]
    exact sync_queue covered
  · exact queue_persist_nil (settled other here) _

theorem Inv.act_shared (inv : Inv leaf) (next : Act) :
    (∀ c, Current ((act leaf next).words c)) ∧ (act leaf next).inserted = leaf.inserted := by
  cases next with
  | store c value => exact ⟨current_update inv.current (Current.store value), rfl⟩
  | flush c => exact ⟨current_update inv.current (inv.current c), rfl⟩
  | sync => exact ⟨fun c => (inv.current c).persist _, rfl⟩

theorem Paired.flush (paired : Paired leaf) (c : Cell) : Paired (act leaf (.flush c)) :=
  paired.shrink (fun other x member => by
    rw [← possible_update c (leaf.words c).flush rfl other]
    exact member) fun _ member => member

theorem Paired.sync (paired : Paired leaf) : Paired (act leaf .sync) :=
  paired.shrink (fun _ => possible_persist _) fun _ member => member

/-- The next act of the call under the lock. -/
theorem Inv.act {next : Act} {rest : List Act} (inv : Inv leaf) (todo : leaf.todo = next :: rest) :
    Inv { act leaf next with todo := rest } := by
  have shared := inv.act_shared next
  have paired := inv.paired
  have kept {leaf' : Leaf} (same : leaf' = LeafSlots.act leaf next) (paired : Paired leaf')
    (phase : Phase { leaf' with todo := rest }) :
      Inv { LeafSlots.act leaf next with todo := rest } := by
    subst same
    exact ⟨paired, shared.1, phase⟩
  cases inv.phase with
  | idle none _ =>
      rw [todo] at none
      cases none
  | valueStore i k v here settled empty pair =>
      rw [todo] at here
      cases here
      have zero : (leaf.words (.key i)).possible = [0] := by
        rw [(inv.current _).of_settled (settled _)]
        exact congrArg (fun x => [x]) empty
      refine kept rfl (paired.storeVal i v zero)
        (.valueFlush i k v rfl (SettledBut.act_store settled _ v) ?_ pair)
      simp [LeafSlots.act, Word.store]
  | valueFlush i k v here settled value pair =>
      rw [todo] at here
      cases here
      refine kept rfl (paired.flush _)
        (.valueSync i k v rfl settled.act_flush (covered_flush _) ?_ pair)
      simp only [LeafSlots.act]
      rw [Function.update_self]
      exact value
  | valueSync i k v here settled covered value pair =>
      rw [todo] at here
      cases here
      exact kept rfl paired.sync (.keyStore i k v rfl (settled.act_sync covered) value pair)
  | keyStore i k v here settled value pair =>
      rw [todo] at here
      cases here
      have beside : ∀ x ∈ (leaf.words (.val i)).possible, (k, x) ∈ leaf.inserted := by
        intro x member
        rw [(inv.current _).of_settled (settled _), List.mem_singleton, value] at member
        exact member ▸ pair
      exact kept rfl (paired.storeKey i k (.inr beside))
        (.keyFlush i rfl (SettledBut.act_store settled _ k))
  | clear i here settled =>
      rw [todo] at here
      cases here
      exact kept rfl (paired.storeKey i 0 (.inl rfl))
        (.keyFlush i rfl (SettledBut.act_store settled _ 0))
  | keyFlush i here settled =>
      rw [todo] at here
      cases here
      exact kept rfl (paired.flush _) (.keySync i rfl settled.act_flush (covered_flush _))
  | keySync i here settled covered =>
      rw [todo] at here
      cases here
      exact kept rfl paired.sync (.idle rfl (settled.act_sync covered))

/-- A store that becomes persistent early leaves the call where it is. -/
theorem Inv.persist (inv : Inv leaf) (c : Cell) :
    Inv { leaf with words := Function.update leaf.words c ((leaf.words c).persist 1) } := by
  have quiet (other : Cell) (settled : (leaf.words other).queue = []) :
      (Function.update leaf.words c ((leaf.words c).persist 1) other).queue = [] := by
    by_cases here : other = c
    · subst here
      rw [Function.update_self]
      exact queue_persist_nil settled 1
    · rw [Function.update_of_ne here]
      exact settled
  have value (other : Cell) :
    (Function.update leaf.words c ((leaf.words c).persist 1) other).value =
    (leaf.words other).value := by
    by_cases here : other = c
    · subst here
      rw [Function.update_self]
      rfl
    · rw [Function.update_of_ne here]
  have covers (other : Cell) (covered : Covered (leaf.words other)) :
      Covered (Function.update leaf.words c ((leaf.words c).persist 1) other) := by
    by_cases here : other = c
    · subst here
      rw [Function.update_self]
      exact covered.persist 1
    · rw [Function.update_of_ne here]
      exact covered
  refine ⟨inv.paired.shrink (fun other x member => ?_) fun _ member => member,
    current_update inv.current ((inv.current c).persist 1), ?_⟩
  · by_cases here : other = c
    · subst here
      simp only [Function.update_self] at member
      exact possible_persist 1 x member
    · simp only [Function.update_of_ne here] at member
      exact member
  · cases inv.phase with
    | idle todo settled => exact .idle todo fun other => quiet other (settled other)
    | valueStore i k v todo settled empty pair =>
        exact .valueStore i k v todo (fun other => quiet other (settled other))
          ((value _).trans empty) pair
    | valueFlush i k v todo settled held pair =>
        exact .valueFlush i k v todo (fun other away => quiet other (settled other away))
          ((value _).trans held) pair
    | valueSync i k v todo settled covered held pair =>
        exact .valueSync i k v todo (fun other away => quiet other (settled other away))
          (covers _ covered) ((value _).trans held) pair
    | keyStore i k v todo settled held pair =>
        exact .keyStore i k v todo (fun other => quiet other (settled other))
          ((value _).trans held) pair
    | clear i todo settled => exact .clear i todo fun other => quiet other (settled other)
    | keyFlush i todo settled =>
        exact .keyFlush i todo fun other away => quiet other (settled other away)
    | keySync i todo settled covered =>
        exact .keySync i todo (fun other away => quiet other (settled other away))
          (covers _ covered)

theorem Inv.idle_settled (inv : Inv leaf) (todo : leaf.todo = []) : Settled leaf := by
  cases inv.phase with
  | idle _ settled => exact settled
  | valueStore _ _ _ here | valueFlush _ _ _ here | valueSync _ _ _ here | keyStore _ _ _ here
  | clear _ here
  | keyFlush _ here | keySync _ here =>
      rw [todo] at here
      cases here

theorem slotOf_some {degree k i : Nat} (found : slotOf degree leaf k = some i) :
    keyAt leaf i = k := by
  have := List.find?_some found
  simpa using this

theorem Inv.step {degree : Nat} {event : Event} {after : Leaf} (inv : Inv leaf)
    (stepped : step degree leaf event = some after) : Inv after := by
  cases event with
  | insert k v =>
      simp only [LeafSlots.step] at stepped
      split at stepped
      · rename_i todo absent found
        split at stepped
        · cases stepped
          refine ⟨inv.paired.shrink (fun _ _ member => member) fun _ member => List.mem_cons_of_mem
            _ member, inv.current, ?_⟩
          exact .valueStore _ k v rfl (inv.idle_settled todo) (slotOf_some found) List.mem_cons_self
        · cases stepped
      · cases stepped
  | erase k =>
      simp only [LeafSlots.step] at stepped
      split at stepped
      · rename_i todo found
        split at stepped
        · cases stepped
          exact ⟨inv.paired, inv.current, .clear _ rfl (inv.idle_settled todo)⟩
        · cases stepped
      · cases stepped
  | act =>
      simp only [LeafSlots.step] at stepped
      split at stepped
      · cases stepped
      · rename_i next rest todo
        cases stepped
        exact inv.act todo
  | persist c =>
      cases stepped
      exact inv.persist c

theorem Initial.inv (initial : Initial leaf) : Inv leaf := by
  have possible (c : Cell) : (leaf.words c).possible = [(leaf.words c).value] := by
    rw [Word.possible, initial.settled c, initial.persistent c]
  refine ⟨fun i k key nonzero v val => ?_, fun c => ?_, .idle initial.idle initial.settled⟩
  · rw [possible, List.mem_singleton] at key val
    subst key val
    exact initial.pairs i nonzero
  · rw [Current, possible]
    rfl

end Steps

/-- At every crash point a slot whose persistent key is not zero has a persistent value that was
inserted with this key. -/
theorem crash_pairs {degree : Nat} {start last : Leaf} {events : List Event}
    (initial : Initial start) (run : Run (step degree) free start events last) (i : Nat)
    (present : (last.words (.key i)).persistent ≠ 0) :
    ((last.words (.key i)).persistent, (last.words (.val i)).persistent) ∈ last.inserted := by
  have inv : Inv last := run_invariant Inv initial.inv
    (fun _ _ _ inv _ stepped => inv.step stepped) run
  exact inv.paired i _ List.mem_cons_self present _ List.mem_cons_self

def emptyLeaf : Leaf := ⟨fun _ => ⟨0, 0, [], 0⟩, [], []⟩

-- A slot used for key 5, erased and used for key 6, whose store reaches memory before its flush.
def reused : List Event :=
  [.insert 5 77, .act, .act, .act, .act, .act, .act, .erase 5, .act, .act, .act, .insert 6 78, .act,
    .act, .act, .act, .persist (.key 0)]

theorem reused_pairs :
    ∃ last, Run (step 12) free emptyLeaf reused last ∧ (last.words (.key 0)).persistent = 6 ∧
    ((last.words (.key 0)).persistent, (last.words (.val 0)).persistent) ∈ last.inserted := by
  have key : (replay (step 12) free reused emptyLeaf).map
    (fun leaf => (leaf.words (.key 0)).persistent) = some 6 := by
    decide +kernel
  obtain ⟨last, replayed, six⟩ := Option.map_eq_some_iff.mp key
  have run := run_of_replay reused replayed
  have initial : Initial emptyLeaf :=
    ⟨rfl, fun _ => rfl, fun _ => rfl, fun i nonzero => absurd rfl nonzero⟩
  exact ⟨last, run, six, crash_pairs initial run 0 (by omega)⟩

end SetBench.LeafSlots
