import SetBench.LinkedBlocks
import SetBench.SquareProbing

/-! HashList and HashTable of common/rq/hashlist.h (USE_SIMPLIFIED_HASHLIST): a list whose nodes
are also found through a table. The loops are bounded by a fuel. -/
namespace SetBench.RqHash

open Probing LinkedBlocks

abbrev Addr := Nat

variable {T : Type}

structure HLNode (T : Type) where
  next : Option Addr
  element : T
  hashTableIndex : Int

/-- The table and the list; `fresh` is the next address that new returns, and `htSize` the size
field of the table. -/
structure HashList (T : Type) where
  node : Addr → HLNode T
  fresh : Addr
  data : Nat → Option Addr
  htSize : Nat
  capacity : Nat
  head : Option Addr
  tail : Option Addr
  freeNodes : Option Addr
  size : Nat

-- The finalizer for elements of eight bytes.
@[irreducible] def mix64 (element : BitVec 64) : Nat :=
  let p := element
  let p := p ^^^ (p >>> 33)
  let p := p * 0xff51afd7ed558ccd#64
  let p := p ^^^ (p >>> 33)
  let p := p * 0xc4ceb9fe1a85ec53#64
  (p ^^^ (p >>> 33)).toNat

namespace HashList

section Table

variable [DecidableEq T] (mix : T → Nat)

def hash (s : HashList T) (element : T) : Nat := mix element &&& (s.capacity - 1)

-- (ix + i*i) & (capacity - 1), where the sum is an int32_t.
def nextIx (capacity ix i : Nat) : Nat := (ix + i * i) % 2 ^ 32 &&& (capacity - 1)

def findIxFrom (s : HashList T) (element : T) : Nat → Nat → Nat → Option Nat
  | 0, _, _ => none
  | fuel + 1, ix, i =>
      match s.data ix with
      | none => some ix
      | some a =>
          if (s.node a).element = element then some ix
          else findIxFrom s element fuel (nextIx s.capacity ix (i + 1)) (i + 1)

def findIx (fuel : Nat) (s : HashList T) (element : T) : Option Nat :=
  s.findIxFrom element fuel (s.hash mix element) 0

def find (fuel : Nat) (s : HashList T) (element : T) : Option (Option Addr) :=
  (s.findIx mix fuel element).map s.data

def place (s : HashList T) (a : Addr) (ix : Nat) : HashList T :=
  { s with
    data := Function.update s.data ix (some a)
    node := Function.update s.node a { s.node a with hashTableIndex := ix }
    htSize := s.htSize + 1 }

def grown (s : HashList T) : HashList T :=
  { s with capacity := s.capacity * 2, data := fun _ => none, htSize := 0 }

mutual

def insertNode : Nat → HashList T → Addr → Option Addr → Option (HashList T)
  | 0, _, _, _ => none
  | fuel + 1, s, a, head =>
      (tryExpand fuel s head).bind fun s => (s.findIx mix fuel (s.node a).element).map fun ix =>
      s.place a ix

def tryExpand : Nat → HashList T → Option Addr → Option (HashList T)
  | 0, _, _ => none
  | fuel + 1, s, head =>
      if s.htSize * 2 < s.capacity then some s else reinsert fuel s.grown head head

-- The loop of tryExpand.
def reinsert : Nat → HashList T → Option Addr → Option Addr → Option (HashList T)
  | 0, _, _, _ => none
  | fuel + 1, s, curr, head =>
      match curr with
      | none => some s
      | some a => (insertNode fuel s a head).bind fun s => reinsert fuel s (s.node a).next head

end

-- The loop that clears the table by the list.
def unplace : Nat → HashList T → Option Addr → Option (HashList T)
  | 0, _, _ => none
  | fuel + 1, s, curr =>
      match curr with
      | none => some s
      | some a =>
          unplace fuel
            { s with data := Function.update s.data (s.node a).hashTableIndex.toNat none }
            (s.node a).next

def clearTable (fuel : Nat) (s : HashList T) : Option (HashList T) :=
  if s.htSize * 4 < s.capacity then (s.unplace fuel s.head).map fun s => { s with htSize := 0 }
  else some { s with data := fun ix => if ix < s.capacity then none else s.data ix, htSize := 0 }

def recycle (s : HashList T) : HashList T :=
  match s.tail with
  | none => { s with head := none, tail := none, size := 0 }
  | some t =>
      { s with
        node := Function.update s.node t { s.node t with next := s.freeNodes }
        freeNodes := s.head
        head := none
        tail := none
        size := 0 }

def clear (fuel : Nat) (s : HashList T) : Option (HashList T) := (s.clearTable fuel).map recycle

def allocateNode (s : HashList T) (element : T) : HashList T × Addr :=
  match s.freeNodes with
  | some t =>
      ({ s with
          freeNodes := (s.node t).next
          node := Function.update s.node t { s.node t with element, next := s.head } }, t)
  | none =>
      ({ s with
        node := Function.update s.node s.fresh ⟨s.head, element, -1⟩
        fresh := s.fresh + 1 }, s.fresh)

def contains (fuel : Nat) (s : HashList T) (element : T) : Option Bool :=
  (s.find mix fuel element).map Option.isSome

-- Links the new node in front.
def link (s : HashList T) (a : Addr) : HashList T :=
  { s with tail := if s.head = none then some a else s.tail, head := some a, size := s.size + 1 }

def insert (fuel : Nat) (s : HashList T) (element : T) : Option (HashList T) :=
  (s.find mix fuel element).bind fun found =>
    match found with
    | some _ => some s
    | none => ((s.allocateNode element).1.insertNode mix fuel (s.allocateNode element).2 s.head).map
        fun after => after.link (s.allocateNode element).2

end Table

def init (garbage : Addr → HLNode T) (initialCapacityPow2 : Nat) : HashList T :=
  ⟨garbage, 0, fun _ => none, 0, initialCapacityPow2, none, none, none, 0⟩

end HashList

/-! The table. -/

def cells (s : HashList T) : Cells T := fun ix => (s.data ix).map fun a => (s.node a).element

def probe (mix : T → Nat) (bits : Nat) (x : T) : Nat → Nat := squareProbe bits (mix x)

/-- The nodes `placed` are in the table, with different elements. -/
structure Table (mix : T → Nat) (bits : Nat) (s : HashList T) (placed : List Addr) : Prop where
  capacity : s.capacity = 2 ^ bits
  htSize : s.htSize = placed.length
  held : ∀ a ∈ placed, ∃ ix : Nat, s.data ix = some a ∧ (s.node a).hashTableIndex = ix
  only : ∀ ix a, s.data ix = some a → a ∈ placed
  distinct : (placed.map fun a => (s.node a).element).Nodup
  chained : Chained (cells s) (probe mix bits)

/-- Only the table fields change. -/
structure Keeps (s after : HashList T) : Prop where
  fresh : after.fresh = s.fresh
  head : after.head = s.head
  tail : after.tail = s.tail
  freeNodes : after.freeNodes = s.freeNodes
  size : after.size = s.size
  next : ∀ a, (after.node a).next = (s.node a).next
  element : ∀ a, (after.node a).element = (s.node a).element

theorem Keeps.refl (s : HashList T) : Keeps s s :=
  ⟨rfl, rfl, rfl, rfl, rfl, fun _ => rfl, fun _ => rfl⟩

theorem Keeps.trans {s t u : HashList T} (first : Keeps s t) (second : Keeps t u) : Keeps s u :=
  ⟨second.fresh.trans first.fresh, second.head.trans first.head, second.tail.trans first.tail,
    second.freeNodes.trans first.freeNodes, second.size.trans first.size, fun a =>
      (second.next a).trans (first.next a),
    fun a => (second.element a).trans (first.element a)⟩

section Find

variable [DecidableEq T] {mix : T → Nat} {bits : Nat} {s : HashList T} {placed : List Addr}

theorem findIxFrom_eq (capacity : s.capacity = 2 ^ bits) (small : bits ≤ 32) (x : T)
    (fuel j : Nat) :
    s.findIxFrom x fuel (probe mix bits x j) j = search (cells s) (probe mix bits x) x fuel j := by
  induction fuel generalizing j with
  | zero => rfl
  | succ fuel ih =>
      have next : HashList.nextIx s.capacity (probe mix bits x j) (j + 1) = probe mix bits x
        (j + 1) := by
        rw [HashList.nextIx, capacity, Nat.and_two_pow_sub_one_eq_mod,
          Nat.mod_mod_of_dvd _ (Nat.pow_dvd_pow 2 small)]
        exact (squareProbe_succ bits (mix x) j).symm
      rw [HashList.findIxFrom, search]
      cases held : s.data (probe mix bits x j) with
      | none =>
          have stops : Stops (cells s) x (probe mix bits x j) := by
            left
            rw [cells, held]
            rfl
          rw [if_pos stops]
      | some a =>
          simp only
          by_cases here : (s.node a).element = x
          · have stops : Stops (cells s) x (probe mix bits x j) := by
              right
              rw [cells, held, Option.map_some, here]
            rw [if_pos here, if_pos stops]
          · have passes : ¬ Stops (cells s) x (probe mix bits x j) := by
              rw [Stops, cells, held, Option.map_some, Option.some.injEq]
              rintro (none | same)
              · cases none
              · exact here same
            rw [if_neg here, if_neg passes, next]
            exact ih (j + 1)

omit [DecidableEq T] in
theorem Table.stored (table : Table mix bits s placed) (x : T) :
    Stored (cells s) x ↔ x ∈ placed.map fun a => (s.node a).element := by
  rw [List.mem_map]
  constructor
  · rintro ⟨ix, held⟩
    rw [cells, Option.map_eq_some_iff] at held
    obtain ⟨a, here, same⟩ := held
    exact ⟨a, table.only ix a here, same⟩
  · rintro ⟨a, member, same⟩
    obtain ⟨ix, here, _⟩ := table.held a member
    refine ⟨ix, ?_⟩
    rw [cells, here, Option.map_some, same]

/-- With an empty cell left every search ends. -/
theorem Table.findIx (table : Table mix bits s placed) (small : bits ≤ 32)
    (room : placed.length < 2 ^ bits) (x : T) :
    ∃ j, EndsAt (cells s) (probe mix bits x) x j ∧ Eventually (fun fuel => s.findIx mix fuel x)
      (probe mix bits x j) := by
  have fewer : (placed.map fun a => (s.node a).element).toFinset.card < 2 ^ bits := by
    have := List.toFinset_card_le (placed.map fun a => (s.node a).element)
    rw [List.length_map] at this
    omega
  obtain ⟨ix, inside, empty⟩ :=
    table.chained.exists_empty (fun x stored => List.mem_toFinset.mpr ((table.stored x).mp stored))
    fewer
  obtain ⟨j, _, here⟩ := squareProbe_covers (mix x) inside
  have stops : Stops (cells s) x (probe mix bits x j) := by
    rw [probe, here]
    exact .inl empty
  obtain ⟨i, _, ends⟩ := endsAt_of_stops stops
  refine ⟨i, ends, i + 1, fun fuel enough => ?_⟩
  have start : s.hash mix x = probe mix bits x 0 := by
    rw [HashList.hash, table.capacity, Nat.and_two_pow_sub_one_eq_mod]
    rfl
  change s.findIxFrom x fuel (s.hash mix x) 0 = _
  rw [start, findIxFrom_eq table.capacity small]
  exact search_from ends (Nat.zero_le i) (by omega)

omit [DecidableEq T] in
/-- A node with a new element goes to the empty cell that its search ends at. -/
theorem Table.place (table : Table mix bits s placed) {a : Addr} {j : Nat} (absent : a ∉ placed)
    (ends : EndsAt (cells s) (probe mix bits (s.node a).element) (s.node a).element j)
    (new : (s.node a).element ∉ placed.map fun a => (s.node a).element) :
    Table mix bits (s.place a (probe mix bits (s.node a).element j)) (a :: placed) ∧
      Keeps s (s.place a (probe mix bits (s.node a).element j)) := by
  have element (b : Addr) : ((s.place a (probe mix bits (s.node a).element j)).node b).element =
    (s.node b).element := by
    by_cases here : b = a
    · subst here
      simp [HashList.place]
    · simp [HashList.place, Function.update_of_ne here]
  have empty : cells s (probe mix bits (s.node a).element j) = none := by
    refine ends.stops.resolve_right fun held => new ?_
    exact (table.stored _).mp ⟨_, held⟩
  have vacant : s.data (probe mix bits (s.node a).element j) = none := by
    rw [cells, Option.map_eq_none_iff] at empty
    exact empty
  have updated : cells (s.place a (probe mix bits (s.node a).element j)) =
      Function.update (cells s) (probe mix bits (s.node a).element j)
        (some (s.node a).element) := by
    funext ix
    by_cases here : ix = probe mix bits (s.node a).element j
    · subst here
      rw [cells, Function.update_self]
      simp only [HashList.place, Function.update_self, Option.map_some]
    · rw [Function.update_of_ne here, cells, cells]
      have same : (s.place a (probe mix bits (s.node a).element j)).data ix = s.data ix :=
        Function.update_of_ne here _ _
      rw [same]
      exact congrArg (fun f => (s.data ix).map f) (funext element)
  refine ⟨⟨table.capacity, ?_, ?_, ?_, ?_, ?_⟩, ⟨rfl, rfl, rfl, rfl, rfl, fun b => ?_, element⟩⟩
  · exact congrArg (· + 1) table.htSize
  · intro b member
    rcases List.mem_cons.mp member with rfl | old
    · exact ⟨_, Function.update_self _ _ _, by simp [HashList.place]⟩
    · have apart : b ≠ a := by
        rintro rfl
        exact absent old
      obtain ⟨ix, here, index⟩ := table.held b old
      have away : ix ≠ probe mix bits (s.node a).element j := by
        rintro rfl
        rw [vacant] at here
        cases here
      exact ⟨ix, (Function.update_of_ne away _ _).trans here, by
        simpa [HashList.place, Function.update_of_ne apart] using index⟩
  · intro ix b held
    by_cases here : ix = probe mix bits (s.node a).element j
    · have same : (s.place a (probe mix bits (s.node a).element j)).data ix = some a := by
        rw [here]
        exact Function.update_self _ _ _
      rw [same, Option.some.injEq] at held
      exact held ▸ List.mem_cons_self
    · have same : (s.place a (probe mix bits (s.node a).element j)).data ix = s.data ix :=
        Function.update_of_ne here _ _
      rw [same] at held
      exact List.mem_cons_of_mem _ (table.only ix b held)
  · simp only [List.map_cons, element]
    exact List.nodup_cons.mpr ⟨new, table.distinct⟩
  · rw [updated]
    exact table.chained.put ends
  · by_cases here : b = a
    · subst here
      simp [HashList.place]
    · simp [HashList.place, Function.update_of_ne here]

omit [DecidableEq T] in
theorem Table.perm {other : List Addr} (table : Table mix bits s placed)
    (perm : placed.Perm other) : Table mix bits s other :=
  ⟨table.capacity, table.htSize.trans perm.length_eq,
    fun a member => table.held a (perm.mem_iff.mpr member),
    fun ix a held => perm.mem_iff.mp (table.only ix a held),
      (perm.map _).nodup_iff.mp table.distinct, table.chained⟩

omit [DecidableEq T] in
theorem Table.grown (table : Table mix bits s placed) :
    Table mix (bits + 1) s.grown [] ∧ Keeps s s.grown := by
  refine ⟨⟨?_, rfl, fun a member => (by cases member), fun ix a held => (by cases held),
    List.nodup_nil, chained_empty⟩,
    rfl, rfl, rfl, rfl, rfl, fun _ => rfl, fun _ => rfl⟩
  change s.capacity * 2 = _
  rw [table.capacity, pow_succ]

/-- What insertNode does once there is room. -/
theorem Table.finish (table : Table mix bits s placed) (small : bits ≤ 32)
    (room : placed.length < 2 ^ bits) {a : Addr} (absent : a ∉ placed)
    (new : (s.node a).element ∉ placed.map fun a => (s.node a).element) :
    ∃ after, Eventually (fun fuel => (s.findIx mix fuel (s.node a).element).map fun ix =>
      s.place a ix) after ∧
      Table mix bits after (a :: placed) ∧ Keeps s after := by
  obtain ⟨j, ends, found⟩ := table.findIx small room (s.node a).element
  exact ⟨_, found.map fun ix => s.place a ix, table.place absent ends new⟩

theorem Table.insertNode_fits (table : Table mix bits s placed) (small : bits ≤ 32)
    (room : placed.length * 2 < 2 ^ bits) {a : Addr} (absent : a ∉ placed)
    (new : (s.node a).element ∉ placed.map fun a => (s.node a).element) (head : Option Addr) :
    ∃ after, Eventually (fun fuel => s.insertNode mix fuel a head) after ∧
      Table mix bits after (a :: placed) ∧ Keeps s after := by
  obtain ⟨after, placed, kept⟩ := table.finish small (by omega) absent new
  have fits : Eventually (fun fuel => s.tryExpand mix fuel head) s := by
    refine Eventually.step (.always fun _ => rfl) fun fuel => ?_
    rw [HashList.tryExpand, if_pos (by rw [table.htSize, table.capacity]; exact room)]
  refine ⟨after, ?_, kept⟩
  exact (fits.bind (fun fuel s => (s.findIx mix fuel (s.node a).element).map fun ix => s.place a ix)
    placed).step
    fun fuel => by rw [HashList.insertNode]

/-- The loop of tryExpand puts back the rest of the list. -/
theorem Table.reinsert (table : Table mix bits s placed) (small : bits ≤ 32) {curr : Option Addr}
    {rest : List Addr} (chain : Chain (fun a => (s.node a).next) curr rest)
    (room : (placed.length + rest.length) * 2 ≤ 2 ^ bits) (nodup : (rest ++ placed).Nodup)
    (distinct : ((rest ++ placed).map fun a => (s.node a).element).Nodup) (head : Option Addr) :
    ∃ after, Eventually (fun fuel => s.reinsert mix fuel curr head) after ∧
      Table mix bits after (rest ++ placed) ∧ Keeps s after := by
  induction rest generalizing s placed curr with
  | nil =>
      cases chain
      refine ⟨s, Eventually.step (.always fun _ => rfl) fun fuel => ?_, table, .refl s⟩
      rw [HashList.reinsert]
  | cons a rest ih =>
      cases chain with
      | cons later =>
          rw [List.cons_append, List.nodup_cons] at nodup
          rw [List.cons_append, List.map_cons, List.nodup_cons] at distinct
          rw [List.length_cons] at room
          have absent : a ∉ placed := fun member => nodup.1 (List.mem_append_right _ member)
          have new : (s.node a).element ∉ placed.map fun a => (s.node a).element := by
            intro member
            apply distinct.1
            rw [List.map_append]
            exact List.mem_append_right _ member
          obtain ⟨middle, inserted, placed', kept⟩ :=
            table.insertNode_fits small (by omega) absent new head
          have perm : (rest ++ a :: placed).Perm (a :: rest ++ placed) := List.perm_middle
          obtain ⟨after, reinserted, all, kept'⟩ :=
            ih placed' (later.congr fun b _ => kept.next b) (by rw [List.length_cons]; omega)
            (perm.nodup_iff.mpr (List.nodup_cons.mpr nodup)) (by
              rw [show (fun b => (middle.node b).element) = fun b => (s.node b).element
                from funext kept.element]
              exact (perm.map _).nodup_iff.mpr (List.nodup_cons.mpr distinct))
          refine ⟨after, ?_, all.perm perm, kept.trans kept'⟩
          refine (inserted.bind (fun fuel s => s.reinsert mix fuel (s.node a).next head) ?_).step
            fun fuel => by rw [HashList.reinsert]
          rw [kept.next a]
          exact reinserted

def nextBits (bits count : Nat) : Nat := if count * 2 < 2 ^ bits then bits else bits + 1

/-- insertNode of a node that is not in the list yet, which may first expand the table. -/
theorem Table.insertNode (table : Table mix bits s placed)
    (small : nextBits bits placed.length ≤ 32) (half : placed.length * 2 ≤ 2 ^ bits)
    {head : Option Addr} (chain : Chain (fun a => (s.node a).next) head placed)
    (nodup : placed.Nodup) {a : Addr} (absent : a ∉ placed)
    (new : (s.node a).element ∉ placed.map fun a => (s.node a).element) :
    ∃ after, Eventually (fun fuel => s.insertNode mix fuel a head) after ∧
      Table mix (nextBits bits placed.length) after (a :: placed) ∧ Keeps s after := by
  by_cases room : placed.length * 2 < 2 ^ bits
  · rw [nextBits, if_pos room] at small ⊢
    exact table.insertNode_fits small room absent new head
  · rw [nextBits, if_neg room] at small ⊢
    have double : 2 ^ (bits + 1) = 2 * 2 ^ bits := by ring
    obtain ⟨empty, kept⟩ := table.grown
    obtain ⟨middle, reinserted, all, kept'⟩ :=
      @Table.reinsert T _ mix _ _ _ empty small head placed chain
      (by rw [List.length_nil]; omega) (by rw [List.append_nil]; exact nodup)
      (by rw [List.append_nil]; exact table.distinct) head
    rw [List.append_nil] at all
    have through := kept.trans kept'
    have pos := Nat.two_pow_pos bits
    obtain ⟨after, finished, placed', kept''⟩ := all.finish small (a := a) (by omega) absent (by
      simp only [through.element]
      exact new)
    have expanded : Eventually (fun fuel => s.tryExpand mix fuel head) middle := by
      refine reinserted.step fun fuel => ?_
      rw [HashList.tryExpand, if_neg (by rw [table.htSize, table.capacity]; exact room)]
    refine ⟨after, ?_, placed', through.trans kept''⟩
    exact (expanded.bind (fun fuel s => (s.findIx mix fuel (s.node a).element).map fun ix =>
      s.place a ix) finished).step
      fun fuel => by rw [HashList.insertNode]

end Find

/-! The list and its free nodes. -/

structure Inv (mix : T → Nat) (bits : Nat) (s : HashList T) (list free : List Addr) : Prop where
  table : Table mix bits s list
  half : list.length * 2 ≤ 2 ^ bits
  large : 1 ≤ bits
  chain : Chain (fun a => (s.node a).next) s.head list
  freeChain : Chain (fun a => (s.node a).next) s.freeNodes free
  nodup : (list ++ free).Nodup
  below : ∀ a ∈ list ++ free, a < s.fresh
  tail : s.tail = list.getLast?
  size : s.size = list.length

def elements (s : HashList T) (list : List Addr) : List T := list.map fun a => (s.node a).element

section Calls

variable {mix : T → Nat} {bits : Nat} {s : HashList T} {list free : List Addr}

theorem unplaced {index : Addr → Nat} {data : Nat → Option Addr}
    (only : ∀ ix a, data ix = some a → a ∈ list ∧ index a = ix) :
    list.foldl (fun data a => Function.update data (index a) none) data = fun _ => none := by
  induction list generalizing data with
  | nil =>
      funext ix
      cases held : data ix with
      | none => exact held
      | some a => exact absurd (only ix a held).1 (List.not_mem_nil)
  | cons b rest ih =>
      rw [List.foldl_cons]
      refine ih fun ix a held => ?_
      by_cases here : ix = index b
      · rw [here, Function.update_self] at held
        cases held
      · rw [Function.update_of_ne here] at held
        obtain ⟨member, same⟩ := only ix a held
        rcases List.mem_cons.mp member with rfl | later
        · exact absurd same.symm here
        · exact ⟨later, same⟩

theorem unplace_ends {curr : Option Addr} (chain : Chain (fun a => (s.node a).next) curr list) :
    Eventually (fun fuel => s.unplace fuel curr)
      { s with
        data := list.foldl
          (fun data a => Function.update data (s.node a).hashTableIndex.toNat none) s.data } := by
  induction list generalizing s curr with
  | nil =>
      cases chain
      exact Eventually.step (.always fun _ => rfl) fun fuel => by rw [HashList.unplace]; rfl
  | cons a rest ih =>
      cases chain with
      | cons later =>
          have rest :=
            ih (s := { s with data := Function.update s.data (s.node a).hashTableIndex.toNat none })
            later
          exact rest.step fun fuel => by rw [HashList.unplace]

theorem Table.clearTable (table : Table mix bits s list)
    (chain : Chain (fun a => (s.node a).next) s.head list) :
    Eventually (fun fuel => s.clearTable fuel) { s with data := fun _ => none, htSize := 0 } := by
  have at_index (ix : Nat) (a : Addr) (held : s.data ix = some a) : a ∈ list ∧
    (s.node a).hashTableIndex.toNat = ix := by
    have member := table.only ix a held
    obtain ⟨there, held', index⟩ := table.held a member
    have one : cells s ix = some (s.node a).element := by rw [cells, held, Option.map_some]
    have other : cells s there = some (s.node a).element := by rw [cells, held', Option.map_some]
    rw [table.chained.once one other]
    exact ⟨member, by rw [index, Int.toNat_natCast]⟩
  by_cases few : s.htSize * 4 < s.capacity
  · have cleared := (unplace_ends chain).map fun s : HashList T => { s with htSize := 0 }
    rw [unplaced at_index] at cleared
    obtain ⟨least, ends⟩ := cleared
    refine ⟨least, fun fuel enough => ?_⟩
    rw [← ends fuel enough]
    exact if_pos few
  · refine .always fun fuel => ?_
    have all : (fun ix => if ix < s.capacity then none else s.data ix) = fun _ : Nat =>
      (none : Option Addr) := by
      funext ix
      by_cases inside : ix < s.capacity
      · exact if_pos inside
      · rw [if_neg inside]
        cases held : s.data ix with
        | none => rfl
        | some a =>
            obtain ⟨j, here, _⟩ := table.chained ix (s.node a).element
              (by rw [cells, held, Option.map_some])
            have low := squareProbe_lt bits (mix (s.node a).element) j
            rw [probe] at here
            rw [here, ← table.capacity] at low
            exact absurd low inside
    rw [HashList.clearTable, if_neg few, all]

-- The free nodes are appended to the list that is given up.
theorem chain_append {next : Addr → Option Addr} {head last : Option Addr}
    (chain : Chain next head list) (rest : Chain next last free) {t : Addr}
    (tail : list.getLast? = some t) (nodup : (list ++ free).Nodup) :
    Chain (Function.update next t last) head (list ++ free) := by
  induction list generalizing head with
  | nil => cases tail
  | cons a list ih =>
      cases chain with
      | cons later =>
          rw [List.cons_append, List.nodup_cons] at nodup
          apply Chain.cons
          cases list with
          | nil =>
              simp only [List.getLast?_singleton, Option.some.injEq] at tail
              subst tail
              rw [Function.update_self]
              refine rest.congr fun b member => Function.update_of_ne ?_ _ _
              rintro rfl
              exact nodup.1 member
          | cons b list =>
              rw [List.getLast?_cons_cons] at tail
              have apart : a ≠ t := by
                rintro rfl
                exact nodup.1 (List.mem_append_left _ (List.mem_of_getLast? tail))
              rw [Function.update_of_ne apart]
              exact ih later tail nodup.2

theorem Inv.clear (inv : Inv mix bits s list free) :
    ∃ after, Eventually (fun fuel => s.clear fuel) after ∧
      Inv mix bits after [] (list ++ free) := by
  have cleared := (inv.table.clearTable inv.chain).map HashList.recycle
  refine ⟨_, cleared, ?_⟩
  have tail := inv.tail
  have table (node : Addr → HLNode T) (fresh : Addr) (head tail freeNodes : Option Addr)
    (size : Nat) :
      Table mix bits ⟨node, fresh, fun _ => none, 0, s.capacity, head, tail, freeNodes, size⟩ [] :=
    ⟨inv.table.capacity, rfl, fun a member => (by cases member), fun ix a held => (by cases held),
      List.nodup_nil, chained_empty⟩
  cases last : s.tail with
  | none =>
      rw [last] at tail
      have none_left : list = [] := List.getLast?_eq_none_iff.mp tail.symm
      subst none_left
      simp only [HashList.recycle]
      exact ⟨table _ _ _ _ _ _, by simp, inv.large, .nil, inv.freeChain, inv.nodup, inv.below,
        rfl, rfl⟩
  | some t =>
      rw [last] at tail
      simp only [HashList.recycle]
      refine ⟨table _ _ _ _ _ _, by simp, inv.large, .nil, ?_, inv.nodup, inv.below, rfl, rfl⟩
      have joined := chain_append inv.chain inv.freeChain tail.symm inv.nodup
      refine joined.congr fun a _ => ?_
      by_cases here : a = t
      · subst here
        simp
      · simp [Function.update_of_ne here]

/-! allocateNode and insert. -/

/-- The table does not see a node outside the list. -/
theorem Table.outside (table : Table mix bits s list) {node : Addr → HLNode T}
    (same : ∀ b ∈ list, node b = s.node b) (fresh : Addr) (freeNodes : Option Addr) :
    Table mix bits ⟨node, fresh, s.data, s.htSize, s.capacity, s.head, s.tail, freeNodes, s.size⟩
      list := by
  have unchanged : cells (⟨node, fresh, s.data, s.htSize, s.capacity, s.head, s.tail, freeNodes,
    s.size⟩ : HashList T) = cells s := by
    funext ix
    rw [cells, cells]
    cases held : s.data ix with
    | none => rfl
    | some a => simp only [Option.map_some, same a (table.only ix a held)]
  refine ⟨table.capacity, table.htSize, fun a member => ?_, table.only, ?_, ?_⟩
  · obtain ⟨ix, held, index⟩ := table.held a member
    exact ⟨ix, held, by simp only [same a member]; exact index⟩
  · have elements : (list.map fun a => (node a).element) = list.map fun a => (s.node a).element :=
      List.map_congr_left fun a member => by rw [same a member]
    simp only [elements]
    exact table.distinct
  · rw [unchanged]
    exact table.chained

/-- A node for `x`, in front of the list and outside of it. -/
theorem Inv.allocate (inv : Inv mix bits s list free) (x : T) :
    ∃ free', (s.allocateNode x).2 ∉ list ++ free' ∧
      (s.allocateNode x).2 < (s.allocateNode x).1.fresh ∧
      ((s.allocateNode x).1.node (s.allocateNode x).2).element = x ∧
      ((s.allocateNode x).1.node (s.allocateNode x).2).next = s.head ∧ (s.allocateNode x).1.head =
      s.head ∧
      (∀ b ∈ list, (s.allocateNode x).1.node b = s.node b) ∧ Inv mix bits (s.allocateNode x).1 list
      free' := by
  cases top : s.freeNodes with
  | none =>
      have fresh : s.fresh ∉ list ++ free := fun member => Nat.lt_irrefl _ (inv.below _ member)
      have same (b : Addr) (member : b ∈ list ++ free) :
        Function.update s.node s.fresh ⟨s.head, x, -1⟩ b = s.node b := by
        refine Function.update_of_ne ?_ _ _
        rintro rfl
        exact fresh member
      have unlisted (b : Addr) (member : b ∈ list) := same b (List.mem_append_left _ member)
      have allocated : s.allocateNode x =
          ({ s with node := Function.update s.node s.fresh ⟨s.head, x, -1⟩, fresh := s.fresh + 1 },
            s.fresh) := by
        rw [HashList.allocateNode, top]
      rw [allocated]
      refine ⟨free, fresh, Nat.lt_succ_self _, by simp, by simp, rfl, unlisted, ?_⟩
      refine ⟨inv.table.outside unlisted _ _, inv.half, inv.large, ?_, ?_, inv.nodup,
        fun a member => ?_, inv.tail, inv.size⟩
      · exact inv.chain.congr fun b member => by simp only [unlisted b member]
      · exact inv.freeChain.congr fun b member => by
          simp only [same b (List.mem_append_right _ member)]
      · exact Nat.lt_succ_of_lt (inv.below a member)
  | some t =>
      have freeChain := inv.freeChain
      rw [top] at freeChain
      obtain ⟨rest, rfl, later⟩ := freeChain.some
      have nodup := inv.nodup
      have split : (list ++ t :: rest).Perm (t :: (list ++ rest)) := List.perm_middle
      have apart := List.nodup_cons.mp (split.nodup_iff.mp nodup)
      have same (b : Addr) (member : b ∈ list ++ rest) :
          Function.update s.node t { s.node t with element := x, next := s.head } b = s.node b := by
        refine Function.update_of_ne ?_ _ _
        rintro rfl
        exact apart.1 member
      have unlisted (b : Addr) (member : b ∈ list) := same b (List.mem_append_left _ member)
      have allocated : s.allocateNode x = ({ s with
          freeNodes := (s.node t).next
          node := Function.update s.node t { s.node t with element := x, next := s.head } },
            t) := by
        rw [HashList.allocateNode, top]
      rw [allocated]
      refine ⟨rest, apart.1, inv.below t (split.mem_iff.mpr List.mem_cons_self), by simp, by simp,
        rfl, unlisted, ?_⟩
      refine ⟨inv.table.outside unlisted _ _, inv.half, inv.large, ?_, ?_, apart.2,
        fun a member => ?_, inv.tail, inv.size⟩
      · exact inv.chain.congr fun b member => by simp only [unlisted b member]
      · exact later.congr fun b member => by simp only [same b (List.mem_append_right _ member)]
      · exact inv.below a (split.mem_iff.mpr (List.mem_cons_of_mem _ member))

variable [DecidableEq T]

theorem Inv.find (inv : Inv mix bits s list free) (small : bits ≤ 32) (x : T) :
    ∃ found, Eventually (fun fuel => s.find mix fuel x) found ∧
      (found ≠ none ↔ x ∈ elements s list) := by
  have room : list.length < 2 ^ bits := by
    have := inv.half
    have := Nat.two_pow_pos bits
    omega
  obtain ⟨j, ends, found⟩ := inv.table.findIx small room x
  refine ⟨_, found.map s.data, ?_⟩
  rw [elements, ← inv.table.stored, ← inv.table.chained.found_iff ends]
  rcases ends.stops with empty | held
  · have vacant : s.data (probe mix bits x j) = none := by
      rw [cells, Option.map_eq_none_iff] at empty
      exact empty
    simp [vacant, empty]
  · rw [held]
    have full : s.data (probe mix bits x j) ≠ none := by
      intro none
      rw [cells, none] at held
      cases held
    simp [full]

theorem Inv.contains (inv : Inv mix bits s list free) (small : bits ≤ 32) (x : T) :
    Eventually (fun fuel => s.contains mix fuel x) (decide (x ∈ elements s list)) := by
  obtain ⟨found, ends, known⟩ := inv.find small x
  have answer : found.isSome = decide (x ∈ elements s list) := by
    rw [Bool.eq_iff_iff, decide_eq_true_iff, ← known, Option.isSome_iff_ne_none]
  rw [← answer]
  exact ends.map Option.isSome

theorem Inv.insert (inv : Inv mix bits s list free) (small : bits ≤ 32)
    (room : nextBits bits list.length ≤ 32) (x : T) :
    (x ∈ elements s list ∧ Eventually (fun fuel => s.insert mix fuel x) s) ∨
    (x ∉ elements s list ∧ ∃ after list' free', Eventually (fun fuel => s.insert mix fuel x) after ∧
      Inv mix (nextBits bits list.length) after list' free' ∧ elements after list' =
        x :: elements s list) := by
  obtain ⟨found, ends, known⟩ := inv.find small x
  cases found with
  | some a =>
      have member : x ∈ elements s list := known.mp (by simp)
      refine .inl ⟨member, ?_⟩
      exact ends.bind _ (.always fun _ => rfl)
  | none =>
      have missing : x ∉ elements s list := fun member => absurd rfl (known.mpr member)
      refine .inr ⟨missing, ?_⟩
      obtain ⟨free', outside, low, element, next, head, same, inv'⟩ := inv.allocate x
      generalize allocated : s.allocateNode x = pair at outside low element next head same inv'
      obtain ⟨t, a⟩ := pair
      simp only at outside low element next head same inv'
      have unchanged : (list.map fun b => (t.node b).element) = elements s list :=
        List.map_congr_left fun b member => by rw [same b member]
      have absent : a ∉ list := fun member => outside (List.mem_append_left _ member)
      obtain ⟨after, inserted, table, kept⟩ :=
        inv'.table.insertNode room inv'.half (show Chain _ s.head list from head ▸ inv'.chain)
        (List.nodup_append.mp inv'.nodup).1 absent (by rw [element, unchanged]; exact missing)
      have even : (list.length + 1) * 2 ≤ 2 ^ nextBits bits list.length := by
        have double : 2 ^ (bits + 1) = 2 * 2 ^ bits := by ring
        have half := inv.half
        have large := inv.large
        have twice : 2 ^ bits = 2 * 2 ^ (bits - 1) := by
          rw [← pow_succ', Nat.sub_add_cancel large]
        rw [nextBits]
        split
        · omega
        · have := Nat.two_pow_pos (bits - 1)
          omega
      refine ⟨after.link a, a :: list, free', ?_, ?_, ?_⟩
      · refine ends.bind _ ?_
        simp only [allocated]
        exact inserted.map fun after => after.link a
      · refine ⟨⟨table.capacity, table.htSize, table.held, table.only, table.distinct,
          table.chained⟩, even, ?_, ?_, ?_, ?_, ?_, ?_, ?_⟩
        · have := inv.large
          rw [nextBits]
          split <;> omega
        · refine .cons ?_
          change Chain _ (after.node a).next list
          rw [kept.next a, next, ← head]
          exact inv'.chain.congr fun b _ => kept.next b
        · change Chain _ after.freeNodes free'
          rw [kept.freeNodes]
          exact inv'.freeChain.congr fun b _ => kept.next b
        · exact List.nodup_cons.mpr ⟨outside, inv'.nodup⟩
        · intro b member
          change b < after.fresh
          rw [kept.fresh]
          rcases List.mem_cons.mp member with rfl | old
          · exact low
          · exact inv'.below b old
        · change (if after.head = none then some a else after.tail) = _
          rw [kept.head, head, kept.tail, inv'.tail]
          cases list with
          | nil =>
              have empty := inv.chain
              generalize s.head = first at empty
              cases empty
              rfl
          | cons b rest =>
              have chain := inv.chain
              generalize s.head = first at chain
              cases chain
              rw [if_neg (by simp), List.getLast?_cons_cons]
        · change after.size + 1 = _
          rw [kept.size, inv'.size]
          rfl
      · change (after.node a).element :: list.map (fun b => (after.node b).element) = _
        simp only [kept.element, element, unchanged]

end Calls

/-! Runs. -/

inductive Call (T : Type) where
  | insert (x : T)
  | contains (x : T)
  | clear

/-- What the calls stand for: the elements since the last clear, and how large the table is then. -/
structure Content (T : Type) where
  elements : Finset T
  capacity : Nat

section Run

variable [DecidableEq T] (mix : T → Nat)

def HashList.call (fuel : Nat) (s : HashList T) : Call T → Option (HashList T)
  | .insert x => s.insert mix fuel x
  | .contains x => (s.contains mix fuel x).map fun _ => s
  | .clear => s.clear fuel

def HashList.run (fuel : Nat) (s : HashList T) : List (Call T) → Option (HashList T)
  | [] => some s
  | call :: rest => (s.call mix fuel call).bind fun s => run fuel s rest

-- The position of the probe loop after `j` steps.
def HashList.position (s : HashList T) (x : T) : Nat → Nat
  | 0 => s.hash mix x
  | j + 1 => HashList.nextIx s.capacity (HashList.position s x j) (j + 1)

def Content.call (content : Content T) : Call T → Content T
  | .insert x =>
      if x ∈ content.elements then content
      else ⟨Insert.insert x content.elements,
        if content.elements.card * 2 < content.capacity then content.capacity
        else content.capacity * 2⟩
  | .contains _ => content
  | .clear => ⟨∅, content.capacity⟩

def contentOf (initialCapacityPow2 : Nat) (calls : List (Call T)) : Content T :=
  calls.foldl Content.call ⟨∅, initialCapacityPow2⟩

/-- The list answers for `content`, and every probe of it comes to every cell. -/
structure Answers (s : HashList T) (content : Content T) : Prop where
  capacity : s.capacity = content.capacity
  size : s.size = content.elements.card
  contains : ∀ x, Eventually (fun fuel => s.contains mix fuel x) (decide (x ∈ content.elements))
  covers : ∀ x, ∀ ix < s.capacity, ∃ j < 2 * s.capacity, s.position mix x j = ix

variable {mix} {bits : Nat} {s : HashList T} {list free : List Addr} {content : Content T}

structure Shows (mix : T → Nat) (bits : Nat) (s : HashList T) (list free : List Addr)
    (content : Content T) : Prop where
  inv : Inv mix bits s list free
  members : content.elements = (elements s list).toFinset
  capacity : content.capacity = 2 ^ bits

omit [DecidableEq T] in
theorem pow_small {bits : Nat} (below : 2 ^ bits < 2 ^ 31) : bits < 31 :=
  (Nat.pow_lt_pow_iff_right (by decide : 1 < 2)).mp below

theorem Shows.card (shows : Shows mix bits s list free content) :
    content.elements.card = list.length := by
  rw [shows.members, elements, List.toFinset_card_of_nodup shows.inv.table.distinct,
    List.length_map]

theorem Shows.answers (shows : Shows mix bits s list free content)
    (below : content.capacity < 2 ^ 31) : Answers mix s content := by
  have inv := shows.inv
  rw [shows.capacity] at below
  have small : bits ≤ 32 := by
    have := pow_small below
    omega
  refine ⟨inv.table.capacity.trans shows.capacity.symm, inv.size.trans shows.card.symm, fun x => ?_,
    fun x ix inside => ?_⟩
  · have answer := inv.contains small x
    have same : decide (x ∈ elements s list) = decide (x ∈ content.elements) := by
      rw [shows.members]
      simp only [List.mem_toFinset]
    rw [← same]
    exact answer
  · rw [inv.table.capacity] at inside
    obtain ⟨j, early, here⟩ := squareProbe_covers (mix x) inside
    refine ⟨j, by rw [inv.table.capacity, ← pow_succ']; exact early, ?_⟩
    rw [← here]
    clear early here inside
    induction j with
    | zero =>
        rw [HashList.position, HashList.hash, inv.table.capacity, Nat.and_two_pow_sub_one_eq_mod]
        rfl
    | succ j ih =>
        rw [HashList.position, ih, HashList.nextIx, inv.table.capacity,
          Nat.and_two_pow_sub_one_eq_mod,
          Nat.mod_mod_of_dvd _ (Nat.pow_dvd_pow 2 small)]
        exact (squareProbe_succ bits (mix x) j).symm

theorem Shows.call (shows : Shows mix bits s list free content) (call : Call T)
    (below : content.capacity < 2 ^ 31) :
    ∃ bits' after list' free', Eventually (fun fuel => s.call mix fuel call) after ∧
      Shows mix bits' after list' free' (content.call call) := by
  have inv := shows.inv
  have low : bits < 31 := by
    rw [shows.capacity] at below
    exact pow_small below
  cases call with
  | contains x =>
      exact ⟨bits, s, list, free, (inv.contains (by omega) x).map fun _ => s, shows⟩
  | clear =>
      obtain ⟨after, cleared, inv'⟩ := inv.clear
      exact ⟨bits, after, [], list ++ free, cleared, inv', rfl, shows.capacity⟩
  | insert x =>
      have room : nextBits bits list.length ≤ 32 := by
        rw [nextBits]
        split <;> omega
      have known : x ∈ content.elements ↔ x ∈ elements s list := by
        rw [shows.members, List.mem_toFinset]
      rcases inv.insert (by omega) room x with ⟨present, done⟩ | ⟨absent, after, list', free', done,
        inv', elements'⟩
      · have same : content.call (.insert x) = content := if_pos (known.mpr present)
        rw [same]
        exact ⟨bits, s, list, free, done, shows⟩
      · have next : content.call (.insert x) = ⟨Insert.insert x content.elements,
            if content.elements.card * 2 < content.capacity then content.capacity
            else content.capacity * 2⟩ :=
          if_neg fun member => absent (known.mp member)
        rw [next]
        refine ⟨_, after, list', free', done, inv', ?_, ?_⟩
        · rw [elements', List.toFinset_cons, shows.members]
        · rw [shows.card, shows.capacity, nextBits]
          by_cases fits : list.length * 2 < 2 ^ bits
          · rw [if_pos fits, if_pos fits]
          · rw [if_neg fits, if_neg fits, pow_succ]

theorem Shows.run (shows : Shows mix bits s list free content) (calls : List (Call T))
    (below : ∀ before, before <+: calls → (before.foldl Content.call content).capacity < 2 ^ 31) :
    ∃ after, Eventually (fun fuel => s.run mix fuel calls) after ∧
      Answers mix after (calls.foldl Content.call content) := by
  induction calls generalizing bits s list free content with
  | nil => exact ⟨s, .always fun _ => rfl, shows.answers (below [] List.nil_prefix)⟩
  | cons call rest ih =>
      obtain ⟨bits', middle, list', free', called, shows'⟩ :=
        shows.call call (below [] List.nil_prefix)
      obtain ⟨after, ran, answers⟩ := ih shows' fun before start =>
        below (call :: before) (List.cons_prefix_cons.mpr ⟨rfl, start⟩)
      have whole : Eventually (fun fuel => (s.call mix fuel call).bind
        (fun s => s.run mix fuel rest)) after :=
        called.bind (fun fuel s => s.run mix fuel rest) ran
      exact ⟨after, whole, answers⟩

/-- Every run of calls, as long as the table stays below 2^31 cells, ends with a list that is
the set of the elements inserted since the last clear. -/
theorem hashList_answers (mix : T → Nat) (garbage : Addr → HLNode T) {initialBits : Nat}
    (atLeastTwo : 1 ≤ initialBits) (calls : List (Call T))
    (below : ∀ before, before <+: calls → (contentOf (2 ^ initialBits) before).capacity < 2 ^ 31) :
    ∃ s, Eventually (fun fuel => (HashList.init garbage (2 ^ initialBits)).run mix fuel calls) s ∧
      Answers mix s (contentOf (2 ^ initialBits) calls) := by
  have empty : Shows mix initialBits (HashList.init garbage (2 ^ initialBits)) [] []
    ⟨∅, 2 ^ initialBits⟩ := by
    refine ⟨⟨⟨rfl, rfl, fun a member => ?_, fun ix a held => ?_, List.nodup_nil, chained_empty⟩, by
      simp, atLeastTwo, .nil, .nil,
      List.nodup_nil, fun a member => ?_, rfl, rfl⟩, rfl, rfl⟩
    · cases member
    · cases held
    · cases member
  exact empty.run calls below

end Run

-- Three insertions expand a table of two cells; the nodes are used again after clear.
def expanding : List (Call (BitVec 64)) := [.insert 1, .insert 2, .insert 3, .clear, .insert 4]

theorem hashList_expands :
    ∃ s, Eventually (fun fuel => (HashList.init (fun _ => ⟨none, 0, -1⟩) (2 ^ 1)).run mix64 fuel
      expanding) s ∧
    Answers mix64 s (contentOf (2 ^ 1) expanding) := by
  refine hashList_answers mix64 (fun _ => ⟨none, 0, -1⟩) (Nat.le_refl 1) expanding
    fun before start => ?_
  have all : ∀ before ∈ expanding.inits, (contentOf (2 ^ 1) before).capacity < 2 ^ 31 := by
    decide +kernel
  exact all before ((List.mem_inits _ _).mpr start)

end SetBench.RqHash
