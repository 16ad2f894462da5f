import SetBench.ArtUpdate

/-! The other form of indirect nodes (art.h without OrderedIndirectNodes): idx[256] gives the
position of each byte in `ptr`, or -1, and a new child goes behind the ones that are there.
The ordered form refines it along every run of add_child. -/
namespace SetBench.Art

open Bitmap Radix

inductive Places where
  | full
  | indirect (idx : Nat → Int)
  | sparse (keys : List Nat)

structure IndexNode (K : Type) where
  places : Places
  size : Nat
  byteNum : Nat
  key : K
  ptr : List (Option Addr)
  removed : Bool

variable {K : Type}

def Places.find : Places → Nat → Option Nat
  | .full, byteval => some byteval
  | .indirect idx, byteval => if idx byteval = -1 then none else some (idx byteval).toNat
  | .sparse keys, byteval => keys.findIdx? (· == byteval)

def Places.slot (places : Places) (ptr : List (Option Addr)) (byteval : Nat) :
    Option (Option Addr) :=
  (places.find byteval).bind fun index => ptr[index]?

namespace IndexNode

def ofSparse (p : Inner K) (keys : List Nat) : IndexNode K :=
  ⟨.sparse keys, p.size, p.byteNum, p.key, p.ptr, p.removed⟩

def getChild [RadixKey K] (p : IndexNode K) (k : K) : Option Nat :=
  p.places.find (RadixKey.byte k p.byteNum)

def isFull (p : IndexNode K) : Bool :=
  match p.places with
  | .full => false
  | .indirect _ => p.size == maxIndirectSize
  | .sparse _ => p.size == maxSparseSize

-- init_child of an indirect node whose size already counts the new child.
def initChild (size : Nat) (idx : Nat → Int) (ptr : List (Option Addr)) (byteval : Nat) (c : Addr) :
    (Nat → Int) × List (Option Addr) :=
  (fun other => if other = byteval then size - 1 else idx other, ptr.set (size - 1) (some c))

def placeEntry (keys : List Nat) (loaded : List (Option Addr))
    (state : (Nat → Int) × List (Option Addr)) (i : Nat) :
    (Nat → Int) × List (Option Addr) :=
  (fun other => if other = keys.getD i 0 then i else state.1 other,
    state.2.set i (loaded.getD i none))

def sparseToIndirect (p : IndexNode K) (keys : List Nat) (byteval : Nat) (c : Addr) : IndexNode K :=
  let placed := (List.range maxSparseSize).foldl (placeEntry keys p.ptr)
    (fun _ => -1, List.replicate (maxSparseSize + 1) none)
  let filled := initChild (maxSparseSize + 1) placed.1 placed.2 byteval c
  ⟨.indirect filled.1, maxSparseSize + 1, p.byteNum, p.key, filled.2, false⟩

def indirectToIndirect (p : IndexNode K) (idx : Nat → Int) (byteval : Nat) (c : Addr) :
    IndexNode K :=
  let ptr := (List.range p.size).foldl (fun ptr i => ptr.set i (p.ptr.getD i none))
    (List.replicate (p.size + 1) none)
  let filled := initChild (p.size + 1) idx ptr byteval c
  ⟨.indirect filled.1, p.size + 1, p.byteNum, p.key, filled.2, false⟩

def spreadIndex (idx : Nat → Int) (loaded children : List (Option Addr)) (i : Nat) :
    List (Option Addr) :=
  if idx i ≠ -1 then children.set i (loaded.getD (idx i).toNat none) else children

def indirectToFull (p : IndexNode K) (idx : Nat → Int) (byteval : Nat) (c : Addr) : IndexNode K :=
  let children := (List.range 256).foldl (spreadIndex idx p.ptr) (List.replicate 256 none)
  ⟨.full, 0, p.byteNum, p.key, children.set byteval (some c), false⟩

def sparseToSparse (p : IndexNode K) (keys : List Nat) (byteval : Nat) (c : Addr) : IndexNode K :=
  ⟨.sparse (keys ++ [byteval]), p.size + 1, p.byteNum, p.key, p.ptr ++ [some c], false⟩

/-- A slot that is there is written in place, as in every full node; otherwise the node is
copied. -/
def addChild [RadixKey K] (p : IndexNode K) (k : K) (c : Addr) : IndexNode K :=
  let byteval := RadixKey.byte k p.byteNum
  match p.getChild k, p.places with
  | some index, _ => { p with ptr := p.ptr.set index (some c) }
  | none, .full => p
  | none, .indirect idx =>
      if p.isFull then indirectToFull p idx byteval c else indirectToIndirect p idx byteval c
  | none, .sparse keys =>
      if p.isFull then sparseToIndirect p keys byteval c else sparseToSparse p keys byteval c

end IndexNode

/-- The same step in the ordered form. -/
def Inner.addChild [RadixKey K] (p : Inner K) (k : K) (c : Addr) : Inner K :=
  match p.getChild k with
  | some index => p.setChild index (some c)
  | none => copyNode maxSparseSize p p.ptr k c

/-! What each copy of the index form keeps. -/

namespace IndexNode

section Copies

variable {keys : List Nat} {loaded : List (Option Addr)} {idx : Nat → Int}

structure PlacedUpTo (keys : List Nat) (loaded : List (Option Addr)) (slots count : Nat)
    (state : (Nat → Int) × List (Option Addr)) : Prop where
  length : state.2.length = slots
  entries : ∀ i < count, state.2[i]? = some (loaded.getD i none)
  placed : ∀ i < count, state.1 (keys.getD i 0) = i
  empty : ∀ byteval, byteval ∉ keys → state.1 byteval = -1

theorem placed_range (loaded : List (Option Addr)) (nodup : keys.Nodup) {slots count : Nat}
    (bound : count ≤ keys.length) (room : keys.length ≤ slots) :
    PlacedUpTo keys loaded slots count
      ((List.range count).foldl (placeEntry keys loaded)
        (fun _ => -1, List.replicate slots none)) := by
  induction count with
  | zero =>
      exact ⟨List.length_replicate, fun i low => absurd low (Nat.not_lt_zero i),
        fun i low => absurd low (Nat.not_lt_zero i), fun _ _ => rfl⟩
  | succ count ih =>
      obtain ⟨length, entries, placed, empty⟩ := ih (by omega)
      rw [List.range_succ, List.foldl_append, List.foldl_cons, List.foldl_nil]
      generalize (List.range count).foldl (placeEntry keys loaded)
        (fun _ => -1, List.replicate slots none) = state at *
      refine ⟨by rw [placeEntry, List.length_set, length], fun i low => ?_, fun i low => ?_,
        fun byteval absent => ?_⟩
      · by_cases here : i = count
        · subst here
          exact List.getElem?_set_self (by omega)
        · rw [placeEntry, List.getElem?_set_ne (Ne.symm here)]
          exact entries i (by omega)
      · by_cases here : i = count
        · subst here
          simp [placeEntry]
        · have apart : keys.getD i 0 ≠ keys.getD count 0 := by
            simp only [List.getD_eq_getElem?_getD,
              List.getElem?_eq_getElem (show i < keys.length by omega),
              List.getElem?_eq_getElem (show count < keys.length by omega), Option.getD_some]
            intro same
            exact here ((List.Nodup.getElem_inj_iff nodup).mp same)
          simp only [placeEntry, if_neg apart]
          exact placed i (by omega)
      · have apart : byteval ≠ keys.getD count 0 := by
          rintro rfl
          apply absent
          rw [List.getD_eq_getElem?_getD,
            List.getElem?_eq_getElem (show count < keys.length by omega)]
          exact List.getElem_mem _
        simp only [placeEntry, if_neg apart]
        exact empty byteval absent

theorem copied_entries (loaded : List (Option Addr)) {count slots : Nat} (room : count ≤ slots) :
    ((List.range count).foldl (fun ptr i => ptr.set i (loaded.getD i none))
      (List.replicate slots none)).length = slots ∧
    ∀ i < count, ((List.range count).foldl (fun ptr i => ptr.set i (loaded.getD i none))
      (List.replicate slots none))[i]? = some (loaded.getD i none) := by
  induction count with
  | zero => exact ⟨List.length_replicate, fun i low => absurd low (Nat.not_lt_zero i)⟩
  | succ count ih =>
      obtain ⟨length, entries⟩ := ih (by omega)
      rw [List.range_succ, List.foldl_append, List.foldl_cons, List.foldl_nil]
      refine ⟨by rw [List.length_set, length], fun i low => ?_⟩
      by_cases here : i = count
      · subst here
        exact List.getElem?_set_self (by omega)
      · rw [List.getElem?_set_ne (Ne.symm here)]
        exact entries i (by omega)

theorem spread_index (idx : Nat → Int) (loaded : List (Option Addr)) {count : Nat}
    (bound : count ≤ 256) :
    ((List.range count).foldl (spreadIndex idx loaded) (List.replicate 256 none)).length = 256 ∧
    ∀ byteval < 256, ((List.range count).foldl (spreadIndex idx loaded)
      (List.replicate 256 none))[byteval]? =
      some (if byteval < count ∧ idx byteval ≠ -1 then loaded.getD (idx byteval).toNat none else
        none) := by
  induction count with
  | zero =>
      refine ⟨List.length_replicate, fun byteval below => ?_⟩
      rw [if_neg (fun held => Nat.not_lt_zero _ held.1)]
      exact List.getElem?_replicate_of_lt below
  | succ count ih =>
      obtain ⟨length, entries⟩ := ih (by omega)
      rw [List.range_succ, List.foldl_append, List.foldl_cons, List.foldl_nil]
      generalize (List.range count).foldl (spreadIndex idx loaded) (List.replicate 256 none) =
        state at *
      by_cases present : idx count = -1
      · rw [spreadIndex, if_neg (not_not.mpr present)]
        refine ⟨length, fun byteval below => ?_⟩
        rw [entries byteval below]
        by_cases here : byteval = count
        · subst here
          simp [present]
        · simp only [show byteval < count + 1 ↔ byteval < count by omega]
      · rw [spreadIndex, if_pos present]
        refine ⟨by rw [List.length_set, length], fun byteval below => ?_⟩
        by_cases here : byteval = count
        · subst here
          rw [List.getElem?_set_self (by omega), if_pos ⟨Nat.lt_succ_self _, present⟩]
        · rw [List.getElem?_set_ne (Ne.symm here), entries byteval below]
          simp only [show byteval < count + 1 ↔ byteval < count by omega]

end Copies

end IndexNode

theorem find_index (idx : Nat → Int) (byteval : Nat) : (Places.indirect idx).find byteval =
    if idx byteval = -1 then none else some (idx byteval).toNat := rfl

theorem find_keys (keys : List Nat) (byteval : Nat) :
    (Places.sparse keys).find byteval = (Layout.sparse keys).find byteval := rfl

/-- Capacities and consistency of a node of the index form. -/
def Places.Ok (size slots : Nat) : Places → Prop
  | .full => slots = 256
  | .indirect idx =>
      slots = size ∧ (∀ byteval < 256, idx byteval ≠ -1 → 0 ≤ idx byteval ∧ idx byteval < size) ∧
      ∀ one < 256, ∀ other < 256, idx one ≠ -1 → idx one = idx other → one = other
  | .sparse keys => slots = size ∧ keys.length = size ∧ keys.Nodup

namespace IndexNode

def Ok (p : IndexNode K) : Prop := p.places.Ok p.size p.ptr.length

variable {p : IndexNode K} {byteval : Nat} {c : Addr}

theorem initChild_index {size : Nat} {idx : Nat → Int} {ptr : List (Option Addr)}
    (inside : ∀ other < 256, other ≠ byteval → idx other ≠ -1 → 0 ≤ idx other ∧ idx other < size)
    (apart : ∀ one < 256, ∀ other < 256, one ≠ byteval → other ≠ byteval → idx one ≠ -1 →
      idx one = idx other → one = other)
    (slots : ptr.length = size + 1) :
    (Places.indirect (initChild (size + 1) idx ptr byteval c).1).Ok (size + 1)
      (initChild (size + 1) idx ptr byteval c).2.length := by
  refine ⟨by rw [initChild, List.length_set, slots], fun other below used => ?_,
    fun one low other below used same => ?_⟩
  · simp only [initChild] at used ⊢
    by_cases here : other = byteval
    · rw [if_pos here]
      omega
    · rw [if_neg here] at used ⊢
      have := inside other below here used
      omega
  · simp only [initChild] at used same
    by_cases first : one = byteval
    · by_cases second : other = byteval
      · rw [first, second]
      · rw [if_pos first, if_neg second] at same
        have := inside other below second (by omega)
        omega
    · rw [if_neg first] at used same
      by_cases second : other = byteval
      · rw [if_pos second] at same
        have := inside one low first used
        omega
      · rw [if_neg second] at same
        exact apart one low other below first second used same

theorem initChild_slot {size : Nat} {idx : Nat → Int} {ptr : List (Option Addr)}
    (inside : ∀ other < 256, other ≠ byteval → idx other ≠ -1 → 0 ≤ idx other ∧ idx other < size)
    (slots : ptr.length = size + 1) (other : Nat) (below : other < 256) :
    (Places.indirect (initChild (size + 1) idx ptr byteval c).1).slot
    (initChild (size + 1) idx ptr byteval c).2 other =
      if other = byteval then some (some c) else (Places.indirect idx).slot ptr other := by
  rw [Places.slot, Places.slot, find_index, find_index]
  by_cases here : other = byteval
  · simp only [initChild, if_pos here]
    rw [if_neg (by omega), Option.bind_some]
    have last : ((size + 1 : Nat) - 1 : Int).toNat = size := by omega
    rw [last]
    exact List.getElem?_set_self (by omega)
  · simp only [initChild, if_neg here]
    by_cases used : idx other = -1
    · rw [if_pos used, Option.bind_none, Option.bind_none]
    · have := inside other below here used
      rw [if_neg used, Option.bind_some, Option.bind_some]
      exact List.getElem?_set_ne (by omega)

/-- Each copy keeps the node in order and its slots with their pointers. -/
theorem sparseToIndirect_keeps (byteval : Nat) {keys : List Nat}
    (sparse : p.places = .sparse keys) (ok : p.Ok) (full : p.size = maxSparseSize) :
    (sparseToIndirect p keys byteval c).Ok ∧ ∀ other < 256,
      (sparseToIndirect p keys byteval c).places.slot (sparseToIndirect p keys byteval c).ptr
      other =
        if other = byteval then some (some c) else p.places.slot p.ptr other := by
  rw [Ok, sparse] at ok
  obtain ⟨slots, count, nodup⟩ := ok
  have placed := placed_range p.ptr nodup (Nat.le_of_eq (full.symm.trans count.symm))
    (show keys.length ≤ maxSparseSize + 1 by omega)
  generalize state_eq : (List.range maxSparseSize).foldl (placeEntry keys p.ptr)
    (fun _ => -1, List.replicate (maxSparseSize + 1) none) = state at placed
  have at_key {i other : Nat} (here : keys[i]? = some other) : i < maxSparseSize ∧ state.1 other =
    i := by
    obtain ⟨bound, same⟩ := List.getElem?_eq_some_iff.mp here
    have held := placed.placed i (by omega)
    rw [List.getD_eq_getElem?_getD, here] at held
    exact ⟨by omega, held⟩
  have used_key {other : Nat} (used : state.1 other ≠ -1) : ∃ i : Nat, keys[i]? = some other := by
    by_contra none
    apply used
    apply placed.empty
    intro member
    exact none (List.mem_iff_getElem?.mp member)
  have inside (other : Nat) (_ : other < 256) (_ : other ≠ byteval) (used : state.1 other ≠ -1) :
      0 ≤ state.1 other ∧ state.1 other < maxSparseSize := by
    obtain ⟨i, here⟩ := used_key used
    have := at_key here
    omega
  have apart (one : Nat) (_ : one < 256) (other : Nat) (_ : other < 256) (_ : one ≠ byteval)
    (_ : other ≠ byteval)
      (used : state.1 one ≠ -1) (same : state.1 one = state.1 other) : one = other := by
    obtain ⟨i, here⟩ := used_key used
    obtain ⟨j, there⟩ := used_key (same ▸ used)
    have first := at_key here
    have second := at_key there
    have : i = j := by omega
    subst this
    exact Option.some.inj (here.symm.trans there)
  refine ⟨?_, fun other below => ?_⟩
  · simp only [Ok, sparseToIndirect, state_eq]
    exact initChild_index inside apart placed.length
  · simp only [sparseToIndirect, state_eq]
    rw [initChild_slot inside placed.length other below, sparse]
    by_cases here : other = byteval
    · rw [if_pos here, if_pos here]
    · rw [if_neg here, if_neg here, Places.slot, Places.slot, find_index, find_keys]
      cases found : (Layout.sparse keys).find other with
      | none => rw [if_pos (placed.empty other (find_sparse_none.mp found))]; rfl
      | some i =>
          have place := at_key (find_sparse_some found)
          rw [if_neg (by omega), Option.bind_some, Option.bind_some, place.2, Int.toNat_natCast,
            placed.entries i place.1, List.getD_eq_getElem?_getD,
              List.getElem?_eq_getElem (show i < p.ptr.length by omega)]
          rfl

theorem indirectToIndirect_keeps (byteval : Nat) {idx : Nat → Int}
    (indirect : p.places = .indirect idx) (ok : p.Ok) :
    (indirectToIndirect p idx byteval c).Ok ∧ ∀ other < 256,
      (indirectToIndirect p idx byteval c).places.slot (indirectToIndirect p idx byteval c).ptr
      other =
        if other = byteval then some (some c) else p.places.slot p.ptr other := by
  rw [Ok, indirect] at ok
  obtain ⟨slots, inside, apart⟩ := ok
  obtain ⟨length, entries⟩ := copied_entries p.ptr (Nat.le_succ p.size)
  refine ⟨?_, fun other below => ?_⟩
  · exact initChild_index (fun other below _ => inside other below)
      (fun one low other below _ _ => apart one low other below) length
  · simp only [indirectToIndirect]
    rw [initChild_slot (fun other below _ => inside other below) length other below, indirect]
    by_cases here : other = byteval
    · rw [if_pos here, if_pos here]
    · rw [if_neg here, if_neg here, Places.slot, Places.slot, find_index]
      by_cases used : idx other = -1
      · rw [if_pos used, Option.bind_none, Option.bind_none]
      · have place := inside other below used
        rw [if_neg used, Option.bind_some, Option.bind_some, entries _ (by omega),
          List.getD_eq_getElem?_getD,
          List.getElem?_eq_getElem (show (idx other).toNat < p.ptr.length by omega)]
        rfl

theorem indirectToFull_keeps {idx : Nat → Int} (indirect : p.places = .indirect idx) (ok : p.Ok)
    (low : byteval < 256) :
    (indirectToFull p idx byteval c).Ok ∧ ∀ other < 256,
      (indirectToFull p idx byteval c).places.slot (indirectToFull p idx byteval c).ptr other =
        if other = byteval then some (some c) else some (p.places.slot p.ptr other).join := by
  rw [Ok, indirect] at ok
  obtain ⟨slots, inside, _⟩ := ok
  obtain ⟨length, entries⟩ := spread_index idx p.ptr (Nat.le_refl 256)
  refine ⟨by rw [Ok, indirectToFull, Places.Ok, List.length_set, length], fun other below => ?_⟩
  change (((List.range 256).foldl (spreadIndex idx p.ptr) (List.replicate 256 none)).set byteval
    (some c))[other]? = _
  by_cases here : other = byteval
  · subst here
    rw [if_pos rfl]
    exact List.getElem?_set_self (by omega)
  · rw [if_neg here, List.getElem?_set_ne (Ne.symm here), entries other below, indirect,
      Places.slot, find_index]
    by_cases used : idx other = -1
    · simp [used]
    · have place := inside other below used
      rw [if_pos ⟨below, used⟩, if_neg used, Option.bind_some, List.getD_eq_getElem?_getD,
        List.getElem?_eq_getElem (show (idx other).toNat < p.ptr.length by omega)]
      rfl

end IndexNode

/-! Both forms side by side. -/

def SameKind : Layout → Places → Prop
  | .full, .full => True
  | .indirect _, .indirect _ => True
  | .sparse keys, .sparse others => keys = others
  | _, _ => False

structure Refines (o : Inner K) (i : IndexNode K) : Prop where
  ok : o.Ok 0 maxSparseSize
  indexOk : i.Ok
  size : o.size = i.size
  byteNum : o.byteNum = i.byteNum
  kind : SameKind o.layout i.places
  slot : ∀ byteval < 256, o.layout.slot o.ptr byteval = i.places.slot i.ptr byteval

theorem Places.find_lt {places : Places} {size slots byteval index : Nat}
    (ok : places.Ok size slots) (inside : byteval < 256)
    (found : places.find byteval = some index) : index < slots := by
  cases places with
  | full =>
      cases found
      rw [ok]
      exact inside
  | indirect idx =>
      rw [find_index] at found
      split at found
      · cases found
      · rename_i used
        cases found
        have := ok.2.1 byteval inside used
        have := ok.1
        omega
  | sparse keys =>
      obtain ⟨same, length, _⟩ := ok
      have bound := (List.getElem?_eq_some_iff.mp (find_sparse_some found)).1
      omega

theorem Places.find_injective {places : Places} {size slots one other index : Nat}
    (ok : places.Ok size slots) (low : one < 256) (below : other < 256)
    (first : places.find one = some index) (second : places.find other = some index) :
    one = other := by
  cases places with
  | full =>
      cases first
      cases second
      rfl
  | indirect idx =>
      rw [find_index] at first second
      simp only [Option.ite_none_left_eq_some, Option.some.injEq] at first second
      have := ok.2.1 one low first.1
      have := ok.2.1 other below second.1
      exact ok.2.2 one low other below first.1 (by omega)
  | sparse keys =>
      exact @Art.find_injective (.sparse keys) _ _ _ first second

-- Both forms read a slot through a partial map of bytes to positions.
theorem slot_set {find : Nat → Option Nat} {ptr : List (Option Addr)} {child : Option Addr}
    {byteval index : Nat} (found : find byteval = some index) (inside : index < ptr.length)
    (other : Nat) (injective : find other = some index → other = byteval) :
    ((find other).bind fun place => (ptr.set index child)[place]?) =
      if other = byteval then some child else (find other).bind fun place => ptr[place]? := by
  by_cases here : other = byteval
  · rw [if_pos here, here, found, Option.bind_some, List.getElem?_set_self inside]
  · rw [if_neg here]
    cases there : find other with
    | none => rfl
    | some place =>
        rw [Option.bind_some, Option.bind_some, List.getElem?_set_ne]
        rintro rfl
        exact here (injective there)

theorem slot_isSome {find : Nat → Option Nat} {ptr : List (Option Addr)} {byteval : Nat}
    (inside : ∀ index, find byteval = some index → index < ptr.length) :
    ((find byteval).bind fun place => ptr[place]?).isSome = (find byteval).isSome := by
  cases found : find byteval with
  | none => rfl
  | some index => rw [Option.bind_some, List.getElem?_eq_getElem (inside index found)]; rfl

section Refines

variable {o : Inner K} {i : IndexNode K}

theorem Refines.found (refines : Refines o i) {byteval : Nat} (low : byteval < 256) :
    (o.layout.find byteval).isSome = (i.places.find byteval).isSome := by
  have same := congrArg Option.isSome (refines.slot byteval low)
  rw [Layout.slot, slot_isSome fun index found => find_lt refines.ok low found, Places.slot,
    slot_isSome fun index found => Places.find_lt refines.indexOk low found] at same
  exact same

theorem Refines.refl_sparse {p : Inner K} {keys : List Nat} (sparse : p.layout = .sparse keys)
    (ok : p.Ok 0 maxSparseSize) : Refines p (.ofSparse p keys) := by
  refine ⟨ok, ?_, rfl, rfl, ?_, fun byteval low => ?_⟩
  · rw [Inner.Ok, sparse] at ok
    exact ⟨ok.1, ok.2.1, ok.2.2.1⟩
  · rw [sparse]
    exact rfl
  · rw [sparse]
    rfl

-- A pointer is written where both forms have the slot.
theorem Refines.store (refines : Refines o i) {byteval one other : Nat} (low : byteval < 256)
    (first : o.layout.find byteval = some one) (second : i.places.find byteval = some other)
    (child : Option Addr) :
    Refines (o.setChild one child) { i with ptr := i.ptr.set other child } := by
  refine ⟨Inner.setChild_ok refines.ok one child, ?_, refines.size, refines.byteNum, refines.kind,
    fun place below => ?_⟩
  · have ok := refines.indexOk
    rw [IndexNode.Ok] at ok ⊢
    rw [List.length_set]
    exact ok
  · change ((o.layout.find place).bind fun index => (o.ptr.set one child)[index]?) =
      (i.places.find place).bind fun index => (i.ptr.set other child)[index]?
    rw [slot_set first (find_lt refines.ok low first) place fun found => Art.find_injective found
      first,
      slot_set second (Places.find_lt refines.indexOk low second) place
        fun found => Places.find_injective refines.indexOk below low found second]
    split
    · rfl
    · exact refines.slot place below

variable [RadixKey K]

/-- A missing slot: both forms are copied, at the same sizes. -/
theorem Refines.copy (refines : Refines o i) {k : K} (c : Addr)
    (first : o.layout.find (RadixKey.byte k o.byteNum) = none)
    (second : i.places.find (RadixKey.byte k o.byteNum) = none) :
    Refines (copyNode maxSparseSize o o.ptr k c) (i.addChild k c) := by
  have low := RadixKey.byte_lt k o.byteNum
  have ok := copyNode_ok (by decide) refines.ok (k := k) rfl first c
  have oldOk := refines.ok
  have indexOk := refines.indexOk
  have kind := refines.kind
  have missing : i.getChild k = none := by rw [IndexNode.getChild, ← refines.byteNum, second]
  have slot := refines.slot
  cases layout : o.layout with
  | full =>
      rw [layout] at first
      cases first
  | indirect bitmap =>
      cases places : i.places with
      | full => rw [layout, places] at kind; exact kind.elim
      | sparse keys => rw [layout, places] at kind; exact kind.elim
      | indirect idx =>
          rw [layout] at slot first
          rw [Inner.Ok, layout] at oldOk
          obtain ⟨slots, counted, _, _⟩ := oldOk
          rw [totalPopcount_eq] at counted
          have absent : has bitmap (RadixKey.byte k o.byteNum) = false := by
            rw [find_indirect] at first
            simpa using first
          by_cases full : o.size = maxIndirectSize
          · have moved : copyNode maxSparseSize o o.ptr k c = indirectToFull o bitmap o.ptr
              (RadixKey.byte k o.byteNum) c := by
              simp [copyNode, layout, Inner.isFull, full]
            have followed : i.addChild k c = i.indirectToFull idx (RadixKey.byte k o.byteNum)
              c := by
              rw [IndexNode.addChild, missing, places]
              simp [IndexNode.isFull, places, ← refines.size, full, refines.byteNum]
            obtain ⟨kept, slots'⟩ := IndexNode.indirectToFull_keeps (c := c) places indexOk low
            rw [moved] at ok ⊢
            rw [followed]
            refine ⟨ok, kept, rfl, refines.byteNum, trivial, fun other below => ?_⟩
            rw [slots' other below, indirectToFull_slot o c (by omega) low other below,
              slot other below]
          · have moved : copyNode maxSparseSize o o.ptr k c = indirectToIndirect o bitmap o.ptr
              (RadixKey.byte k o.byteNum) c := by
              simp [copyNode, layout, Inner.isFull, full]
            have followed : i.addChild k c = i.indirectToIndirect idx (RadixKey.byte k o.byteNum)
              c := by
              rw [IndexNode.addChild, missing, places]
              simp [IndexNode.isFull, places, ← refines.size, full, refines.byteNum]
            obtain ⟨kept, slots'⟩ := IndexNode.indirectToIndirect_keeps (c := c)
              (RadixKey.byte k o.byteNum) places indexOk
            rw [moved] at ok ⊢
            rw [followed]
            refine ⟨ok, kept, congrArg (· + 1) refines.size, refines.byteNum, trivial,
              fun other below => ?_⟩
            rw [slots' other below, indirectToIndirect_slot o c counted (by omega) absent low other
              below, slot other below]
  | sparse keys =>
      cases places : i.places with
      | full => rw [layout, places] at kind; exact kind.elim
      | indirect idx => rw [layout, places] at kind; exact kind.elim
      | sparse others =>
          rw [layout, places] at kind
          obtain rfl : keys = others := kind
          rw [layout] at slot first
          rw [Inner.Ok, layout] at oldOk
          obtain ⟨slots, count, nodup, small, _, _⟩ := oldOk
          have absent := find_sparse_none.mp first
          by_cases full : o.size = maxSparseSize
          · have moved : copyNode maxSparseSize o o.ptr k c =
                sparseToIndirect maxSparseSize o keys o.ptr (RadixKey.byte k o.byteNum) c := by
              simp [copyNode, layout, Inner.isFull, full]
            have followed : i.addChild k c = i.sparseToIndirect keys (RadixKey.byte k o.byteNum)
              c := by
              rw [IndexNode.addChild, missing, places]
              simp [IndexNode.isFull, places, ← refines.size, full, refines.byteNum]
            obtain ⟨kept, slots'⟩ := IndexNode.sparseToIndirect_keeps (c := c)
              (RadixKey.byte k o.byteNum) places indexOk
              (refines.size.symm.trans full)
            rw [moved] at ok ⊢
            rw [followed]
            refine ⟨ok, kept, rfl, refines.byteNum, trivial, fun other below => ?_⟩
            rw [slots' other below, sparseToIndirect_slot o c nodup small (by omega) (by omega)
              absent low other below, slot other below]
          · have moved : copyNode maxSparseSize o o.ptr k c = sparseToSparse o keys o.ptr
              (RadixKey.byte k o.byteNum) c := by
              simp [copyNode, layout, Inner.isFull, full]
            have followed : i.addChild k c = i.sparseToSparse keys (RadixKey.byte k o.byteNum)
              c := by
              rw [IndexNode.addChild, missing, places]
              simp [IndexNode.isFull, places, ← refines.size, full, refines.byteNum]
            rw [IndexNode.Ok, places] at indexOk
            obtain ⟨slots', count', _⟩ := indexOk
            rw [moved] at ok ⊢
            rw [followed]
            refine ⟨ok, ?_, congrArg (· + 1) refines.size, refines.byteNum, rfl,
              fun other below => ?_⟩
            · refine ⟨?_, ?_, nodup_append_fresh nodup absent⟩
              · change (i.ptr ++ [some c]).length = i.size + 1
                rw [List.length_append, slots']
                rfl
              · change (keys ++ [RadixKey.byte k o.byteNum]).length = i.size + 1
                rw [List.length_append, count']
                rfl
            · rw [sparseToSparse_slot o c nodup (by omega) absent other, slot other below, places]
              exact (sparseToSparse_slot o c nodup (by omega) absent other).symm

theorem Refines.addChild (refines : Refines o i) (k : K) (c : Addr) :
    Refines (o.addChild k c) (i.addChild k c) := by
  have low := RadixKey.byte_lt k o.byteNum
  have same := refines.found low
  cases first : o.layout.find (RadixKey.byte k o.byteNum) with
  | some one =>
      rw [first] at same
      obtain ⟨other, second⟩ := Option.isSome_iff_exists.mp same.symm
      have moved : o.addChild k c = o.setChild one (some c) := by
        rw [Inner.addChild, Inner.getChild, first]
      have followed : i.addChild k c = { i with ptr := i.ptr.set other (some c) } := by
        rw [refines.byteNum] at second
        rw [IndexNode.addChild, IndexNode.getChild, second]
      rw [moved, followed]
      exact refines.store low first second (some c)
  | none =>
      rw [first] at same
      have second : i.places.find (RadixKey.byte k o.byteNum) = none := by
        simpa using same.symm
      have moved : o.addChild k c = copyNode maxSparseSize o o.ptr k c := by
        rw [Inner.addChild, Inner.getChild, first]
      rw [moved]
      exact refines.copy c first second

theorem Refines.run (refines : Refines o i) (run : List (K × Addr)) :
    Refines (run.foldl (fun p entry => p.addChild entry.1 entry.2) o)
      (run.foldl (fun p entry => p.addChild entry.1 entry.2) i) := by
  induction run generalizing o i with
  | nil => exact refines
  | cons entry rest ih => exact ih (refines.addChild entry.1 entry.2)

end Refines

/-- What a reader of either form sees of the 256 bytes. -/
structure Agrees (o : Inner K) (i : IndexNode K) : Prop where
  found : ∀ byteval < 256, (o.layout.find byteval).isSome = (i.places.find byteval).isSome
  child : ∀ byteval < 256, o.layout.slot o.ptr byteval = i.places.slot i.ptr byteval
  counted : ∀ bitmap, o.layout = .indirect bitmap → o.size = totalPopcount bitmap
  below : ∀ bitmap, o.layout = .indirect bitmap → ∀ byteval < 256, ∀ index,
    o.layout.find byteval = some index → index < o.size
  sameSize : o.size = i.size
  full : o.layout = .full ↔ i.places = .full
  children : o.layout = .full → o.ptr = i.ptr

theorem Refines.agrees {o : Inner K} {i : IndexNode K} (refines : Refines o i) : Agrees o i := by
  have ok := refines.ok
  have indexOk := refines.indexOk
  have kind := refines.kind
  have full : o.layout = .full ↔ i.places = .full := by
    constructor
    · intro layout
      rw [layout] at kind
      cases places : i.places <;> simp_all [SameKind]
    · intro places
      rw [places] at kind
      cases layout : o.layout <;> simp_all [SameKind]
  refine ⟨fun byteval low => refines.found low, refines.slot, fun bitmap layout => ?_,
    fun bitmap layout byteval low index found => ?_, refines.size, full, fun layout => ?_⟩
  · rw [Inner.Ok, layout] at ok
    exact ok.2.1
  · have inside := find_lt ok low found
    rw [Inner.Ok, layout] at ok
    rw [ok.1] at inside
    exact inside
  · have places := full.mp layout
    rw [Inner.Ok, layout] at ok
    rw [IndexNode.Ok, places] at indexOk
    have slots : o.ptr.length = 256 := ok
    have slots' : i.ptr.length = 256 := indexOk
    apply List.ext_getElem?
    intro byteval
    by_cases low : byteval < 256
    · have same := refines.slot byteval low
      rw [layout, places] at same
      exact same
    · rw [List.getElem?_eq_none (by omega), List.getElem?_eq_none (by omega)]

/-- Along every run of add_child from a sparse node the ordered form answers like the other one;
a prefix of a run is a run, so this is so after each step. -/
theorem ordered_agrees [RadixKey K] (p : Inner K) (keys : List Nat)
    (sparse : p.layout = .sparse keys) (ok : p.Ok 0 maxSparseSize) (run : List (K × Addr)) :
    Agrees (run.foldl (fun p entry => p.addChild entry.1 entry.2) p)
      (run.foldl (fun p entry => p.addChild entry.1 entry.2) (IndexNode.ofSparse p keys)) :=
  ((Refines.refl_sparse sparse ok).run run).agrees

def sixteenSlots : Inner Key :=
  ⟨.sparse (List.range 16), 16, 0, 0, List.replicate 16 (some 1), false⟩

theorem ordered_agrees_sixteen :
    Agrees ([(17 * 2 ^ 56, 2), (255 * 2 ^ 56, 3)].foldl (fun p entry => p.addChild entry.1 entry.2)
      sixteenSlots)
      ([(17 * 2 ^ 56, 2), (255 * 2 ^ 56, 3)].foldl (fun p entry => p.addChild entry.1 entry.2)
        (IndexNode.ofSparse sixteenSlots (List.range 16))) := by
  refine ordered_agrees sixteenSlots (List.range 16) rfl ⟨rfl, by decide, List.nodup_range,
    fun key member => ?_, by decide, by decide⟩ _
  have := List.mem_range.mp member
  omega

end SetBench.Art
