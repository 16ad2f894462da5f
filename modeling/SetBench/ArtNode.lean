import SetBench.Bitmap
import SetBench.RadixKey

/-! Inner nodes of the adaptive radix tree (art.h and the log-leaf variants): full
nodes with one slot for each byte, ordered indirect nodes with a bitmap and sparse
nodes with a list of bytes. A node_ptr* is a position in `ptr`; the layout never
changes after construction, only the pointers and the removed flag do. -/
namespace SetBench.Art

open Bitmap Radix

abbrev Addr := Nat

def maxIndirectSize : Nat := 64

inductive Layout where
  | full
  | indirect (bitmap : ByteMap)
  | sparse (keys : List Nat)

structure Inner (K : Type) where
  layout : Layout
  size : Nat
  byteNum : Nat
  key : K
  ptr : List (Option Addr)
  removed : Bool

variable {K : Type}

-- Arrays are modelled up to their used length, and searched by the plain loop.
def Layout.find : Layout → Nat → Option Nat
  | .full, byteval => some byteval
  | .indirect bitmap, byteval =>
      if hasBit bitmap (wordIdxAndBit byteval) then some (onesToLeft bitmap (wordIdxAndBit byteval))
      else none
  | .sparse keys, byteval => keys.findIdx? (· == byteval)

/-- The slot of a byte: `none` when the node has no slot, `some none` when it is null. -/
def Layout.slot (layout : Layout) (ptr : List (Option Addr)) (byteval : Nat) :
    Option (Option Addr) :=
  (layout.find byteval).bind fun index => ptr[index]?

def Inner.getChild [RadixKey K] (p : Inner K) (k : K) : Option Nat :=
  p.layout.find (RadixKey.byte k p.byteNum)

def Inner.isFull (maxSparse : Nat) (p : Inner K) : Bool :=
  match p.layout with
  | .full => false
  | .indirect _ => p.size == maxIndirectSize
  | .sparse _ => p.size == maxSparse

/-! The four copies of add_child. Each loads the pointers of the old node in the order
of `ptr` and is given them as `loaded`. -/

def sparseToSparse (p : Inner K) (keys : List Nat) (loaded : List (Option Addr)) (byteval : Nat)
    (c : Addr) :
    Inner K :=
  ⟨.sparse (keys ++ [byteval]), p.size + 1, p.byteNum, p.key, loaded ++ [some c], false⟩

def sparseToIndirect (maxSparse : Nat) (p : Inner K) (keys : List Nat) (loaded : List (Option Addr))
    (byteval : Nat) (c : Addr) : Inner K :=
  let bits := keys.foldl (fun bitmap key => setBit bitmap (wordIdxAndBit key)) fun _ => 0#64
  let bits := setBit bits (wordIdxAndBit byteval)
  let ptr := (keys.zip loaded).foldl
    (fun ptr entry => ptr.set (onesToLeft bits (wordIdxAndBit entry.1)) entry.2)
    (List.replicate (maxSparse + 1) none)
  ⟨.indirect bits, maxSparse + 1, p.byteNum, p.key,
    ptr.set (onesToLeft bits (wordIdxAndBit byteval)) (some c), false⟩

def copyBits (bitmap : ByteMap) (count : Nat) : ByteMap :=
  (List.range count).foldl (fun bits byteval =>
    if hasBit bitmap (wordIdxAndBit byteval) then setBit bits (wordIdxAndBit byteval)
    else bits) fun _ => 0#64

structure CopyState where
  idxInNew : Nat
  idxInOld : Nat
  ptr : List (Option Addr)

def copyEntry (bitmap : ByteMap) (loaded : List (Option Addr)) (finalPtrIdx : Nat)
    (state : CopyState) (byteval : Nat) : CopyState :=
  if hasBit bitmap (wordIdxAndBit byteval) then
    let place := if finalPtrIdx = state.idxInOld then state.idxInNew + 1 else state.idxInNew
    ⟨place + 1, state.idxInOld + 1, state.ptr.set place (loaded.getD state.idxInOld none)⟩
  else state

def indirectToIndirect (p : Inner K) (bitmap : ByteMap) (loaded : List (Option Addr))
    (byteval : Nat) (c : Addr) : Inner K :=
  let bits := copyBits bitmap 256
  let finalPtrIdx := onesToLeft bits (wordIdxAndBit byteval)
  let bits := setBit bits (wordIdxAndBit byteval)
  let copied := (List.range 256).foldl (copyEntry bitmap loaded finalPtrIdx)
    ⟨0, 0, List.replicate (p.size + 1) none⟩
  ⟨.indirect bits, p.size + 1, p.byteNum, p.key, copied.ptr.set finalPtrIdx (some c), false⟩

def spreadEntry (bitmap : ByteMap) (loaded : List (Option Addr)) (state : Nat × List (Option Addr))
    (byteval : Nat) : Nat × List (Option Addr) :=
  if hasBit bitmap (wordIdxAndBit byteval) then
    (state.1 + 1, state.2.set byteval (loaded.getD state.1 none))
  else state

def indirectToFull (p : Inner K) (bitmap : ByteMap) (loaded : List (Option Addr)) (byteval : Nat)
    (c : Addr) : Inner K :=
  let spread := (List.range 256).foldl (spreadEntry bitmap loaded) (0, List.replicate 256 none)
  ⟨.full, 0, p.byteNum, p.key, spread.2.set byteval (some c), false⟩

/-- The node that add_child swings the grandparent to. A full node is never copied. -/
def copyNode [RadixKey K] (maxSparse : Nat) (p : Inner K) (loaded : List (Option Addr)) (k : K)
    (c : Addr) :
    Inner K :=
  let byteval := RadixKey.byte k p.byteNum
  match p.layout with
  | .full => p
  | .indirect bitmap =>
      if p.isFull maxSparse then indirectToFull p bitmap loaded byteval c
      else indirectToIndirect p bitmap loaded byteval c
  | .sparse keys =>
      if p.isFull maxSparse then sparseToIndirect maxSparse p keys loaded byteval c
      else sparseToSparse p keys loaded byteval c

/-- Capacities and consistency of a node of each layout; `slots` is the length of `ptr`. -/
def Layout.Ok (least maxSparse size slots : Nat) : Layout → Prop
  | .full => slots = 256
  | .indirect bitmap =>
      slots = size ∧ size = totalPopcount bitmap ∧ maxSparse < size ∧ size ≤ maxIndirectSize
  | .sparse keys => slots = size ∧ keys.length = size ∧ keys.Nodup ∧ (∀ key ∈ keys, key < 256) ∧
      least ≤ size ∧ size ≤ maxSparse

theorem find_full (byteval : Nat) : Layout.full.find byteval = some byteval := rfl

theorem find_indirect (bitmap : ByteMap) (byteval : Nat) : (Layout.indirect bitmap).find byteval =
    if has bitmap byteval then some (rank bitmap byteval) else none := by
  rw [Layout.find, onesToLeft_eq]
  rfl

theorem find_sparse_some {keys : List Nat} {byteval index : Nat} :
    (Layout.sparse keys).find byteval = some index → keys[index]? = some byteval := by
  intro found
  obtain ⟨bound, same, _⟩ := List.findIdx?_eq_some_iff_getElem.mp found
  rw [List.getElem?_eq_getElem bound]
  exact congrArg some (by simpa using same)

theorem find_sparse_of_get {keys : List Nat} (nodup : keys.Nodup) {byteval index : Nat}
    (here : keys[index]? = some byteval) : (Layout.sparse keys).find byteval = some index := by
  obtain ⟨bound, same⟩ := List.getElem?_eq_some_iff.mp here
  rw [Layout.find, List.findIdx?_eq_some_iff_getElem]
  refine ⟨bound, by simpa using same, fun earlier below => ?_⟩
  simp only [beq_iff_eq]
  intro again
  have equal : keys[earlier]? = keys[index]? := by
    rw [List.getElem?_eq_getElem (below.trans bound), again, here]
  have := (List.getElem?_inj (below.trans bound) nodup).mp equal
  omega

theorem find_sparse_none {keys : List Nat} {byteval : Nat} :
    (Layout.sparse keys).find byteval = none ↔ byteval ∉ keys := by
  rw [Layout.find, List.findIdx?_eq_none_iff]
  constructor
  · intro all member
    simpa using all byteval member
  · intro absent key member
    simp only [beq_eq_false_iff_ne, ne_eq]
    rintro rfl
    exact absent member

theorem find_lt {layout : Layout} {least maxSparse size slots byteval index : Nat}
    (ok : layout.Ok least maxSparse size slots) (inside : byteval < 256)
    (found : layout.find byteval = some index) : index < slots := by
  cases layout with
  | full =>
      cases found
      rw [ok]
      exact inside
  | indirect bitmap =>
      rw [find_indirect] at found
      split at found
      · rename_i present
        cases found
        obtain ⟨same, counted, _⟩ := ok
        rw [same, counted, totalPopcount_eq]
        exact rank_lt bitmap present inside
      · cases found
  | sparse keys =>
      obtain ⟨same, length, _⟩ := ok
      have bound := (List.getElem?_eq_some_iff.mp (find_sparse_some found)).1
      omega

theorem find_injective {layout : Layout} {one other index : Nat}
    (first : layout.find one = some index) (second : layout.find other = some index) :
    one = other := by
  cases layout with
  | full =>
      cases first
      cases second
      rfl
  | indirect bitmap =>
      rw [find_indirect] at first second
      simp only [Option.ite_none_right_eq_some, Option.some.injEq] at first second
      exact rank_injective bitmap first.1 second.1 (first.2.trans second.2.symm)
  | sparse keys =>
      have here := find_sparse_some first
      have there := find_sparse_some second
      rw [here] at there
      exact Option.some.inj there


/-! What a copy keeps: every slot of the old node with the pointer that was loaded from
it, and one new slot. -/

theorem nodup_append_fresh {keys : List Nat} {byteval : Nat} (nodup : keys.Nodup)
    (absent : byteval ∉ keys) :
    (keys ++ [byteval]).Nodup := by
  rw [List.nodup_append]
  refine ⟨nodup, List.nodup_singleton _, fun key member last single => ?_⟩
  rw [List.mem_singleton] at single
  rintro rfl
  exact absent (single ▸ member)

theorem sparseToSparse_slot (p : Inner K) {keys : List Nat} {loaded : List (Option Addr)}
    {byteval : Nat} (c : Addr) (nodup : keys.Nodup) (length : keys.length = loaded.length)
    (absent : byteval ∉ keys) (other : Nat) :
    (sparseToSparse p keys loaded byteval c).layout.slot
    (sparseToSparse p keys loaded byteval c).ptr other =
      if other = byteval then some (some c) else (Layout.sparse keys).slot loaded other := by
  have longer := nodup_append_fresh nodup absent
  simp only [sparseToSparse, Layout.slot]
  split
  · rename_i here
    subst here
    have last : (keys ++ [other])[keys.length]? = some other := by simp
    rw [find_sparse_of_get longer last]
    simp [length]
  · rename_i different
    cases found : (Layout.sparse keys).find other with
    | none =>
        have missing : (Layout.sparse (keys ++ [byteval])).find other = none := by
          rw [find_sparse_none] at found ⊢
          simp [found, different]
        rw [missing]
        rfl
    | some index =>
        have here := find_sparse_some found
        have bound := (List.getElem?_eq_some_iff.mp here).1
        have kept : (keys ++ [byteval])[index]? = some other := by
          rw [List.getElem?_append_left bound]
          exact here
        rw [find_sparse_of_get longer kept]
        simp only [Option.bind_some]
        exact List.getElem?_append_left (by omega)

theorem has_foldl_add (keys : List Nat) (bitmap : ByteMap) (other : Nat) :
    has (keys.foldl (fun bitmap key => setBit bitmap (wordIdxAndBit key)) bitmap) other =
      (has bitmap other || decide (other ∈ keys)) := by
  induction keys generalizing bitmap with
  | nil => simp
  | cons key rest ih =>
      rw [List.foldl_cons, ih]
      change (has (add bitmap key) other || _) = _
      rw [has_add, Bool.or_assoc]
      congr 1
      simp [List.mem_cons]

theorem rank_keys {bits : ByteMap} (keys : List Nat) (nodup : keys.Nodup)
    (small : ∀ key ∈ keys, key < 256) (same : ∀ other, has bits other = decide (other ∈ keys)) :
    rank bits 256 = keys.length := by
  rw [rank, ← List.toFinset_card_of_nodup nodup]
  congr 1
  ext other
  simp only [Finset.mem_filter, Finset.mem_range, same, decide_eq_true_eq, List.mem_toFinset]
  exact ⟨fun held => held.2, fun member => ⟨small other member, member⟩⟩

-- Writing each entry at its own place leaves each entry at its place.
theorem foldl_set_get {entries : List (Nat × Option Addr)} {place : Nat → Nat}
    {start : List (Option Addr)} (distinct : (entries.map fun entry => place entry.1).Nodup)
    (inside : ∀ entry ∈ entries, place entry.1 < start.length) {entry : Nat × Option Addr}
    (member : entry ∈ entries) :
    (entries.foldl (fun ptr entry => ptr.set (place entry.1) entry.2) start)[place entry.1]? =
    some entry.2 := by
  have keep (rest : List (Nat × Option Addr)) (ptr : List (Option Addr)) (index : Nat)
      (away : ∀ other ∈ rest, place other.1 ≠ index) :
      (rest.foldl (fun ptr entry => ptr.set (place entry.1) entry.2) ptr)[index]? =
      ptr[index]? := by
    induction rest generalizing ptr with
    | nil => rfl
    | cons head rest ih =>
        rw [List.foldl_cons, ih _ fun other member => away other (List.mem_cons_of_mem _ member),
          List.getElem?_set_ne (away head List.mem_cons_self)]
  induction entries generalizing start with
  | nil => cases member
  | cons head rest ih =>
      rw [List.map_cons, List.nodup_cons] at distinct
      rw [List.foldl_cons]
      rcases List.mem_cons.mp member with rfl | later
      · rw [keep]
        · exact List.getElem?_set_self (inside entry List.mem_cons_self)
        · intro other there same
          exact distinct.1 (List.mem_map.mpr ⟨other, there, same⟩)
      · refine ih distinct.2 (fun other there => ?_) later
        rw [List.length_set]
        exact inside other (List.mem_cons_of_mem _ there)

theorem length_foldl_set (entries : List (Nat × Option Addr)) (place : Nat → Nat)
    (start : List (Option Addr)) :
    (entries.foldl (fun ptr entry => ptr.set (place entry.1) entry.2) start).length =
    start.length := by
  induction entries generalizing start with
  | nil => rfl
  | cons head rest ih => rw [List.foldl_cons, ih, List.length_set]

theorem mem_zip_of_get {keys : List Nat} {loaded : List (Option Addr)} {index byteval : Nat}
    {child : Option Addr} (key : keys[index]? = some byteval) (held : loaded[index]? = some child) :
    (byteval, child) ∈ keys.zip loaded := by
  apply List.mem_of_getElem? (i := index)
  rw [List.getElem?_zip_eq_some]
  exact ⟨key, held⟩

theorem sparseToIndirect_slot {maxSparse : Nat} (p : Inner K) {keys : List Nat}
    {loaded : List (Option Addr)} {byteval : Nat} (c : Addr) (nodup : keys.Nodup)
    (small : ∀ key ∈ keys, key < 256) (length : keys.length = loaded.length)
    (count : keys.length = maxSparse) (absent : byteval ∉ keys) (inside : byteval < 256)
    (other : Nat) (below : other < 256) :
    (sparseToIndirect maxSparse p keys loaded byteval c).layout.slot
      (sparseToIndirect maxSparse p keys loaded byteval c).ptr other =
      if other = byteval then some (some c) else (Layout.sparse keys).slot loaded other := by
  let bits := add (keys.foldl (fun bitmap key => setBit bitmap (wordIdxAndBit key)) fun _ => 0#64)
    byteval
  have present (other : Nat) : has bits other = decide (other ∈ byteval :: keys) := by
    rw [has_add, has_foldl_add]
    simp [Bool.or_comm]
  have total : rank bits 256 = maxSparse + 1 := by
    rw [rank_keys (byteval :: keys) (List.nodup_cons.mpr ⟨absent, nodup⟩)
      (fun key member => (List.mem_cons.mp member).elim (fun same => same ▸ inside) (small key))
      present,
      List.length_cons, count]
  have positions : ((keys.zip loaded).map fun entry => rank bits entry.1).Nodup := by
    have firsts : (keys.zip loaded).map Prod.fst = keys := List.map_fst_zip length.le
    rw [show (keys.zip loaded).map (fun entry => rank bits entry.1) = keys.map (rank bits) by
      rw [← firsts, List.map_map, firsts]; rfl]
    refine (List.nodup_map_iff_inj_on nodup).mpr fun one first two second same => ?_
    exact rank_injective bits (by simp [present, first]) (by simp [present, second]) same
  have room : ∀ entry ∈ keys.zip loaded, rank bits
    entry.1 < (List.replicate (maxSparse + 1) (none : Option Addr)).length := by
    intro entry member
    have key := (List.of_mem_zip member).1
    rw [List.length_replicate, ← total]
    exact rank_lt bits (by simp [present, key]) (small _ key)
  simp only [sparseToIndirect, onesToLeft_eq, Layout.slot]
  change ((Layout.indirect bits).find other).bind _ = _
  rw [find_indirect]
  simp only [present, List.mem_cons, decide_eq_true_eq]
  change (Option.bind (if other = byteval ∨ other ∈ keys then some (rank bits other) else none)
    fun index =>
    (List.set ((keys.zip loaded).foldl (fun ptr entry => ptr.set (rank bits entry.1) entry.2)
      (List.replicate (maxSparse + 1) none)) (rank bits byteval) (some c))[index]?) = _
  split
  · rename_i member
    simp only [Option.bind_some]
    by_cases here : other = byteval
    · subst here
      rw [if_pos rfl, List.getElem?_set_self]
      rw [length_foldl_set, List.length_replicate, ← total]
      exact rank_lt bits (by simp [present]) below
    · have key := member.resolve_left here
      obtain ⟨index, bound, same⟩ := List.mem_iff_getElem.mp key
      have get : keys[index]? = some other := by rw [List.getElem?_eq_getElem bound, same]
      have held := List.getElem?_eq_getElem (show index < loaded.length by omega)
      have away : rank bits byteval ≠ rank bits other := by
        intro equal
        exact here (rank_injective bits (by simp [present]) (by simp [present, key]) equal).symm
      rw [if_neg here, List.getElem?_set_ne away, find_sparse_of_get nodup get, Option.bind_some,
        held]
      exact foldl_set_get positions room (mem_zip_of_get get held)
  · rename_i missing
    push Not at missing
    rw [if_neg missing.1, find_sparse_none.mpr missing.2]
    rfl


theorem copyBits_has (bitmap : ByteMap) (count other : Nat) :
    has (copyBits bitmap count) other = (has bitmap other && decide (other < count)) := by
  induction count with
  | zero => simp [copyBits]
  | succ count ih =>
      have step : copyBits bitmap (count + 1) =
          if has bitmap count then add (copyBits bitmap count) count
          else copyBits bitmap count := by
        simp only [copyBits, List.range_succ, List.foldl_append, List.foldl_cons, List.foldl_nil]
        rfl
      rw [step]
      split
      · rename_i present
        rw [has_add, ih]
        by_cases here : other = count
        · simp [here, present]
        · have : (other < count + 1) = (other < count) := by simp; omega
          simp [here, this]
      · rename_i missing
        rw [ih]
        by_cases here : other = count
        · simp [here, missing]
        · have : (other < count + 1) = (other < count) := by simp; omega
          simp [this]

-- Where the entry `index` of the old array goes when position `gap` is kept free.
def skip (gap index : Nat) : Nat := if gap ≤ index then index + 1 else index

theorem skip_lt {gap one other : Nat} (less : one < other) : skip gap one < skip gap other := by
  unfold skip
  split <;> split <;> omega

theorem skip_ne (gap index : Nat) : skip gap index ≠ gap := by
  unfold skip
  split <;> omega

structure Copied (bitmap : ByteMap) (loaded : List (Option Addr)) (gap count : Nat)
    (state : CopyState) : Prop where
  old : state.idxInOld = rank bitmap count
  new : state.idxInNew = rank bitmap count + if gap < rank bitmap count then 1 else 0
  length : state.ptr.length = rank bitmap 256 + 1
  entries : ∀ index, index < rank bitmap count → state.ptr[skip gap index]? =
    some (loaded.getD index none)

theorem copied_range (bitmap : ByteMap) (loaded : List (Option Addr)) (gap : Nat)
    (start : List (Option Addr)) (length : start.length = rank bitmap 256 + 1) {count : Nat}
    (bound : count ≤ 256) :
    Copied bitmap loaded gap count ((List.range count).foldl (copyEntry bitmap loaded gap)
      ⟨0, 0, start⟩) := by
  induction count with
  | zero => exact ⟨rfl, by simp, length, fun index below => absurd below (Nat.not_lt_zero _)⟩
  | succ count ih =>
      obtain ⟨old, new, same, entries⟩ := ih (by omega)
      rw [List.range_succ, List.foldl_append, List.foldl_cons, List.foldl_nil]
      generalize (List.range count).foldl (copyEntry bitmap loaded gap) ⟨0, 0, start⟩ = state at *
      by_cases present : has bitmap count
      · have next : rank bitmap (count + 1) = rank bitmap count + 1 := by
          rw [rank_succ, if_pos present]
        have place : (if gap = state.idxInOld then state.idxInNew + 1 else state.idxInNew) =
            skip gap (rank bitmap count) := by
          rw [old, new, skip]
          split <;> split <;> split <;> omega
        have moved : copyEntry bitmap loaded gap state count =
            ⟨skip gap (rank bitmap count) + 1, rank bitmap count + 1,
              state.ptr.set (skip gap (rank bitmap count))
                (loaded.getD (rank bitmap count) none)⟩ := by
          rw [copyEntry, if_pos (show hasBit bitmap (wordIdxAndBit count) = true
            from present), ← place, ← old]
        have total := rank_lt bitmap present (show count < 256 by omega)
        rw [moved]
        refine ⟨next.symm, ?_, by rw [List.length_set, same], fun index below => ?_⟩
        · simp only [next, skip]
          split <;> split <;> omega
        · rw [next] at below
          by_cases last : index = rank bitmap count
          · subst last
            apply List.getElem?_set_self
            rw [same, skip]
            split <;> omega
          · have earlier : index < rank bitmap count := by omega
            rw [List.getElem?_set_ne (skip_lt earlier).ne']
            exact entries index earlier
      · have next : rank bitmap (count + 1) = rank bitmap count := by
          rw [rank_succ, if_neg present]; rfl
        have moved : copyEntry bitmap loaded gap state count = state := by
          rw [copyEntry, if_neg (show ¬ hasBit bitmap (wordIdxAndBit count) = true from present)]
        rw [moved]
        exact ⟨by rw [next, old], by rw [next, new], same, by rw [next]; exact entries⟩

theorem indirectToIndirect_slot (p : Inner K) {bitmap : ByteMap} {loaded : List (Option Addr)}
    {byteval : Nat} (c : Addr) (size : p.size = rank bitmap 256) (length : loaded.length = p.size)
    (absent : has bitmap byteval = false) (inside : byteval < 256) (other : Nat)
    (below : other < 256) :
    (indirectToIndirect p bitmap loaded byteval c).layout.slot
      (indirectToIndirect p bitmap loaded byteval c).ptr other =
      if other = byteval then some (some c) else (Layout.indirect bitmap).slot loaded other := by
  have kept (other : Nat) (below : other < 256) : has (copyBits bitmap 256) other =
    has bitmap other := by
    simp [copyBits_has, below]
  have ranks (other : Nat) (bound : other ≤ 256) : rank (copyBits bitmap 256) other =
    rank bitmap other :=
    rank_congr fun byteval less => kept byteval (by omega)
  have free : has (copyBits bitmap 256) byteval = false := by rw [kept byteval inside]; exact absent
  have gap : rank bitmap byteval ≤ rank bitmap 256 := rank_mono bitmap inside.le
  obtain ⟨_, _, total, entries⟩ := copied_range bitmap loaded (rank bitmap byteval)
    (List.replicate (p.size + 1) none) (by rw [List.length_replicate, size]) (Nat.le_refl 256)
  simp only [indirectToIndirect, onesToLeft_eq, Layout.slot, ranks byteval inside.le]
  change ((Layout.indirect (add (copyBits bitmap 256) byteval)).find other).bind _ = _
  rw [find_indirect, find_indirect, has_add, rank_add _ free, kept other below,
    ranks other below.le]
  by_cases here : other = byteval
  · subst here
    simp only [decide_true, Bool.or_true, if_true, Nat.lt_irrefl, if_false, Nat.add_zero,
      Option.bind_some]
    apply List.getElem?_set_self
    omega
  · by_cases present : has bitmap other = true
    · have index := rank_lt bitmap present below
      have moved : rank bitmap other + (if byteval < other then 1 else 0) =
          skip (rank bitmap byteval) (rank bitmap other) := by
        rw [skip]
        by_cases less : byteval < other
        · rw [if_pos less, if_pos (rank_mono bitmap less.le)]
        · have fewer := rank_lt bitmap present (show other < byteval by omega)
          rw [if_neg less, if_neg (by omega)]
          rfl
      simp only [present, Bool.true_or, if_true, Option.bind_some, here, if_false, moved]
      rw [List.getElem?_set_ne (skip_ne _ _).symm, entries _ index,
        List.getD_eq_getElem?_getD, List.getElem?_eq_getElem (by omega)]
      rfl
    · simp only [present, here, decide_false, Bool.or_false, Bool.false_eq_true, if_false,
        Option.bind_none]

structure Spread (bitmap : ByteMap) (loaded : List (Option Addr)) (count : Nat)
    (state : Nat × List (Option Addr)) : Prop where
  index : state.1 = rank bitmap count
  length : state.2.length = 256
  entries : ∀ byteval, byteval < 256 → state.2[byteval]? =
    some (if has bitmap byteval ∧ byteval < count then loaded.getD (rank bitmap byteval) none else
      none)

theorem spread_range (bitmap : ByteMap) (loaded : List (Option Addr)) {count : Nat}
    (bound : count ≤ 256) :
    Spread bitmap loaded count
      ((List.range count).foldl (spreadEntry bitmap loaded) (0, List.replicate 256 none)) := by
  induction count with
  | zero =>
      refine ⟨rfl, List.length_replicate, fun byteval below => ?_⟩
      rw [if_neg (fun held => Nat.not_lt_zero _ held.2)]
      exact List.getElem?_replicate_of_lt below
  | succ count ih =>
      obtain ⟨index, length, entries⟩ := ih (by omega)
      rw [List.range_succ, List.foldl_append, List.foldl_cons, List.foldl_nil]
      generalize (List.range count).foldl (spreadEntry bitmap loaded) (0, List.replicate 256 none) =
        state at *
      by_cases present : has bitmap count = true
      · have moved : spreadEntry bitmap loaded state count =
            (state.1 + 1, state.2.set count (loaded.getD state.1 none)) := by
          rw [spreadEntry, if_pos (show hasBit bitmap (wordIdxAndBit count) = true from present)]
        rw [moved]
        refine ⟨by rw [rank_succ, if_pos present, ← index], by rw [List.length_set, length],
          fun byteval below => ?_⟩
        by_cases here : byteval = count
        · subst here
          rw [List.getElem?_set_self (by omega), index, if_pos ⟨present, Nat.lt_succ_self _⟩]
        · rw [List.getElem?_set_ne (Ne.symm here), entries byteval below]
          simp only [show byteval < count + 1 ↔ byteval < count by omega]
      · have moved : spreadEntry bitmap loaded state count = state := by
          rw [spreadEntry, if_neg (show ¬ hasBit bitmap (wordIdxAndBit count) = true from present)]
        rw [moved]
        refine ⟨by rw [rank_succ, if_neg present, index]; rfl, length, fun byteval below => ?_⟩
        rw [entries byteval below]
        by_cases here : byteval = count
        · subst here
          simp [present]
        · simp only [show byteval < count + 1 ↔ byteval < count by omega]

-- A full node has a slot for every byte, so slots that were missing become null.
theorem indirectToFull_slot (p : Inner K) {bitmap : ByteMap} {loaded : List (Option Addr)}
    {byteval : Nat} (c : Addr) (size : loaded.length = rank bitmap 256) (inside : byteval < 256)
    (other : Nat) (below : other < 256) :
    (indirectToFull p bitmap loaded byteval c).layout.slot
    (indirectToFull p bitmap loaded byteval c).ptr other =
      if other = byteval then some (some c)
      else some (((Layout.indirect bitmap).slot loaded other).join) := by
  obtain ⟨_, length, entries⟩ := spread_range bitmap loaded (Nat.le_refl 256)
  simp only [indirectToFull, Layout.slot, find_full, Option.bind_some]
  by_cases here : other = byteval
  · subst here
    rw [if_pos rfl]
    exact List.getElem?_set_self (by omega)
  · rw [if_neg here, List.getElem?_set_ne (Ne.symm here), entries other below, find_indirect]
    by_cases present : has bitmap other = true
    · have index := rank_lt bitmap present below
      simp only [present, below, and_self, if_true, Option.bind_some, List.getD_eq_getElem?_getD,
        List.getElem?_eq_getElem (show rank bitmap other < loaded.length by omega)]
      rfl
    · simp [present]


def Inner.Ok (least maxSparse : Nat) (p : Inner K) : Prop :=
  p.layout.Ok least maxSparse p.size p.ptr.length

/-- The pointer under a byte, null also where the node has no slot. -/
def Inner.child (p : Inner K) (byteval : Nat) : Option Addr := (p.layout.slot p.ptr byteval).join

theorem Inner.child_of_find {p : Inner K} {byteval index : Nat}
    (found : p.layout.find byteval = some index) :
    p.child byteval = p.ptr.getD index none := by
  rw [Inner.child, Layout.slot, found, Option.bind_some, List.getD_eq_getElem?_getD]
  cases p.ptr[index]? <;> rfl

theorem Inner.child_of_none {p : Inner K} {byteval : Nat} (missing : p.layout.find byteval = none) :
    p.child byteval = none := by
  rw [Inner.child, Layout.slot, missing]
  rfl

-- The store through a node_ptr.
def Inner.setChild (p : Inner K) (index : Nat) (child : Option Addr) : Inner K :=
  { p with ptr := p.ptr.set index child }

theorem Inner.setChild_ok {least maxSparse : Nat} {p : Inner K} (ok : p.Ok least maxSparse)
    (index : Nat) (child : Option Addr) :
    (p.setChild index child).Ok least maxSparse := by
  simp only [Inner.Ok, Inner.setChild, List.length_set]
  exact ok

theorem Inner.setChild_child {least maxSparse : Nat} {p : Inner K} (ok : p.Ok least maxSparse)
    {byteval index : Nat} (inside : byteval < 256) (found : p.layout.find byteval = some index)
    (child : Option Addr) (other : Nat) :
    (p.setChild index child).child other = if other = byteval then child else p.child other := by
  split
  · rename_i here
    subst here
    rw [Inner.child_of_find (p := p.setChild index child) found]
    simp [Inner.setChild, List.getD_eq_getElem?_getD,
      List.getElem?_set_self (find_lt ok inside found)]
  · rename_i different
    cases there : p.layout.find other with
    | none =>
        rw [Inner.child_of_none there, Inner.child_of_none (p := p.setChild index child) there]
    | some place =>
        have away : index ≠ place := fun same => different (find_injective there (same ▸ found))
        rw [Inner.child_of_find there, Inner.child_of_find (p := p.setChild index child) there]
        simp [Inner.setChild, List.getD_eq_getElem?_getD, List.getElem?_set_ne away]

section Copy

variable [RadixKey K] {least maxSparse : Nat} {p : Inner K} {loaded : List (Option Addr)} {k : K}

/-- A copy has the loaded pointers under the old bytes and the new child under the byte of `k`. -/
theorem copyNode_child (ok : p.Ok least maxSparse) (length : loaded.length = p.ptr.length)
    (absent : p.getChild k = none) (c : Addr) (other : Nat) (below : other < 256) :
    (copyNode maxSparse p loaded k c).child other =
      if other = RadixKey.byte k p.byteNum then some c else (p.layout.slot loaded other).join := by
  have inside := RadixKey.byte_lt k p.byteNum
  rw [Inner.Ok] at ok
  rw [Inner.getChild] at absent
  cases layout : p.layout with
  | full =>
      rw [layout] at absent
      cases absent
  | indirect bitmap =>
      rw [layout] at ok absent
      obtain ⟨slots, counted, _, _⟩ := ok
      rw [totalPopcount_eq] at counted
      rw [find_indirect] at absent
      have missing : has bitmap (RadixKey.byte k p.byteNum) = false := by
        simpa using absent
      simp only [copyNode, layout]
      split
      · rw [Inner.child, indirectToFull_slot p c (by omega) inside other below]
        split <;> rfl
      · rw [Inner.child, indirectToIndirect_slot p c counted (by omega) missing inside other below]
        split <;> rfl
  | sparse keys =>
      rw [layout] at ok absent
      obtain ⟨slots, count, nodup, small, _, _⟩ := ok
      have missing := find_sparse_none.mp absent
      simp only [copyNode, layout]
      split
      · rename_i full
        have exact_ : p.size = maxSparse := by simpa [Inner.isFull, layout] using full
        rw [Inner.child, sparseToIndirect_slot p c nodup small (by omega) (by omega) missing inside
          other below]
        split <;> rfl
      · rw [Inner.child, sparseToSparse_slot p c nodup (by omega) missing other]
        split <;> rfl

theorem copyNode_header (c : Addr) (kind : p.layout ≠ .full) :
    (copyNode maxSparse p loaded k c).key = p.key ∧
    (copyNode maxSparse p loaded k c).byteNum = p.byteNum ∧
    (copyNode maxSparse p loaded k c).removed = false := by
  unfold copyNode
  cases layout : p.layout with
  | full => exact absurd layout kind
  | indirect bitmap =>
      simp only
      split <;> exact ⟨rfl, rfl, rfl⟩
  | sparse keys =>
      simp only
      split <;> exact ⟨rfl, rfl, rfl⟩

-- A copy starts with its own removed flag.
theorem copyNode_flag (kind : p.layout ≠ .full) (flag : Bool) (c : Addr) :
    copyNode maxSparse { p with removed := flag } loaded k c = copyNode maxSparse p loaded k c := by
  obtain ⟨layout, size, byteNum, key, ptr, removed⟩ := p
  cases layout with
  | full => exact absurd rfl kind
  | indirect bitmap => rfl
  | sparse keys => rfl

theorem copyNode_ok (bound : maxSparse < maxIndirectSize) (ok : p.Ok least maxSparse)
    (length : loaded.length = p.ptr.length) (absent : p.getChild k = none) (c : Addr) :
    (copyNode maxSparse p loaded k c).Ok least maxSparse := by
  have inside := RadixKey.byte_lt k p.byteNum
  rw [Inner.Ok] at ok ⊢
  rw [Inner.getChild] at absent
  cases layout : p.layout with
  | full =>
      rw [layout] at absent
      cases absent
  | indirect bitmap =>
      rw [layout] at ok absent
      obtain ⟨slots, counted, least, most⟩ := ok
      rw [find_indirect] at absent
      have missing : has bitmap (RadixKey.byte k p.byteNum) = false := by
        simpa using absent
      simp only [copyNode, layout]
      split
      · change List.length (List.set _ _ _) = 256
        rw [List.length_set]
        exact (spread_range bitmap loaded (Nat.le_refl 256)).length
      · rename_i room
        have room : p.size ≠ maxIndirectSize := by simpa [Inner.isFull, layout] using room
        rw [totalPopcount_eq] at counted
        have kept : rank (copyBits bitmap 256) 256 = rank bitmap 256 :=
          rank_congr fun byteval less => by simp [copyBits_has, less]
        have free : has (copyBits bitmap 256) (RadixKey.byte k p.byteNum) = false := by
          simp [copyBits_has, missing]
        refine ⟨?_, ?_, by change maxSparse < p.size + 1; omega, by change p.size + 1 ≤ _; omega⟩
        · change List.length (List.set _ _ _) = p.size + 1
          rw [List.length_set, (copied_range bitmap loaded _ _
            (by rw [List.length_replicate, counted])
            (Nat.le_refl 256)).length, counted]
        · change p.size + 1 = totalPopcount (add (copyBits bitmap 256) (RadixKey.byte k p.byteNum))
          rw [totalPopcount_eq, rank_add _ free, if_pos inside, kept, counted]
  | sparse keys =>
      rw [layout] at ok absent
      obtain ⟨slots, count, nodup, small, least, most⟩ := ok
      have missing := find_sparse_none.mp absent
      simp only [copyNode, layout]
      split
      · rename_i full
        have exact_ : p.size = maxSparse := by simpa [Inner.isFull, layout] using full
        refine ⟨?_, ?_, Nat.lt_succ_self _, bound⟩
        · change List.length (List.set _ _ _) = maxSparse + 1
          rw [List.length_set]
          simp only [onesToLeft_eq]
          rw [length_foldl_set, List.length_replicate]
        · change maxSparse + 1 = totalPopcount (add (keys.foldl _ _) (RadixKey.byte k p.byteNum))
          rw [totalPopcount_eq, rank_keys (RadixKey.byte k p.byteNum :: keys)
            (List.nodup_cons.mpr ⟨missing, nodup⟩),
            List.length_cons, count, exact_]
          · intro key member
            rcases List.mem_cons.mp member with same | old
            · rw [same]; exact inside
            · exact small key old
          · intro other
            rw [has_add, has_foldl_add]
            simp [Bool.or_comm]
      · rename_i room
        have room : p.size ≠ maxSparse := by simpa [Inner.isFull, layout] using room
        refine ⟨?_, ?_, nodup_append_fresh nodup missing, ?_, by change _ ≤ p.size + 1; omega, by
          change p.size + 1 ≤ _; omega⟩
        · change List.length (loaded ++ [some c]) = p.size + 1
          rw [List.length_append, length, slots]
          rfl
        · change List.length (keys ++ [_]) = p.size + 1
          rw [List.length_append, count]
          rfl
        · intro key member
          rcases List.mem_append.mp member with old | new
          · exact small key old
          · rw [List.mem_singleton.mp new]; exact inside

end Copy

end SetBench.Art
