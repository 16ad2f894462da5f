import SetBench.DoubleLogTree

/-! The two forms of sparse_node::get_child in art_double_log_leaves.h. With SPARSE_NODE_SIMD
the key byte is compared with one vector of sixteen lanes, also where keys[] holds no slot
byte yet; max_sparse_size is seventeen in this build. -/
namespace SetBench.DoubleLog

open Radix

/-- `keys` is the whole array; what lies beyond `size` is left over from before. -/
structure SparseNode where
  size : Nat
  byteNum : Nat
  keys : List (BitVec 8)
  length : keys.length = maxSparseSize
  fits : size ≤ maxSparseSize
  distinct : (keys.take size).Nodup

def lanes : Nat := 16

-- _mm_cmpeq_epi8
def cmpeq (key : BitVec 8) (vec : List (BitVec 8)) : List (BitVec 8) :=
  vec.map fun lane => if key = lane then 255#8 else 0#8

-- _mm_movemask_epi8
def movemask : List (BitVec 8) → Nat
  | [] => 0
  | lane :: rest => (if lane.msb then 1 else 0) + 2 * movemask rest

-- __builtin_ctz
def ctz (mask : Nat) : Nat := ((List.range 32).find? mask.testBit).getD 32

variable {K : Type} [RadixKey K]

namespace SparseNode

-- The loop over the keys.
def getChild (node : SparseNode) (k : K) : Option Nat :=
  (List.range node.size).find? fun i => (node.keys.getD i 0#8).toNat == RadixKey.byte k node.byteNum

-- The SPARSE_NODE_SIMD path; the index is that of the returned pointer.
def getChildSimd (node : SparseNode) (k : K) : Option Nat :=
  let key := BitVec.ofNat 8 (RadixKey.byte k node.byteNum)
  let mask := movemask (cmpeq key (node.keys.take lanes))
  if 0 < mask then
    let idx := ctz mask
    if idx < node.size then some idx else none
  else none

end SparseNode

theorem testBit_movemask (vec : List (BitVec 8)) (i : Nat) :
    (movemask vec).testBit i = (vec.getD i 0#8).msb := by
  induction vec generalizing i with
  | nil => simp [movemask]
  | cons lane rest ih =>
      have bit : (if lane.msb then 1 else 0) < 2 := by split <;> omega
      cases i with
      | zero =>
          rw [movemask, Nat.testBit_zero, Nat.add_mul_mod_self_left, List.getD_cons_zero]
          cases lane.msb <;> rfl
      | succ i =>
          have half : ((if lane.msb then 1 else 0) + 2 * movemask rest) / 2 = movemask rest := by
            rw [Nat.add_mul_div_left _ _ (Nat.succ_pos 1), Nat.div_eq_of_lt bit, Nat.zero_add]
          rw [movemask, Nat.testBit_succ, half, ih, List.getD_cons_succ]

-- Bit i is set exactly for a matching lane.
theorem testBit_cmpeq (key : BitVec 8) (vec : List (BitVec 8)) (i : Nat) :
    (movemask (cmpeq key vec)).testBit i = true ↔ vec[i]? = some key := by
  rw [testBit_movemask, cmpeq, List.getD_eq_getElem?_getD, List.getElem?_map]
  cases vec[i]? with
  | none => simp
  | some lane =>
      simp only [Option.map_some, Option.getD_some, Option.some.injEq]
      by_cases same : key = lane
      · subst same
        rw [if_pos rfl]
        simp only [iff_true]
        decide
      · simp [same, Ne.symm same]

theorem ctz_some {mask i : Nat} (found : (List.range 32).find? mask.testBit = some i) :
    ctz mask = i := by
  rw [ctz, found, Option.getD_some]

namespace SparseNode

variable {node : SparseNode} {k : K}

theorem same_key (node : SparseNode) (k : K) (i : Nat) (inside : i < maxSparseSize) :
    (node.keys.getD i 0#8).toNat = RadixKey.byte k node.byteNum ↔ node.keys[i]? =
    some (BitVec.ofNat 8 (RadixKey.byte k node.byteNum)) := by
  have byte := RadixKey.byte_lt k node.byteNum
  have present : i < node.keys.length := by rw [node.length]; exact inside
  rw [List.getD_eq_getElem?_getD, List.getElem?_eq_getElem present, Option.getD_some,
    Option.some.injEq, ← BitVec.toNat_inj,
    BitVec.toNat_ofNat, Nat.mod_eq_of_lt byte]

-- At most one slot below `size` has a byte.
theorem slot_unique {key : BitVec 8} {i j : Nat} (first : i < node.size) (second : j < node.size)
    (here : node.keys[i]? = some key) (there : node.keys[j]? = some key) : i = j := by
  have length : (node.keys.take node.size).length = node.size := by
    rw [List.length_take, node.length]
    exact Nat.min_eq_left node.fits
  have first' : i < (node.keys.take node.size).length := by rw [length]; exact first
  have second' : j < (node.keys.take node.size).length := by rw [length]; exact second
  have same : (⟨i, first'⟩ : Fin (node.keys.take node.size).length) = ⟨j, second'⟩ := by
    refine List.nodup_iff_injective_get.mp node.distinct ?_
    rw [List.get_eq_getElem, List.get_eq_getElem, List.getElem_take, List.getElem_take]
    exact Option.some.inj ((List.getElem?_eq_getElem _).symm.trans
      (here.trans (there.symm.trans (List.getElem?_eq_getElem _))))
  exact congrArg Fin.val same

theorem getChild_iff (node : SparseNode) (k : K) (i : Nat) : node.getChild k = some i ↔
    i < node.size ∧ node.keys[i]? = some (BitVec.ofNat 8 (RadixKey.byte k node.byteNum)) := by
  rw [getChild, List.find?_range_eq_some]
  simp only [beq_iff_eq, List.mem_range, Bool.not_eq_true', beq_eq_false_iff_ne]
  constructor
  · rintro ⟨match_, inside, _⟩
    exact ⟨inside, (same_key node k i (inside.trans_le node.fits)).mp match_⟩
  · rintro ⟨inside, match_⟩
    refine ⟨(same_key node k i (inside.trans_le node.fits)).mpr match_, inside,
      fun j less same => ?_⟩
    have there := (same_key node k j ((less.trans inside).trans_le node.fits)).mp same
    exact Nat.ne_of_lt less (slot_unique (less.trans inside) inside there match_)

theorem getChildSimd_iff (node : SparseNode) (k : K) (i : Nat) : node.getChildSimd k = some i ↔
    i < lanes ∧ i < node.size ∧ node.keys[i]? =
      some (BitVec.ofNat 8 (RadixKey.byte k node.byteNum)) := by
  have sixteen : lanes = 16 := rfl
  have bits (j : Nat) : (movemask (cmpeq (BitVec.ofNat 8 (RadixKey.byte k node.byteNum))
    (node.keys.take lanes))).testBit j = true ↔
      j < lanes ∧ node.keys[j]? = some (BitVec.ofNat 8 (RadixKey.byte k node.byteNum)) := by
    rw [testBit_cmpeq, List.getElem?_take]
    by_cases below : j < lanes
    · rw [if_pos below]
      exact (and_iff_right below).symm
    · rw [if_neg below]
      simp [below]
  simp only [getChildSimd]
  generalize movemask (cmpeq (BitVec.ofNat 8 (RadixKey.byte k node.byteNum))
    (node.keys.take lanes)) = mask at bits
  constructor
  · intro found
    split at found
    · rename_i positive
      split at found
      · rename_i room
        cases found
        cases lowest : (List.range 32).find? mask.testBit with
        | none =>
            -- a positive mask has a bit, and all its bits are lanes
            exfalso
            refine Nat.ne_of_gt positive (Nat.eq_of_testBit_eq fun j => ?_)
            rw [Nat.zero_testBit]
            by_contra set
            have set : mask.testBit j = true := by simpa using set
            have below := ((bits j).mp set).1
            exact absurd set (by simpa using List.find?_eq_none.mp lowest j (List.mem_range.mpr (by
              omega)))
        | some j =>
            rw [ctz_some lowest] at room ⊢
            have set := (List.find?_range_eq_some.mp lowest).1
            obtain ⟨below, here⟩ := (bits j).mp set
            exact ⟨below, room, here⟩
      · cases found
    · cases found
  · rintro ⟨below, inside, here⟩
    have set := (bits i).mpr ⟨below, here⟩
    have positive : 0 < mask := by
      refine Nat.pos_of_ne_zero fun zero => ?_
      rw [zero, Nat.zero_testBit] at set
      cases set
    have lowest : (List.range 32).find? mask.testBit = some i := by
      refine List.find?_range_eq_some.mpr ⟨set, List.mem_range.mpr (by omega), fun j less => ?_⟩
      by_contra other
      have other : mask.testBit j = true := by simpa using other
      exact Nat.ne_of_lt less (slot_unique (less.trans inside) inside ((bits j).mp other).2 here)
    rw [if_pos positive, ctz_some lowest, if_pos inside]

end SparseNode

/-- The vector path answers like the loop exactly when the byte is not in the seventeenth slot. -/
theorem simd_agrees_iff (node : SparseNode) (k : K) : node.getChildSimd k = node.getChild k ↔
    ¬ (node.size = maxSparseSize ∧ (node.keys.getD lanes 0#8).toNat = RadixKey.byte k
      node.byteNum) := by
  have seventeen : maxSparseSize = 17 := rfl
  have sixteen : lanes = 16 := rfl
  rw [SparseNode.same_key node k lanes (by decide)]
  constructor
  · rintro same ⟨full, last⟩
    have plain := (node.getChild_iff k lanes).mpr ⟨by omega, last⟩
    rw [← same, node.getChildSimd_iff] at plain
    exact Nat.lt_irrefl _ plain.1
  · intro inside
    refine Option.ext fun i => ?_
    rw [node.getChildSimd_iff, node.getChild_iff, and_iff_right_iff_imp]
    rintro ⟨small, here⟩
    by_contra beyond
    have fits := node.fits
    have last : i = lanes := by omega
    subst last
    exact inside ⟨by omega, here⟩

-- A full node with the bytes 0 to 16 and the byte 16.
def fullNode : SparseNode :=
  ⟨17, 7, (List.range 17).map (BitVec.ofNat 8), by decide, by decide, by decide⟩

theorem seventeenth_slot_missed :
    ¬ ∀ (node : SparseNode) (k : Key), node.getChildSimd k = node.getChild k := by
  intro always
  have same := always fullNode 16
  have plain : fullNode.getChild (16 : Key) = some 16 := by decide +kernel
  have vector : fullNode.getChildSimd (16 : Key) = none := by decide +kernel
  rw [plain, vector] at same
  cases same

end SetBench.DoubleLog
