import Mathlib

/-! Ordered sets of bytes as 256-bit maps of four 64-bit words, the highest bit of a
word standing for its smallest byte. The position of a byte among the present ones
is read off by counting the ones to its left. -/
namespace SetBench.Bitmap

abbrev ByteMap := Nat → BitVec 64

def popcount (word : BitVec 64) : Nat := {bit ∈ Finset.range 64 | word.getLsbD bit}.card

def wordIdxAndBit (byteval : Nat) : Nat × Nat := (byteval / 64, 63 - byteval % 64)

def hasBit (bitmap : ByteMap) (place : Nat × Nat) : Bool :=
  bitmap place.1 &&& (1#64 <<< place.2) != 0#64

def setBit (bitmap : ByteMap) (place : Nat × Nat) : ByteMap := fun word =>
  if word = place.1 then bitmap word ||| (1#64 <<< place.2) else bitmap word

def onesToLeft (bitmap : ByteMap) (place : Nat × Nat) : Nat :=
  (∑ word ∈ Finset.range place.1, popcount (bitmap word)) +
    if place.2 ≠ 63 then popcount (bitmap place.1 &&& ~~~((1#64 <<< (place.2 + 1)) - 1#64)) else 0

def totalPopcount (bitmap : ByteMap) : Nat := ∑ word ∈ Finset.range 4, popcount (bitmap word)

-- Membership and position of a byte, in the terms a reader of the set uses.
def has (bitmap : ByteMap) (byteval : Nat) : Bool := hasBit bitmap (wordIdxAndBit byteval)

def add (bitmap : ByteMap) (byteval : Nat) : ByteMap := setBit bitmap (wordIdxAndBit byteval)

def rank (bitmap : ByteMap) (byteval : Nat) : Nat :=
  {other ∈ Finset.range byteval | has bitmap other}.card

theorem hasBit_eq (bitmap : ByteMap) {place : Nat × Nat} (inside : place.2 < 64) :
    hasBit bitmap place = (bitmap place.1).getLsbD place.2 := by
  rw [hasBit, Bool.eq_iff_iff, bne_iff_ne, Ne, BitVec.eq_of_getLsbD_eq_iff]
  constructor
  · intro differ
    push Not at differ
    obtain ⟨bit, below, set⟩ := differ
    have here : bit = place.2 := by
      by_contra other
      have : (1#64 <<< place.2).getLsbD bit = false := by
        simp only [BitVec.getLsbD_shiftLeft, BitVec.getLsbD_one, below, decide_true, Bool.true_and]
        by_cases less : bit < place.2
        · simp [less]
        · have : bit - place.2 ≠ 0 := by omega
          simp [this]
      simp [this] at set
    subst here
    simpa [below] using set
  · intro set all
    have clear := all place.2 inside
    rw [BitVec.getLsbD_and, set] at clear
    simp [inside] at clear

theorem getLsbD_setBit (bitmap : ByteMap) (place : Nat × Nat) (word : Nat) {bit : Nat}
    (inside : bit < 64) :
    (setBit bitmap place word).getLsbD bit =
      ((bitmap word).getLsbD bit || decide (word = place.1 ∧ bit = place.2)) := by
  by_cases same : word = place.1
  · subst same
    simp only [setBit, if_true, BitVec.getLsbD_or, BitVec.getLsbD_shiftLeft, inside,
      decide_true, Bool.true_and, BitVec.getLsbD_one, true_and]
    congr 1
    by_cases less : bit < place.2
    · have : bit ≠ place.2 := by omega
      simp [less, this]
    · by_cases here : bit = place.2
      · simp [here]
      · have : bit - place.2 ≠ 0 := by omega
        simp [here, this]
  · simp [setBit, same]

theorem has_eq (bitmap : ByteMap) (byteval : Nat) :
    has bitmap byteval = (bitmap (byteval / 64)).getLsbD (63 - byteval % 64) :=
  hasBit_eq bitmap (by simp only [wordIdxAndBit]; omega)

theorem has_add (bitmap : ByteMap) (byteval other : Nat) :
    has (add bitmap byteval) other = (has bitmap other || decide (other = byteval)) := by
  rw [has_eq, has_eq, add, getLsbD_setBit _ _ _ (by omega)]
  congr 1
  rw [decide_eq_decide]
  simp only [wordIdxAndBit]
  omega

@[simp] theorem has_empty (byteval : Nat) : has (fun _ => 0#64) byteval = false := by
  simp [has_eq]

@[simp] theorem rank_zero (bitmap : ByteMap) : rank bitmap 0 = 0 := rfl

theorem rank_succ (bitmap : ByteMap) (byteval : Nat) :
    rank bitmap (byteval + 1) = rank bitmap byteval + if has bitmap byteval then 1 else 0 := by
  simp only [rank, Finset.card_filter, Finset.sum_range_succ]

theorem rank_mono (bitmap : ByteMap) {low high : Nat} (le : low ≤ high) :
    rank bitmap low ≤ rank bitmap high :=
  Finset.card_le_card (Finset.filter_subset_filter _ (Finset.range_subset_range.mpr le))

theorem rank_lt (bitmap : ByteMap) {low high : Nat} (present : has bitmap low = true)
    (less : low < high) :
    rank bitmap low < rank bitmap high := by
  have step := rank_succ bitmap low
  have later := rank_mono bitmap (show low + 1 ≤ high from less)
  simp only [present, if_true] at step
  omega

theorem rank_injective (bitmap : ByteMap) {one other : Nat} (first : has bitmap one = true)
    (second : has bitmap other = true) (same : rank bitmap one = rank bitmap other) :
    one = other := by
  rcases Nat.lt_trichotomy one other with less | equal | more
  · exact absurd same (rank_lt bitmap first less).ne
  · exact equal
  · exact absurd same (rank_lt bitmap second more).ne'

theorem rank_add (bitmap : ByteMap) {byteval : Nat} (absent : has bitmap byteval = false)
    (other : Nat) :
    rank (add bitmap byteval) other = rank bitmap other + if byteval < other then 1 else 0 := by
  induction other with
  | zero => simp
  | succ other ih =>
      rw [rank_succ, rank_succ, ih, has_add]
      by_cases here : other = byteval
      · subst here
        simp [absent]
      · by_cases less : byteval < other
        · have : byteval < other + 1 := by omega
          simp [here, less, this]
          omega
        · have : ¬ byteval < other + 1 := by omega
          simp [here, less, this]

theorem rank_congr {one other : ByteMap} {bound : Nat}
    (same : ∀ byteval < bound, has one byteval = has other byteval) :
    rank one bound = rank other bound := by
  rw [rank, rank]
  congr 1
  apply Finset.filter_congr
  intro byteval member
  rw [same byteval (Finset.mem_range.mp member)]

-- The bytes of one word: the highest `count` bits stand for its first `count` bytes.
theorem rank_word (bitmap : ByteMap) (word : Nat) {count : Nat} (le : count ≤ 64) :
    rank bitmap (64 * word + count) = rank bitmap (64 * word) +
      {bit ∈ Finset.range 64 | (bitmap word).getLsbD bit ∧ 64 - count ≤ bit}.card := by
  have inside (place : Nat) (below : place < count) :
      has bitmap (64 * word + place) = (bitmap word).getLsbD (63 - place) := by
    rw [has_eq, show (64 * word + place) / 64 = word by omega,
      show (64 * word + place) % 64 = place by omega]
  have split : rank bitmap (64 * word + count) = rank bitmap (64 * word) +
      {place ∈ Finset.range count | has bitmap (64 * word + place)}.card := by
    simp only [rank, Finset.card_filter, Finset.sum_range_add]
  rw [split, Nat.add_left_cancel_iff]
  refine Finset.card_nbij' (fun place => 63 - place) (fun bit => 63 - bit) ?_ ?_ ?_ ?_
  · intro place member
    simp only [Finset.coe_filter, Finset.mem_range, Set.mem_ofPred_eq] at member ⊢
    rw [inside place member.1] at member
    exact ⟨by omega, member.2, by omega⟩
  · intro bit member
    simp only [Finset.coe_filter, Finset.mem_range, Set.mem_ofPred_eq] at member ⊢
    refine ⟨by omega, ?_⟩
    rw [inside _ (by omega), show 63 - (63 - bit) = bit by omega]
    exact member.2.1
  · intro place member
    simp only [Finset.coe_filter, Finset.mem_range, Set.mem_ofPred_eq] at member
    simp only
    omega
  · intro bit member
    simp only [Finset.coe_filter, Finset.mem_range, Set.mem_ofPred_eq] at member
    simp only
    omega

theorem sum_popcount (bitmap : ByteMap) (words : Nat) :
    ∑ word ∈ Finset.range words, popcount (bitmap word) = rank bitmap (64 * words) := by
  induction words with
  | zero => rfl
  | succ words ih =>
      rw [Finset.sum_range_succ, ih, show 64 * (words + 1) = 64 * words + 64 by omega,
        rank_word bitmap words (Nat.le_refl 64)]
      simp [popcount]

theorem totalPopcount_eq (bitmap : ByteMap) : totalPopcount bitmap = rank bitmap 256 :=
  sum_popcount bitmap 4

theorem getLsbD_left (word : BitVec 64) {bit place : Nat} (below : place < 63) (inside : bit < 64) :
    (word &&& ~~~((1#64 <<< (place + 1)) - 1#64)).getLsbD bit =
      (word.getLsbD bit && decide (place < bit)) := by
  have value : ((1#64 <<< (place + 1)) - 1#64).toNat = 2 ^ (place + 1) - 1 := by
    have power : 2 ^ (place + 1) < 2 ^ 64 := Nat.pow_lt_pow_right (by decide) (by omega)
    have positive := Nat.two_pow_pos (place + 1)
    rw [BitVec.toNat_sub_of_le]
    · rw [BitVec.toNat_shiftLeft, BitVec.toNat_one (by decide), Nat.one_shiftLeft,
        Nat.mod_eq_of_lt power]
    · rw [BitVec.le_def, BitVec.toNat_shiftLeft, BitVec.toNat_one (by decide), Nat.one_shiftLeft,
        Nat.mod_eq_of_lt power]
      exact positive
  have mask : ((1#64 <<< (place + 1)) - 1#64).getLsbD bit = decide (bit < place + 1) := by
    rw [← BitVec.testBit_toNat, value, Nat.testBit_two_pow_sub_one]
  rw [BitVec.getLsbD_and, BitVec.getLsbD_not, mask]
  congr 1
  simp only [inside, decide_true, Bool.true_and, ← decide_not, decide_eq_decide]
  omega

/-- The masked count of the source is the number of smaller bytes present. -/
theorem onesToLeft_eq (bitmap : ByteMap) (byteval : Nat) :
    onesToLeft bitmap (wordIdxAndBit byteval) = rank bitmap byteval := by
  have shape : byteval = 64 * (byteval / 64) + byteval % 64 := by omega
  have bound : byteval % 64 < 64 := by omega
  have unfolded : onesToLeft bitmap (wordIdxAndBit byteval) = rank bitmap (64 * (byteval / 64)) +
      if 63 - byteval % 64 ≠ 63 then
        popcount (bitmap (byteval / 64) &&& ~~~((1#64 <<< (63 - byteval % 64 + 1)) - 1#64))
          else 0 := by
    rw [← sum_popcount]
    rfl
  rw [unfolded]
  conv_rhs => rw [shape, rank_word bitmap _ bound.le]
  rw [Nat.add_left_cancel_iff]
  by_cases first : byteval % 64 = 0
  · have none_ : {bit ∈ Finset.range 64 | (bitmap (byteval / 64)).getLsbD bit ∧ 64 - 0 ≤ bit} =
      ∅ := by
      rw [Finset.filter_eq_empty_iff]
      intro bit member
      rw [Finset.mem_range] at member
      omega
    simp only [first, none_]
    rfl
  · have other : 63 - byteval % 64 ≠ 63 := by omega
    rw [if_pos other, popcount]
    congr 1
    apply Finset.filter_congr
    intro bit member
    rw [Finset.mem_range] at member
    rw [getLsbD_left _ (by omega) member]
    simp only [Bool.and_eq_true, decide_eq_true_eq]
    constructor
    · exact fun held => ⟨held.1, by omega⟩
    · exact fun held => ⟨held.1, by omega⟩

end SetBench.Bitmap
