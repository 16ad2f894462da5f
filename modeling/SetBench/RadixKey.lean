import Mathlib

/-! Keys read as byte strings of one fixed length, most significant byte first, in
an order that compares the first differing byte. Nothing here knows about trees:
`Agree` is the equivalence a compressed prefix stands for. -/
namespace SetBench.Radix

/-- The order of the keys is the lexicographic order of their bytes. -/
class RadixKey (K : Type) extends LinearOrder K where
  size : Nat
  byte : K → Nat → Nat
  byte_lt : ∀ key place, byte key place < 256
  ext : ∀ a b, (∀ place < size, byte a place = byte b place) → a = b
  lt_of_byte : ∀ a b place, place < size → (∀ before < place, byte a before = byte b before) →
    byte a place < byte b place → a < b

variable {K : Type} [RadixKey K]

open RadixKey

def Agree (a b : K) (bound : Nat) : Prop := ∀ place < bound, byte a place = byte b place

instance (a b : K) (bound : Nat) : Decidable (Agree a b bound) :=
  inferInstanceAs (Decidable (∀ place < bound, byte a place = byte b place))

theorem Agree.refl (a : K) (bound : Nat) : Agree a a bound := fun _ _ => rfl

theorem Agree.symm {a b : K} {bound : Nat} (agree : Agree a b bound) : Agree b a bound :=
  fun place below => (agree place below).symm

theorem Agree.trans {a b c : K} {bound : Nat} (first : Agree a b bound) (second : Agree b c bound) :
    Agree a c bound := fun place below => (first place below).trans (second place below)

theorem Agree.mono {a b : K} {bound smaller : Nat} (agree : Agree a b bound)
    (le : smaller ≤ bound) :
    Agree a b smaller := fun place below => agree place (Nat.lt_of_lt_of_le below le)

theorem Agree.zero (a b : K) : Agree a b 0 := fun _ below => absurd below (Nat.not_lt_zero _)

theorem Agree.succ {a b : K} {bound : Nat} (agree : Agree a b bound)
    (same : byte a bound = byte b bound) :
    Agree a b (bound + 1) := by
  intro place below
  rcases Nat.lt_succ_iff_lt_or_eq.mp below with earlier | rfl
  · exact agree place earlier
  · exact same

/-- Two keys first differ at `place`. -/
def Parts (a b : K) (place : Nat) : Prop := Agree a b place ∧ byte a place ≠ byte b place

theorem Parts.symm {a b : K} {place : Nat} (parts : Parts a b place) : Parts b a place :=
  ⟨parts.1.symm, parts.2.symm⟩

theorem Parts.unique {a b : K} {one other : Nat} (first : Parts a b one)
    (second : Parts a b other) :
    one = other := by
  rcases Nat.lt_trichotomy one other with less | same | more
  · exact absurd (second.1 one less) first.2
  · exact same
  · exact absurd (first.1 other more) second.2

theorem agree_size {a b : K} (agree : Agree a b (size K)) : a = b := ext a b agree

theorem exists_parts {a b : K} (different : a ≠ b) : ∃ place < size K, Parts a b place := by
  have some_ : ∃ place, place < size K ∧ byte a place ≠ byte b place := by
    by_contra none_
    push Not at none_
    exact different (ext a b none_)
  classical
  obtain ⟨below, differ⟩ := Nat.find_spec some_
  refine ⟨Nat.find some_, below, fun place earlier => ?_, differ⟩
  by_contra here
  exact Nat.find_min some_ earlier ⟨earlier.trans below, here⟩

theorem Parts.lt_size {a b : K} {place : Nat} (parts : Parts a b place) : place < size K := by
  have different : a ≠ b := fun same => parts.2 (by rw [same])
  obtain ⟨other, below, there⟩ := exists_parts different
  rw [parts.unique there]
  exact below

theorem Parts.lt_iff {a b : K} {place : Nat} (parts : Parts a b place) :
    a < b ↔ byte a place < byte b place := by
  constructor
  · intro less
    rcases Nat.lt_trichotomy (byte a place) (byte b place) with below | same | above
    · exact below
    · exact absurd same parts.2
    · exact absurd (lt_of_byte b a place parts.lt_size parts.1.symm above) (lt_asymm less)
  · exact lt_of_byte a b place parts.lt_size parts.1

theorem Agree.byte_le_of_le {a b : K} {place : Nat} (agree : Agree a b place) (le : a ≤ b) :
    byte a place ≤ byte b place := by
  by_cases same : byte a place = byte b place
  · exact same.le
  · have parts : Parts a b place := ⟨agree, same⟩
    have different : a ≠ b := fun equal => same (by rw [equal])
    exact (parts.lt_iff.mp (lt_of_le_of_ne le different)).le

/-! The 64-bit integer keys of `int_string`: byte `pos` is bits `8 * (7 - pos)` and up. -/

abbrev Key := Fin (2 ^ 64)

instance neZeroKeys : NeZero (2 ^ 64) := ⟨Nat.two_pow_pos 64 |>.ne'⟩

def getByte (key : Key) (pos : Nat) : Nat := (key.val >>> (8 * (8 - 1 - pos))) % 256

theorem getByte_eq (key : Key) (pos : Nat) : getByte key pos = key.val / 256 ^ (7 - pos) % 256 := by
  have power : 2 ^ (8 * (8 - 1 - pos)) = 256 ^ (7 - pos) := by
    rw [Nat.pow_mul]
  rw [getByte, Nat.shiftRight_eq_div_pow, power]

theorem div_byte (number : Nat) {place : Nat} (below : place < 8) :
    number / 256 ^ (8 - place) = number / 256 ^ (7 - place) / 256 := by
  rw [show 8 - place = (7 - place) + 1 by omega, Nat.pow_succ, Nat.div_div_eq_div_mul]

-- The first `bound` bytes together are the number without its last `8 - bound` bytes.
theorem top_eq_of_bytes {a b : Key} {bound : Nat} (le : bound ≤ 8)
    (same : ∀ place < bound, getByte a place = getByte b place) :
    a.val / 256 ^ (8 - bound) = b.val / 256 ^ (8 - bound) := by
  induction bound with
  | zero =>
      have small (key : Key) : key.val / 256 ^ 8 = 0 :=
        Nat.div_eq_of_lt (by have := key.isLt; omega)
      rw [Nat.sub_zero, small, small]
  | succ bound ih =>
      have earlier := ih (by omega) fun place below => same place (by omega)
      have here := same bound (by omega)
      rw [getByte_eq, getByte_eq] at here
      rw [div_byte _ (by omega), div_byte _ (by omega)] at earlier
      rw [show 8 - (bound + 1) = 7 - bound by omega]
      omega

instance : RadixKey Key where
  size := 8
  byte := getByte
  byte_lt := fun _ _ => Nat.mod_lt _ (by decide)
  ext := by
    intro a b same
    have equal := top_eq_of_bytes (Nat.le_refl 8) same
    simp only [Nat.sub_self, Nat.pow_zero, Nat.div_one] at equal
    exact Fin.ext equal
  lt_of_byte := by
    intro a b place below same less
    have top := top_eq_of_bytes (Nat.le_of_lt below) same
    rw [div_byte _ below, div_byte _ below] at top
    rw [getByte_eq, getByte_eq] at less
    have digits : a.val / 256 ^ (7 - place) < b.val / 256 ^ (7 - place) := by omega
    refine Fin.lt_def.mpr ?_
    by_contra above
    exact absurd (Nat.div_le_div_right (Nat.le_of_not_lt above)) (Nat.not_le_of_lt digits)

end SetBench.Radix
