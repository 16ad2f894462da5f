import Mathlib

/-! Complete binary trees laid out in an array: the root is node 1, the children of node `ix`
are `2 * ix` and `2 * ix + 1`, and the leaves are the nodes from `leaves` on. -/
namespace SetBench.HeapTree

def parent (ix : Nat) : Nat := ix / 2

def sibling (ix : Nat) : Nat :=
  let leftIx := 2 * parent ix
  if ix = leftIx then leftIx + 1 else leftIx

-- Node `ix` is the leaf `leaf` or one of the nodes above it.
def Under (ix leaf : Nat) : Prop := ∃ level, leaf / 2 ^ level = ix

theorem sibling_cases (ix : Nat) :
    ix = 2 * parent ix ∧ sibling ix = 2 * parent ix + 1 ∨ ix = 2 * parent ix + 1 ∧ sibling ix =
      2 * parent ix := by
  unfold sibling parent
  dsimp only
  split <;> omega

theorem under_self (leaf : Nat) : Under leaf leaf := ⟨0, by rw [Nat.pow_zero, Nat.div_one]⟩

theorem Under.up {ix leaf : Nat} (under : Under ix leaf) : Under (parent ix) leaf := by
  obtain ⟨level, rfl⟩ := under
  exact ⟨level + 1, by rw [Nat.pow_succ, ← Nat.div_div_eq_div_mul]; rfl⟩

theorem Under.le {ix leaf : Nat} (under : Under ix leaf) : ix ≤ leaf := by
  obtain ⟨level, rfl⟩ := under
  exact Nat.div_le_self _ _

theorem Under.eq_or_down {ix leaf : Nat} (under : Under ix leaf) :
    ix = leaf ∨ Under (2 * ix) leaf ∨ Under (2 * ix + 1) leaf := by
  obtain ⟨level, rfl⟩ := under
  cases level with
  | zero => exact .inl (by rw [Nat.pow_zero, Nat.div_one])
  | succ level =>
      right
      rw [Nat.pow_succ, ← Nat.div_div_eq_div_mul]
      rcases Nat.mod_two_eq_zero_or_one (leaf / 2 ^ level) with even | odd
      · exact .inl ⟨level, by omega⟩
      · exact .inr ⟨level, by omega⟩

-- A leaf has no other leaf below it.
theorem Under.leaf {leaves ix leaf : Nat} (under : Under ix leaf) (bound : leaf < 2 * leaves)
    (above : leaves ≤ ix) : ix = leaf := by
  obtain ⟨level, rfl⟩ := under
  cases level with
  | zero => rw [Nat.pow_zero, Nat.div_one]
  | succ level =>
      have half : leaf / 2 ^ (level + 1) ≤ leaf / 2 :=
        Nat.div_le_div_left (Nat.le_self_pow (Nat.succ_ne_zero level) 2) (by decide)
      omega

theorem under_root {leaf : Nat} (positive : 0 < leaf) : Under 1 leaf := by
  induction leaf using Nat.strong_induction_on with
  | _ leaf ih =>
      by_cases one : leaf = 1
      · exact one ▸ under_self leaf
      · obtain ⟨level, half⟩ := ih (leaf / 2) (by omega) (by omega)
        exact ⟨level + 1, by rw [Nat.pow_succ', ← Nat.div_div_eq_div_mul, half]⟩

-- Below the parent of a node is what is below the node and what is below its sibling.
theorem Under.split {leaves ix leaf : Nat} (under : Under (parent ix) leaf)
    (above : leaves ≤ leaf) (inner : parent ix < leaves) :
    Under ix leaf ∨ Under (sibling ix) leaf := by
  have cases := sibling_cases ix
  rcases under.eq_or_down with same | left | right
  · omega
  · rcases cases with ⟨here, _⟩ | ⟨_, there⟩
    · exact .inl (here ▸ left)
    · exact .inr (there ▸ left)
  · rcases cases with ⟨_, there⟩ | ⟨here, _⟩
    · exact .inr (there ▸ right)
    · exact .inl (here ▸ right)

end SetBench.HeapTree
