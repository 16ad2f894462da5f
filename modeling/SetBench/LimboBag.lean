import Mathlib
import SetBench.Transition

/-! The block bags of common/recordmgr/blockbag.h: a head block that is not full and a list
of full blocks behind it. `size` is BLOCK_SIZE. -/
namespace SetBench.LimboBag

universe u
variable {Item : Type u}

structure Bag (Item : Type u) where
  head : List Item
  full : List (List Item)
  deriving DecidableEq, Repr

namespace Bag

def empty : Bag Item := ⟨[], []⟩

def items (bag : Bag Item) : List Item := bag.head ++ bag.full.flatten

def isEmpty (bag : Bag Item) : Bool := bag.head.isEmpty && bag.full.isEmpty

-- Blocks are stacks; a head block that fills up gets an empty one before it.
def add (size : Nat) (bag : Bag Item) (item : Item) : Bag Item :=
  if bag.head.length + 1 = size then ⟨[], (item :: bag.head) :: bag.full⟩
  else ⟨item :: bag.head, bag.full⟩

def remove (bag : Bag Item) : Option (Item × Bag Item) :=
  match bag.head, bag.full with
  | item :: head, full => some (item, ⟨head, full⟩)
  | [], (item :: head) :: full => some (item, ⟨head, full⟩)
  | [], _ => none

-- The two halves of appendMoveFullBlocks.
def append (bag other : Bag Item) : Bag Item := ⟨bag.head, bag.full ++ other.full⟩

def rest (bag : Bag Item) : Bag Item := ⟨bag.head, []⟩

def moved (bag : Bag Item) : List Item := bag.full.flatten

def total (measure : Item → Nat) (bag : Bag Item) : Nat := (bag.items.map measure).sum

theorem mem_add {size : Nat} {bag : Bag Item} {item x : Item} :
    x ∈ (bag.add size item).items ↔ x = item ∨ x ∈ bag.items := by
  unfold add
  split <;> simp [items]

theorem mem_moved {bag : Bag Item} {x : Item} (member : x ∈ bag.moved) : x ∈ bag.items :=
  List.mem_append_right _ member

theorem mem_rest {bag : Bag Item} {x : Item} (member : x ∈ bag.rest.items) : x ∈ bag.items := by
  simp only [items, rest, List.flatten_nil, List.append_nil] at member
  exact List.mem_append_left _ member

theorem mem_append {bag other : Bag Item} {x : Item} :
    x ∈ (bag.append other).items ↔ x ∈ bag.items ∨ x ∈ other.moved := by
  simp [items, append, moved, or_assoc]

theorem remove_items {bag after : Bag Item} {item : Item}
    (removed : bag.remove = some (item, after)) : bag.items = item :: after.items := by
  unfold remove at removed
  split at removed
  · rename_i top
    cases removed
    simp [items, top]
  · rename_i top below
    cases removed
    simp [items, top, below]
  · cases removed

theorem total_add (measure : Item → Nat) (size : Nat) (bag : Bag Item) (item : Item) :
    (bag.add size item).total measure = bag.total measure + measure item := by
  unfold add
  split
  · simp only [total, items, List.nil_append, List.flatten_cons, List.cons_append, List.map_cons,
      List.sum_cons]
    omega
  · simp only [total, items, List.cons_append, List.map_cons, List.sum_cons]
    omega

theorem total_remove (measure : Item → Nat) {bag after : Bag Item} {item : Item}
    (removed : bag.remove = some (item, after)) :
    bag.total measure = measure item + after.total measure := by
  rw [total, remove_items removed, List.map_cons, List.sum_cons]
  rfl

theorem total_append (measure : Item → Nat) (bag other : Bag Item) :
    (bag.append other).total measure = bag.total measure + (other.moved.map measure).sum := by
  simp only [total, items, append, moved, List.flatten_append, List.map_append, List.sum_append]
  omega

theorem total_rest (measure : Item → Nat) (bag : Bag Item) :
    bag.rest.total measure + (bag.moved.map measure).sum = bag.total measure := by
  simp only [total, items, rest, moved, List.flatten_nil, List.append_nil, List.map_append,
    List.sum_append]

end Bag

/-! Three bags that are used in turn. -/

def bagsTotal (measure : Item → Nat) (bags : Fin 3 → Bag Item) : Nat :=
  (bags 0).total measure + (bags 1).total measure + (bags 2).total measure

theorem bagsTotal_update (measure : Item → Nat) (bags : Fin 3 → Bag Item) (i : Fin 3)
    (bag : Bag Item) :
    bagsTotal measure (Function.update bags i bag) + (bags i).total measure =
      bagsTotal measure bags + bag.total measure := by
  unfold bagsTotal
  match i with
  | 0 =>
      rw [Function.update_self, Function.update_of_ne (by decide),
        Function.update_of_ne (by decide)]
      omega
  | 1 =>
      rw [Function.update_self, Function.update_of_ne (by decide),
        Function.update_of_ne (by decide)]
      omega
  | 2 =>
      rw [Function.update_self, Function.update_of_ne (by decide),
        Function.update_of_ne (by decide)]
      omega

/-! Counting the items with one serial number. -/

def marks (serial : Item → Nat) (number : Nat) (item : Item) : Nat :=
  if serial item = number then 1 else 0

def tally (serial : Item → Nat) (number : Nat) (list : List Item) : Nat :=
  (list.map (marks serial number)).sum

theorem tally_append (serial : Item → Nat) (number : Nat) (first second : List Item) :
    tally serial number (first ++ second) = tally serial number first + tally serial number
      second := by
  simp only [tally, List.map_append, List.sum_append]

theorem tally_eq_count (serial : Item → Nat) (number : Nat) (list : List Item) :
    tally serial number list = (list.map serial).count number := by
  induction list with
  | nil => rfl
  | cons item rest ih =>
      simp only [tally, marks, List.map_cons, List.sum_cons, List.count_cons, beq_iff_eq] at ih ⊢
      omega

-- The next retire call takes the next serial number.
theorem once_more {known next number : Nat} (before : known ≤ if number < next then 1 else 0) :
    known + (if next = number then 1 else 0) ≤ if number < next + 1 then 1 else 0 := by
  rcases Nat.lt_trichotomy number next with old | rfl | new
  · rw [if_pos old] at before
    rw [if_neg (by omega), if_pos (by omega)]
    exact before
  · rw [if_neg (Nat.lt_irrefl number)] at before
    rw [if_pos rfl, if_pos (Nat.lt_succ_self number)]
    omega
  · rw [if_neg (by omega)] at before
    rw [if_neg (by omega), if_neg (by omega)]
    exact before

theorem nodup_of_tally {serial : Item → Nat} {list : List Item}
    (once : ∀ number, tally serial number list ≤ 1) :
    (list.map serial).Nodup := by
  apply List.nodup_iff_count_le_one.mpr
  intro number
  rw [← tally_eq_count]
  exact once number

-- The three bags of a thread, around from the one at index i.
theorem fin_around (i : Fin 3) :
    i + 1 + 2 = i ∧ i + 1 + 1 = i + 2 ∧ i ≠ i + 1 ∧ i + 2 ≠ i + 1 ∧ i + 2 ≠ i ∧ i + 1 ≠ i := by
  revert i
  decide

end SetBench.LimboBag
