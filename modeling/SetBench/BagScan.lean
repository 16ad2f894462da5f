import Mathlib

/-! Erasing while iterating over a blockbag (blockbag.h). The bag is seen from the iterator: the
blocks before the current one from the head on, the current block and the blocks behind it. -/
namespace SetBench.BagScan

variable {T : Type}

/-- `left` is the iterator's ix + 1. -/
structure Iter (T : Type) where
  before : List (List T)
  curr : List T
  left : Nat
  after : List (List T)

/-- `done` when curr is NULL, with the blocks of the bag. -/
inductive Cursor (T : Type) where
  | done (blocks : List (List T))
  | at (it : Iter T)

-- block::erase(ix)
def blockErase (data : List T) (ix : Nat) : List T :=
  match data.getLast? with
  | none => data
  | some last => if ix ≠ data.length - 1 then (data.set ix last).dropLast else data.dropLast

namespace Iter

-- operator++
def next (it : Iter T) : Cursor T :=
  if it.left - 1 = 0 then
    match it.after with
    | [] => .done (it.before ++ [it.curr])
    | block :: rest => .at ⟨it.before ++ [it.curr], block, block.length, rest⟩
  else .at { it with left := it.left - 1 }

end Iter

def Cursor.next : Cursor T → Cursor T
  | .done blocks => .done blocks
  | .at it => it.next

namespace Iter

-- An empty head block is given back before anything is erased.
def dropHead (it : Iter T) : Iter T :=
  match it.before with
  | [] :: rest => { it with before := rest }
  | _ => it

/-- blockbag::erase(curr, ix). The result is true when an object of the head block took the
place. -/
def bagErase (it : Iter T) : Iter T × Bool :=
  match it.dropHead.before with
  | [] => ({ it.dropHead with curr := blockErase it.curr (it.left - 1) }, false)
  | head :: rest =>
      match head.getLast? with
      | none => (it.dropHead, true)
      | some obj =>
          ({ it.dropHead with
            before := head.dropLast :: rest
            curr := it.curr.set (it.left - 1) obj }, true)

-- blockbag_iterator::erase()
def erase (it : Iter T) : Cursor T :=
  let (erased, result) := it.bagErase
  let moved := if erased.left - 1 ≥ erased.curr.length then erased.next else .at erased
  if result then moved.next else moved

end Iter

def begin : List (List T) → Cursor T
  | [] => .done []
  | head :: rest => (Iter.mk [] head (head.length + 1) rest).next

/-- The scan from begin() to end(): what it presents, and the blocks at its end. -/
def scan (chosen : T → Bool) : Nat → Cursor T → Option (List T × List (List T))
  | 0, _ => none
  | _ + 1, .done blocks => some ([], blocks)
  | fuel + 1, .at it =>
      match it.curr[it.left - 1]? with
      | none => none
      | some x =>
          (scan chosen fuel (if chosen x then it.erase else it.next)).map fun rest =>
          (x :: rest.1, rest.2)

/-- The head is not full, the blocks behind it are. -/
structure Bag (blockSize : Nat) (blocks : List (List T)) : Prop where
  head : ∃ head rest, blocks = head :: rest ∧ head.length < blockSize ∧
    ∀ block ∈ rest, block.length = blockSize
  distinct : blocks.flatten.Nodup

/-- Each object is presented once, and exactly the chosen ones are gone. -/
def Exact (chosen : T → Bool) (blocks : List (List T)) : Prop :=
  ∃ fuel presented left, scan chosen fuel (begin blocks) = some (presented, left) ∧
    presented.Perm blocks.flatten ∧
    left.flatten.Perm (blocks.flatten.filter fun x => !chosen x)

/-- The objects of a block from the top: one is erased only while the blocks before still hold an
object (`stock`), or when no object stands above it. -/
def fairBlock (chosen : T → Bool) : Nat → Bool → List T → Bool
  | _, _, [] => true
  | stock, above, x :: rest =>
      if chosen x then
        if 0 < stock then fairBlock chosen (stock - 1) true rest
        else !above && fairBlock chosen 0 false rest
      else fairBlock chosen stock true rest

/-- `stock` counts the objects that were kept before. -/
def fair (chosen : T → Bool) : Nat → List (List T) → Bool
  | _, [] => true
  | stock, block :: rest =>
      fairBlock chosen stock false block.reverse && fair chosen
        (stock + (block.filter fun x => !chosen x).length) rest

namespace Iter

def unvisited (it : Iter T) : List T :=
  (it.curr.take it.left).reverse ++ (it.after.map List.reverse).flatten

def visited (it : Iter T) : List T := it.before.flatten ++ it.curr.drop it.left

/-- At most the head is empty. -/
structure Ok (it : Iter T) : Prop where
  positive : 1 ≤ it.left
  inside : it.left ≤ it.curr.length
  before : ∀ block ∈ it.before.tail, block ≠ []
  after : ∀ block ∈ it.after, block ≠ []

def Fair (chosen : T → Bool) (it : Iter T) : Prop :=
  fairBlock chosen it.before.flatten.length (decide (it.left < it.curr.length))
    (it.curr.take it.left).reverse = true ∧
  fair chosen (it.visited.length + ((it.curr.take it.left).filter fun x => !chosen x).length)
    it.after = true

end Iter

namespace Cursor

def unvisited : Cursor T → List T
  | .done _ => []
  | .at it => it.unvisited

def visited : Cursor T → List T
  | .done blocks => blocks.flatten
  | .at it => it.visited

def Ok : Cursor T → Prop
  | .done _ => True
  | .at it => it.Ok

def Fair (chosen : T → Bool) : Cursor T → Prop
  | .done _ => True
  | .at it => it.Fair chosen

end Cursor

section Next

variable {chosen : T → Bool} {it : Iter T}

/-- Where the object at the cursor is. -/
theorem Iter.Ok.current (ok : it.Ok) :
    ∃ x low, it.curr[it.left - 1]? = some x ∧ low = it.curr.take (it.left - 1) ∧
    it.curr.take it.left = low ++ [x] ∧ it.curr.drop (it.left - 1) = x :: it.curr.drop it.left := by
  obtain ⟨n, left⟩ : ∃ n, it.left = n + 1 := ⟨it.left - 1, by have := ok.positive; omega⟩
  have inside := ok.inside
  have bound : n < it.curr.length := by omega
  refine ⟨it.curr[n], _, ?_, rfl, ?_, ?_⟩
  · rw [left, Nat.add_sub_cancel, List.getElem?_eq_getElem bound]
  · rw [left, Nat.add_sub_cancel, List.take_succ_eq_append_getElem bound]
  · rw [left, Nat.add_sub_cancel, List.drop_eq_getElem_cons bound]

/-- The iterator moves on past a place of the current block, whatever stands there now. -/
theorem next_of (chosen : T → Bool) {after : List (List T)} (before : List (List T))
    (curr : List T) (left : Nat) (inside : left - 1 ≤ curr.length)
    (nonempty : ∀ block ∈ (before ++ [curr]).tail, block ≠ [])
    (later : ∀ block ∈ after, block ≠ []) :
    (Iter.mk before curr left after).next.Ok ∧
    (Iter.mk before curr left after).next.visited = before.flatten ++ curr.drop (left - 1) ∧
    (Iter.mk before curr left after).next.unvisited =
    (curr.take (left - 1)).reverse ++ (after.map List.reverse).flatten ∧
    ((Iter.mk before curr left after).next.Fair chosen ↔
      fairBlock chosen before.flatten.length (decide (left - 1 < curr.length))
        (curr.take (left - 1)).reverse = true ∧
      fair chosen ((before.flatten ++ curr.drop (left - 1)).length + ((curr.take (left - 1)).filter
        fun x => !chosen x).length) after = true) := by
  have short : ∀ block ∈ before.tail, block ≠ [] := by
    intro block member
    apply nonempty block
    cases before with
    | nil => cases member
    | cons head rest => exact List.mem_append_left _ member
  by_cases last : left - 1 = 0
  · cases after with
    | nil =>
        simp only [Iter.next, last, if_true]
        refine ⟨trivial, ?_, ?_, ?_⟩
        · simp [Cursor.visited]
        · simp [Cursor.unvisited]
        · simp [Cursor.Fair, fairBlock, fair]
    | cons block rest =>
        simp only [Iter.next, last, if_true]
        have full : block ≠ [] := later block List.mem_cons_self
        refine ⟨⟨List.length_pos_iff.mpr full, Nat.le_refl _, nonempty,
          fun b member => later b (List.mem_cons_of_mem _ member)⟩, ?_, ?_, ?_⟩
        · simp [Cursor.visited, Iter.visited]
        · simp [Cursor.unvisited, Iter.unvisited]
        · simp [Cursor.Fair, Iter.Fair, Iter.visited, fairBlock, fair]
  · simp only [Iter.next, last, if_false]
    exact ⟨⟨Nat.pos_of_ne_zero last, inside, short, later⟩, rfl, rfl, Iff.rfl⟩

end Next

/-! One round of the scan. -/

/-- The round that presents `x`: it leaves the objects below as they are, and the objects passed
stand somewhere in front of the iterator. -/
structure Round (chosen : T → Bool) (it : Iter T) (x : T) (moved : Cursor T) : Prop where
  ok : moved.Ok
  visited : moved.visited.Perm (if chosen x then it.visited else x :: it.visited)
  unvisited : it.unvisited = x :: moved.unvisited
  fair : moved.Fair chosen ↔ it.Fair chosen

section Rounds

variable {chosen : T → Bool} {it : Iter T} {x : T}

theorem unvisited_cons {low : List T} (split : it.curr.take it.left = low ++ [x]) :
    it.unvisited = x :: (low.reverse ++ (it.after.map List.reverse).flatten) := by
  rw [Iter.unvisited, split, List.reverse_append]
  rfl

theorem tail_append {before : List (List T)} {curr : List T} (filled : curr ≠ [])
    (short : ∀ block ∈ before.tail, block ≠ []) :
    ∀ block ∈ (before ++ [curr]).tail, block ≠ [] := by
  intro block member
  cases before with
  | nil => cases member
  | cons head rest =>
      rcases List.mem_append.mp member with old | new
      · exact short block old
      · rw [List.mem_singleton.mp new]
        exact filled

theorem Iter.Ok.filled (ok : it.Ok) : it.curr ≠ [] := by
  have := ok.positive
  have := ok.inside
  exact List.ne_nil_of_length_pos (by omega)

theorem keep_round (ok : it.Ok) (here : it.curr[it.left - 1]? = some x) (kept : chosen x = false) :
    Round chosen it x it.next := by
  obtain ⟨y, low, there, rfl, split, rest⟩ := ok.current
  obtain rfl : y = x := Option.some.inj (there.symm.trans here)
  have positive := ok.positive
  have inside := ok.inside
  obtain ⟨ok', visited, unvisited, fair'⟩ :=
    next_of chosen it.before it.curr it.left (by omega) (tail_append ok.filled ok.before) ok.after
  refine ⟨ok', ?_, ?_, fair'.trans ?_⟩
  · rw [visited, rest, kept]
    exact List.perm_middle
  · rw [unvisited_cons split, unvisited]
  · rw [Iter.Fair, split, List.reverse_append, List.reverse_singleton, List.singleton_append,
      fairBlock, kept,
      decide_eq_true (show it.left - 1 < it.curr.length by omega), rest, List.filter_append,
        List.length_append]
    simp only [Bool.false_eq_true, if_false, Iter.visited, List.length_append, List.length_cons,
      List.filter_cons, kept, Bool.not_false,
      if_true, List.filter_nil, List.length_nil]
    rw [show it.before.flatten.length + ((it.curr.drop it.left).length + 1) +
        ((it.curr.take (it.left - 1)).filter fun x => !chosen x).length =
      it.before.flatten.length + (it.curr.drop it.left).length +
        (((it.curr.take (it.left - 1)).filter fun x => !chosen x).length + (0 + 1)) by omega]

/-- With objects in the blocks before, the last object of the head takes the place. -/
theorem bagErase_stock (ok : it.Ok) (stock : 0 < it.before.flatten.length) : ∃ init obj rest,
    it.bagErase = ({ it with before := init :: rest, curr := it.curr.set (it.left - 1) obj },
      true) ∧
    it.before.flatten = init ++ obj :: rest.flatten ∧ ∀ block ∈ rest, block ≠ [] := by
  have pop {head : List T} (rest : List (List T)) (filled : head ≠ []) :
      head.getLast? = some (head.getLast filled) ∧ (head :: rest).flatten =
        head.dropLast ++ head.getLast filled :: rest.flatten := by
    refine ⟨List.getLast?_eq_some_getLast filled, ?_⟩
    conv_lhs => rw [List.flatten_cons, ← List.dropLast_concat_getLast filled]
    rw [List.append_assoc]
    rfl
  have short := ok.before
  cases shape : it.before with
  | nil =>
      rw [shape] at stock
      cases stock
  | cons head rest =>
      rw [shape] at short stock
      cases head with
      | nil =>
          cases rest with
          | nil => cases stock
          | cons second rest =>
              have filled : second ≠ [] := short second List.mem_cons_self
              obtain ⟨last, flat⟩ := pop rest filled
              refine ⟨second.dropLast, second.getLast filled, rest, ?_, flat,
                fun block member => short block (List.mem_cons_of_mem _ member)⟩
              simp only [Iter.bagErase, Iter.dropHead, shape, last]
      | cons first others =>
          have filled : first :: others ≠ [] := List.cons_ne_nil _ _
          obtain ⟨last, flat⟩ := pop rest filled
          refine ⟨(first :: others).dropLast, (first :: others).getLast filled, rest, ?_, flat,
            short⟩
          simp only [Iter.bagErase, Iter.dropHead, shape, last]

theorem erase_round (ok : it.Ok) (here : it.curr[it.left - 1]? = some x) (erased : chosen x = true)
    (stock : 0 < it.before.flatten.length) : Round chosen it x it.erase := by
  obtain ⟨y, low, there, rfl, split, rest⟩ := ok.current
  obtain rfl : y = x := Option.some.inj (there.symm.trans here)
  have positive := ok.positive
  have inside := ok.inside
  obtain ⟨init, obj, blocks, popped, flat, short⟩ := bagErase_stock ok stock
  have moved : it.erase = (Iter.mk (init :: blocks) (it.curr.set (it.left - 1) obj) it.left
    it.after).next := by
    have below : ¬ it.left - 1 ≥ (it.curr.set (it.left - 1) obj).length := by
      rw [List.length_set]
      omega
    rw [Iter.erase, popped]
    simp only [below, if_false, if_true]
    rfl
  have length : (it.curr.set (it.left - 1) obj).length = it.curr.length := List.length_set
  have filled : it.curr.set (it.left - 1) obj ≠ [] := List.ne_nil_of_length_pos (by omega)
  have low : (it.curr.set (it.left - 1) obj).take (it.left - 1) = it.curr.take (it.left - 1) :=
    List.take_set_of_le (Nat.le_refl _)
  have high : (it.curr.set (it.left - 1) obj).drop (it.left - 1) = obj :: it.curr.drop it.left := by
    have bound : it.left - 1 < (it.curr.set (it.left - 1) obj).length := by omega
    rw [List.drop_eq_getElem_cons bound, List.getElem_set_self, Nat.sub_add_cancel positive,
      List.drop_set_of_lt (by omega)]
  obtain ⟨ok', visited, unvisited, fair'⟩ := next_of chosen (init :: blocks)
    (it.curr.set (it.left - 1) obj) it.left (by omega) (tail_append filled short) ok.after
  have same : ((init :: blocks).flatten ++ obj :: it.curr.drop it.left).Perm it.visited := by
    rw [Iter.visited, flat, List.flatten_cons, List.append_assoc, List.append_assoc]
    exact List.perm_middle.append_left init
  rw [moved]
  refine ⟨ok', ?_, ?_, fair'.trans ?_⟩
  · rw [visited, high, erased, if_pos rfl]
    exact same
  · rw [unvisited_cons split, unvisited, low]
  · have count : it.before.flatten.length - 1 = (init :: blocks).flatten.length := by
      rw [flat, List.flatten_cons, List.length_append, List.length_append, List.length_cons]
      omega
    rw [Iter.Fair, split, List.reverse_append, List.reverse_singleton, List.singleton_append,
      fairBlock, erased, if_pos rfl,
      if_pos stock, low, high, same.length_eq,
        decide_eq_true (show it.left - 1 < (it.curr.set (it.left - 1) obj).length by omega), count,
      List.filter_append, List.length_append]
    simp [erased]

theorem before_empty (ok : it.Ok) (stock : it.before.flatten.length = 0) :
    it.dropHead.before = [] ∧ it.before.flatten = [] := by
  have flat : it.before.flatten = [] := List.length_eq_zero_iff.mp stock
  have short := ok.before
  refine ⟨?_, flat⟩
  cases shape : it.before with
  | nil => simp only [Iter.dropHead, shape]
  | cons head rest =>
      rw [shape] at flat short
      rw [List.flatten_cons, List.append_eq_nil_iff] at flat
      cases rest with
      | nil => simp only [Iter.dropHead, shape, flat.1]
      | cons second rest =>
          have empty := flat.2
          rw [List.flatten_cons, List.append_eq_nil_iff] at empty
          exact absurd empty.1 (short second List.mem_cons_self)

theorem bagErase_head (ok : it.Ok) (stock : it.before.flatten.length = 0) :
    it.bagErase = (Iter.mk [] (blockErase it.curr (it.left - 1)) it.left it.after, false) := by
  obtain ⟨empty, _⟩ := before_empty ok stock
  have rest : it.dropHead.left = it.left ∧ it.dropHead.after = it.after := by
    rw [Iter.dropHead]
    split <;> exact ⟨rfl, rfl⟩
  rw [Iter.bagErase, empty]
  simp only [rest.1, rest.2, empty]

/-- In the head block the object at the top may be erased. -/
theorem top_round (ok : it.Ok) (here : it.curr[it.left - 1]? = some x) (erased : chosen x = true)
    (stock : it.before.flatten.length = 0) (top : it.left = it.curr.length) :
    Round chosen it x it.erase := by
  obtain ⟨y, low, there, rfl, split, rest⟩ := ok.current
  obtain rfl : y = x := Option.some.inj (there.symm.trans here)
  have positive := ok.positive
  obtain ⟨_, flat⟩ := before_empty ok stock
  have popped : blockErase it.curr (it.left - 1) = it.curr.dropLast := by
    rw [blockErase, List.getLast?_eq_some_getLast ok.filled]
    simp [top]
  have length : it.curr.dropLast.length = it.left - 1 := by rw [List.length_dropLast, top]
  have moved : it.erase = (Iter.mk [] it.curr.dropLast it.left it.after).next := by
    rw [Iter.erase, bagErase_head ok stock, popped]
    simp only [ge_iff_le, length, Nat.le_refl, if_true, Bool.false_eq_true, if_false]
  have low : it.curr.dropLast.take (it.left - 1) = it.curr.take (it.left - 1) := by
    rw [List.dropLast_eq_take, top, List.take_take, Nat.min_self]
  have high : it.curr.dropLast.drop (it.left - 1) = [] := List.drop_eq_nil_of_le (by omega)
  have behind : it.curr.drop it.left = [] := List.drop_eq_nil_of_le (by omega)
  obtain ⟨ok', visited, unvisited, fair'⟩ := next_of chosen []
    it.curr.dropLast it.left (by omega) (fun block member => by cases member) ok.after
  rw [moved]
  refine ⟨ok', ?_, ?_, fair'.trans ?_⟩
  · rw [visited, high, erased, if_pos rfl, Iter.visited, flat, behind]
    exact .refl _
  · rw [unvisited_cons split, unvisited, low]
  · rw [Iter.Fair, split, List.reverse_append, List.reverse_singleton, List.singleton_append,
      fairBlock, erased, if_pos rfl,
      if_neg (by omega), low, high, Iter.visited, behind, flat,
        decide_eq_false (show ¬ it.left < it.curr.length by omega),
      decide_eq_false (show ¬ it.left - 1 < it.curr.dropLast.length by omega), List.filter_append,
        List.length_append]
    simp [erased]

/-- Further down in the head block the erased place gets an object that was presented before,
and the iterator stays there. -/
theorem hole_filled (ok : it.Ok) (stock : it.before.flatten.length = 0)
    (under : it.left < it.curr.length) :
    ∃ again ∈ it.visited, ∃ moved : Iter T, it.erase = .at moved ∧ moved.curr[moved.left - 1]? =
      some again := by
  have positive := ok.positive
  have last := List.getLast?_eq_some_getLast ok.filled
  have filled : blockErase it.curr (it.left - 1) =
    (it.curr.set (it.left - 1) (it.curr.getLast ok.filled)).dropLast := by
    rw [blockErase, last]
    exact if_pos (by omega)
  refine ⟨it.curr.getLast ok.filled, ?_, Iter.mk [] (blockErase it.curr (it.left - 1)) it.left
    it.after, ?_, ?_⟩
  · rw [Iter.visited]
    refine List.mem_append_right _ ?_
    have behind : it.curr.drop it.left ≠ [] :=
      List.ne_nil_of_length_pos (by rw [List.length_drop]; omega)
    have same : (it.curr.drop it.left).getLast behind = it.curr.getLast ok.filled :=
      List.getLast_drop behind
    rw [← same]
    exact List.getLast_mem behind
  · have below : ¬ it.left - 1 ≥ (blockErase it.curr (it.left - 1)).length := by
      rw [filled, List.length_dropLast, List.length_set]
      omega
    rw [Iter.erase, bagErase_head ok stock]
    simp only [below, if_false, Bool.false_eq_true]
  · change (blockErase it.curr (it.left - 1))[it.left - 1]? = _
    have short : it.left - 1 < (it.curr.set (it.left - 1)
      (it.curr.getLast ok.filled)).dropLast.length := by
      rw [List.length_dropLast, List.length_set]
      omega
    rw [filled, List.getElem?_eq_getElem short, List.getElem_dropLast, List.getElem_set_self]

end Rounds

/-! Whole scans. -/

section Scan

variable {chosen : T → Bool}

theorem fair_here {it : Iter T} (ok : it.Ok) {x : T} (here : it.curr[it.left - 1]? = some x)
    (erased : chosen x = true) (fair : it.Fair chosen) :
    0 < it.before.flatten.length ∨ it.left = it.curr.length := by
  obtain ⟨y, low, there, rfl, split, rest⟩ := ok.current
  obtain rfl : y = x := Option.some.inj (there.symm.trans here)
  have inside := ok.inside
  by_contra neither
  push Not at neither
  have first := fair.1
  rw [split, List.reverse_append, List.reverse_singleton, List.singleton_append, fairBlock, erased,
    if_pos rfl, if_neg (by omega),
    decide_eq_true (show it.left < it.curr.length by omega)] at first
  simp at first

theorem round_of_allowed {it : Iter T} (ok : it.Ok) {x : T} (here : it.curr[it.left - 1]? = some x)
    (allowed : chosen x = false ∨ 0 < it.before.flatten.length ∨ it.left = it.curr.length) :
    Round chosen it x (if chosen x then it.erase else it.next) := by
  cases decision : chosen x with
  | false => exact keep_round ok here decision
  | true =>
      rcases allowed with kept | stock | top
      · rw [decision] at kept
        cases kept
      · exact erase_round ok here decision stock
      · by_cases stock : it.before.flatten.length = 0
        · exact top_round ok here decision stock top
        · exact erase_round ok here decision (by omega)

/-- A fair scan presents what lies before it, in order, and ends. -/
theorem scan_fair {cursor : Cursor T} (ok : cursor.Ok) (fair : cursor.Fair chosen) : ∃ fuel blocks,
    scan chosen fuel cursor = some (cursor.unvisited, blocks) ∧
    blocks.flatten.Perm (cursor.visited ++ cursor.unvisited.filter fun x => !chosen x) := by
  generalize count : cursor.unvisited.length = n
  induction n generalizing cursor with
  | zero =>
      cases cursor with
      | done blocks =>
          refine ⟨1, blocks, rfl, ?_⟩
          simp [Cursor.visited, Cursor.unvisited]
      | «at» it =>
          obtain ⟨x, low, _, _, split, _⟩ := Iter.Ok.current ok
          have := congrArg List.length (unvisited_cons split)
          rw [List.length_cons] at this
          rw [Cursor.unvisited] at count
          omega
  | succ n ih =>
      cases cursor with
      | done blocks => cases count
      | «at» it =>
          obtain ⟨x, low, here, _⟩ := Iter.Ok.current ok
          have allowed : chosen x = false ∨ 0 < it.before.flatten.length ∨ it.left =
            it.curr.length := by
            cases decision : chosen x with
            | false => exact .inl rfl
            | true => exact .inr (fair_here ok here decision fair)
          have round := round_of_allowed ok here allowed
          have shorter := congrArg List.length round.unvisited
          rw [List.length_cons] at shorter
          rw [Cursor.unvisited] at count
          obtain ⟨fuel, blocks, scanned, left⟩ := ih round.ok (round.fair.mpr fair) (by omega)
          refine ⟨fuel + 1, blocks, ?_, left.trans ?_⟩
          · rw [scan, here]
            simp only [scanned, Option.map_some]
            rw [Cursor.unvisited, round.unvisited]
          · rw [Cursor.visited, Cursor.unvisited, round.unvisited]
            have visited := round.visited
            cases decision : chosen x with
            | false =>
                rw [decision] at visited
                simp only [List.filter_cons, decision, Bool.not_false, if_true]
                exact (visited.append_right _).trans List.perm_middle.symm
            | true =>
                rw [decision] at visited
                simp only [List.filter_cons, decision, Bool.not_true, Bool.false_eq_true, if_false]
                exact visited.append_right _

/-- A scan that is not fair presents an object again. -/
theorem scan_unfair {cursor : Cursor T} (ok : cursor.Ok) (unfair : ¬ cursor.Fair chosen)
    {fuel : Nat} {presented : List T} {blocks : List (List T)}
    (scanned : scan chosen fuel cursor = some (presented, blocks)) :
    ¬ (cursor.visited ++ presented).Nodup := by
  induction fuel generalizing cursor presented with
  | zero => cases scanned
  | succ fuel ih =>
      cases cursor with
      | done blocks => exact absurd trivial unfair
      | «at» it =>
          obtain ⟨x, low, here, _⟩ := Iter.Ok.current ok
          rw [scan, here] at scanned
          simp only [Option.map_eq_some_iff, Prod.mk.injEq] at scanned
          obtain ⟨⟨later, _⟩, scanned, rfl, rfl⟩ := scanned
          rw [Cursor.visited]
          by_cases allowed : chosen x = false ∨ 0 < it.before.flatten.length ∨ it.left =
            it.curr.length
          · have round := round_of_allowed ok here allowed
            have again := ih round.ok (fun fair => unfair (round.fair.mp fair)) scanned
            intro nodup
            apply again
            refine (round.visited.append_right later).nodup_iff.mpr ?_
            cases chosen x with
            | false => exact List.perm_middle.nodup_iff.mp nodup
            | true =>
                exact nodup.sublist (List.Sublist.append_left (List.sublist_cons_self x later) _)
          · push Not at allowed
            obtain ⟨decision, stock, under⟩ := allowed
            have erased : chosen x = true := by simpa using decision
            have inside := Iter.Ok.inside ok
            obtain ⟨again, member, moved, stays, next⟩ := @hole_filled _ it ok (by omega) (by omega)
            rw [erased, if_pos rfl, stays] at scanned
            cases fuel with
            | zero => cases scanned
            | succ fuel =>
                rw [scan, next] at scanned
                simp only [Option.map_eq_some_iff, Prod.mk.injEq] at scanned
                obtain ⟨_, _, rfl, _⟩ := scanned
                intro nodup
                have apart := (List.nodup_append.mp nodup).2.2 again member again
                exact apart (List.mem_cons_of_mem _ List.mem_cons_self) rfl

theorem begin_ok (chosen : T → Bool) {blockSize : Nat} {blocks : List (List T)}
    (bag : Bag blockSize blocks) :
    (begin blocks).Ok ∧ (begin blocks).visited = [] ∧ (begin blocks).unvisited =
    (blocks.map List.reverse).flatten ∧
      ((begin blocks).Fair chosen ↔ fair chosen 0 blocks = true) := by
  obtain ⟨head, rest, rfl, room, full⟩ := bag.head
  have later : ∀ block ∈ rest, block ≠ [] := by
    intro block member
    have := full block member
    exact List.ne_nil_of_length_pos (by omega)
  obtain ⟨ok, visited, unvisited, fair'⟩ := next_of chosen [] head (head.length + 1)
    (by omega) (fun block member => by cases member) later
  refine ⟨ok, ?_, ?_, fair'.trans ?_⟩
  · rw [begin, visited]
    simp
  · rw [begin, unvisited]
    simp
  · simp [fair]

theorem presents_all (blocks : List (List T)) :
    (blocks.map List.reverse).flatten.Perm blocks.flatten := by
  induction blocks with
  | nil => exact .refl _
  | cons block rest ih =>
      rw [List.map_cons, List.flatten_cons, List.flatten_cons]
      exact block.reverse_perm.append ih

/-- The scan is exact if and only if every chosen object stands below objects that are all
erased, or in a block whose erased objects above it are fewer than those kept in the blocks
before. -/
theorem scan_exact_iff {blockSize : Nat} (blocks : List (List T)) (bag : Bag blockSize blocks)
    (chosen : T → Bool) :
    Exact chosen blocks ↔ fair chosen 0 blocks = true := by
  obtain ⟨ok, visited, unvisited, fair'⟩ := begin_ok chosen bag
  constructor
  · rintro ⟨fuel, presented, left, scanned, all, _⟩
    by_contra unfair
    apply scan_unfair ok (fun fair => unfair (fair'.mp fair)) scanned
    rw [visited, List.nil_append]
    exact all.nodup_iff.mpr bag.distinct
  · intro fair
    obtain ⟨fuel, left, scanned, rest⟩ := scan_fair ok (fair'.mpr fair)
    rw [visited, List.nil_append] at rest
    rw [unvisited] at scanned rest
    exact ⟨fuel, _, left, scanned, presents_all blocks, rest.trans ((presents_all blocks).filter _)⟩

end Scan

def threeObjects : List (List Nat) := [[1, 2], [3, 4, 5]]

theorem erase_top_exact : Exact (fun x => x == 2 || x == 4) threeObjects :=
  (@scan_exact_iff Nat 3 threeObjects ⟨⟨[1, 2], [[3, 4, 5]], rfl, by decide, by decide⟩, by decide⟩
    _).mpr (by decide)

/-- The object on top is kept and the one below it erased: the one on top is presented twice. -/
theorem kept_then_erased :
    ¬ ∀ (blockSize : Nat) (blocks : List (List Nat)), Bag blockSize blocks →
      ∀ chosen, Exact chosen blocks := by
  intro claim
  have bag : Bag 3 [[1, 2]] := ⟨⟨[1, 2], [], rfl, by decide, by decide⟩, by decide⟩
  have scanned := (claim 3 [[1, 2]] bag fun x => x == 1)
  obtain ⟨fuel, presented, left, scanned, all, _⟩ := scanned
  have length := all.length_eq
  rcases fuel with _ | _ | _ | _ | fuel
  · cases scanned
  · cases scanned
  · cases scanned
  · cases scanned
  · cases scanned
    cases length

end SetBench.BagScan
