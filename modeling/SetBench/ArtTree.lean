import SetBench.ArtHeap

/-! How allocation and the store through a node_ptr change what the tree holds. A
store under one slot replaces the pairs below the old child by those below the new
one and leaves all other pairs where they are. -/
namespace SetBench.Art

open Radix

variable {K V L : Type} {heap after : Heap K L}

def Extends (heap after : Heap K L) : Prop :=
  ∀ a node, heap.node a = some node → after.node a = some node

theorem Extends.trans {middle : Heap K L} (first : Extends heap middle)
    (second : Extends middle after) :
    Extends heap after := fun a node here => second a node (first a node here)

theorem alloc_node (heap : Heap K L) (node : Node K L) :
    (heap.alloc node).1.node (heap.alloc node).2 = some node := Function.update_self ..

theorem store_node {a : Addr} {p : Inner K} (here : heap.node a = some (.inner p)) (index : Nat)
    (child : Option Addr) (other : Addr) : (heap.store a index child).node other =
      if other = a then some (.inner (p.setChild index child)) else heap.node other := by
  simp only [Heap.store, here]
  by_cases same : other = a
  · simp [same]
  · simp [same]

theorem store_leaf {a : Addr} {p : Inner K} (here : heap.node a = some (.inner p)) (index : Nat)
    (child : Option Addr) (b : Addr) (l : L) :
    (heap.store a index child).node b = some (.leaf l) ↔ heap.node b = some (.leaf l) := by
  rw [store_node here]
  split
  · rename_i same
    rw [same, here]
    simp
  · rfl

theorem store_next (heap : Heap K L) (a : Addr) (index : Nat) (child : Option Addr) :
    (heap.store a index child).next = heap.next := by
  unfold Heap.store
  split <;> rfl

variable [RadixKey K] [RadixLeaf K V L] {least maxSparse : Nat}

theorem Extends.path (larger : Extends heap after) {k : K} {a b : Addr} (path : Path heap k a b) :
    Path after k a b := by
  induction path with
  | refl => exact .refl _
  | step here child _ ih => exact .step (larger _ _ here) child ih

theorem Extends.path_back (larger : Extends heap after) (sound : Sound least maxSparse heap)
    {k : K} {a b : Addr} (present : heap.node a ≠ none) (path : Path after k a b) :
    Path heap k a b := by
  induction path with
  | refl => exact .refl _
  | @step a c b p here child rest ih =>
      obtain ⟨node, old⟩ := Option.ne_none_iff_exists'.mp present
      have same := larger a node old
      rw [here] at same
      cases same
      obtain ⟨next, there, _⟩ := sound.edge a p _ c old (RadixKey.byte_lt _ _) child
      exact .step old child (ih (by rw [there]; simp))

theorem Path.present (sound : Sound least maxSparse heap) {k : K} {a b : Addr}
    (path : Path heap k a b) (present : heap.node a ≠ none) : heap.node b ≠ none := by
  induction path with
  | refl => exact present
  | @step a c b p here child rest ih =>
      obtain ⟨next, there, _⟩ := sound.edge a p _ c here (RadixKey.byte_lt _ _) child
      exact ih (by rw [there]; simp)

theorem Extends.below (larger : Extends heap after) (sound : Sound least maxSparse heap) {a : Addr}
    (present : heap.node a ≠ none) (k : K) (v : V) : Below after a k v ↔ Below heap a k v := by
  constructor
  · rintro ⟨b, l, path, leaf, member⟩
    have old := larger.path_back sound present path
    obtain ⟨node, there⟩ := Option.ne_none_iff_exists'.mp (old.present sound present)
    have same := larger b node there
    rw [leaf] at same
    cases same
    exact ⟨b, l, old, there, member⟩
  · rintro ⟨b, l, path, leaf, member⟩
    exact ⟨b, l, larger.path path, larger b _ leaf, member⟩

/-! Allocation. -/

theorem alloc_extends (sound : Sound least maxSparse heap) (node : Node K L) :
    Extends heap (heap.alloc node).1 := by
  intro a old here
  have below := sound.allocated a (by rw [here]; simp)
  simp only [Heap.alloc, Function.update_of_ne below.ne]
  exact here

omit [RadixKey K] [RadixLeaf K V L] in
theorem alloc_cases {node found : Node K L} {a : Addr}
    (here : (heap.alloc node).1.node a = some found) :
    heap.node a = some found ∨ (a = (heap.alloc node).2 ∧ found = node) := by
  by_cases same : a = heap.next
  · subst same
    simp only [Heap.alloc, Function.update_self] at here
    cases here
    exact Or.inr ⟨rfl, rfl⟩
  · simp only [Heap.alloc, Function.update_of_ne same] at here
    exact Or.inl here

theorem alloc_fresh (sound : Sound least maxSparse heap) (node : Node K L) :
    heap.node (heap.alloc node).2 = none := by
  by_contra present
  exact Nat.lt_irrefl _ (sound.allocated _ present)

-- A new node may point to nodes that exist already.
theorem alloc_sound (sound : Sound least maxSparse heap) (node : Node K L)
    (ok : ∀ p, node = .inner p → p.Ok least maxSparse ∧ p.byteNum < RadixKey.size K)
    (edge : ∀ p byteval c, node = .inner p → byteval < 256 → p.child byteval = some c →
      ∃ child, heap.node c = some child ∧ Fits p byteval child) :
    Sound least maxSparse (heap.alloc node).1 := by
  have larger := alloc_extends sound node
  refine ⟨?_, ?_, ?_, ?_⟩
  · intro a present
    obtain ⟨found, here⟩ := Option.ne_none_iff_exists'.mp present
    rcases alloc_cases here with old | ⟨rfl, _⟩
    · exact (sound.allocated a (by rw [old]; simp)).trans (Nat.lt_succ_self _)
    · exact Nat.lt_succ_self _
  · intro a p here
    rcases alloc_cases here with old | ⟨_, same⟩
    · exact sound.ok a p old
    · exact ok p same.symm
  · intro a p byteval c here inside child
    rcases alloc_cases here with old | ⟨_, same⟩
    · obtain ⟨next, there, fits⟩ := sound.edge a p byteval c old inside child
      exact ⟨next, larger c next there, fits⟩
    · obtain ⟨next, there, fits⟩ := edge p byteval c same.symm inside child
      exact ⟨next, larger c next there, fits⟩
  · obtain ⟨p, here, rest⟩ := sound.top
    exact ⟨p, larger _ _ here, rest⟩

theorem alloc_leaf_sound (sound : Sound least maxSparse heap) (l : L) :
    Sound least maxSparse (heap.alloc (.leaf l)).1 :=
  alloc_sound sound _ (fun _ same => nomatch same) (fun _ _ _ same => nomatch same)

/-! The store. -/

section Store

variable {a : Addr} {p : Inner K} {byteval index : Nat} {child : Option Addr}

-- A child that fits a slot of `p`, or null.
def FitsSlot (heap : Heap K L) (p : Inner K) (byteval : Nat) (child : Option Addr) : Prop :=
  ∀ c, child = some c → ∃ node, heap.node c = some node ∧ Fits p byteval node

def Sub (heap : Heap K L) (child : Option Addr) (k : K) (v : V) : Prop :=
  ∃ c, child = some c ∧ Below heap c k v

theorem store_sound (sound : Sound least maxSparse heap) (here : heap.node a = some (.inner p))
    (inside : byteval < 256) (found : p.layout.find byteval = some index)
    (fits : FitsSlot heap p byteval child) : Sound least maxSparse (heap.store a index child) := by
  have ok := (sound.ok a p here).1
  -- Headers are unchanged, so edges into `a` still fit.
  have moved (c : Addr) (node : Node K L) (q : Inner K) (slot : Nat) (old : heap.node c = some node)
      (edge : Fits q slot node) :
      ∃ next, (heap.store a index child).node c = some next ∧ Fits q slot next := by
    rw [store_node here]
    by_cases same : c = a
    · subst same
      rw [here] at old
      cases old
      exact ⟨_, if_pos rfl, edge⟩
    · exact ⟨node, by rw [if_neg same]; exact old, edge⟩
  refine ⟨?_, ?_, ?_, ?_⟩
  · intro other present
    rw [store_next]
    rw [store_node here] at present
    split at present
    · rename_i same
      exact sound.allocated other (by rw [same, here]; simp)
    · exact sound.allocated other present
  · intro other q there
    rw [store_node here] at there
    split at there
    · cases there
      exact ⟨Inner.setChild_ok ok index child, (sound.ok a p here).2⟩
    · exact sound.ok other q there
  · intro other q slot c there below present
    rw [store_node here] at there
    split at there
    · cases there
      rw [Inner.setChild_child ok inside found] at present
      split at present
      · rename_i same
        obtain ⟨node, old, edge⟩ := fits c present
        exact moved c node _ slot old (same ▸ edge)
      · obtain ⟨node, old, edge⟩ := sound.edge a p slot c here below present
        exact moved c node _ slot old edge
    · obtain ⟨node, old, edge⟩ := sound.edge other q slot c there below present
      exact moved c node q slot old edge
  · obtain ⟨q, there, layout, zero, live⟩ := sound.top
    rw [store_node here]
    by_cases same : root = a
    · subst same
      rw [here] at there
      cases there
      exact ⟨_, if_pos rfl, layout, zero, live⟩
    · exact ⟨q, by rw [if_neg same]; exact there, layout, zero, live⟩

-- A path that does not go through the slot.
theorem store_path_off (sound : Sound least maxSparse heap) (here : heap.node a = some (.inner p))
    (inside : byteval < 256) (found : p.layout.find byteval = some index) {k : K} {x : Addr}
    (b : Addr) (off : ¬ (Path heap k x a ∧ RadixKey.byte k p.byteNum = byteval)) :
    Path (heap.store a index child) k x b ↔ Path heap k x b := by
  have ok := (sound.ok a p here).1
  constructor
  · intro path
    induction path with
    | refl => exact .refl _
    | @step x c b q there down rest ih =>
        rw [store_node here] at there
        split at there
        · rename_i same
          subst same
          cases there
          have other : RadixKey.byte k p.byteNum ≠ byteval := fun equal => off ⟨.refl _, equal⟩
          rw [show (p.setChild index child).byteNum = p.byteNum from rfl,
            Inner.setChild_child ok inside found, if_neg other] at down
          exact .step here down (ih fun held => off ⟨.step here down held.1, held.2⟩)
        · exact .step there down (ih fun held => off ⟨.step there down held.1, held.2⟩)
  · intro path
    induction path with
    | refl => exact .refl _
    | @step x c b q there down rest ih =>
        have tail := ih fun held => off ⟨.step there down held.1, held.2⟩
        by_cases same : x = a
        · subst same
          rw [here] at there
          cases there
          have other : RadixKey.byte k p.byteNum ≠ byteval := fun equal => off ⟨.refl _, equal⟩
          refine .step (p := p.setChild index child) (by rw [store_node here, if_pos rfl]) ?_ tail
          rw [show (p.setChild index child).byteNum = p.byteNum from rfl,
            Inner.setChild_child ok inside found, if_neg other]
          exact down
        · exact .step (by rw [store_node here, if_neg same]; exact there) down tail

-- A path that ends at or above `a`.
theorem store_path_above (here : heap.node a = some (.inner p)) {k : K} {x b : Addr}
    (path : Path heap k x b) (above : ∀ c, Path heap k x c → Path heap k c b → c ≠ b → c ≠ a) :
    Path (heap.store a index child) k x b := by
  induction path with
  | refl => exact .refl _
  | @step x c b q there down rest ih =>
      by_cases same : x = b
      · subst same
        exact .refl _
      · have apart := above x (.refl _) (.step there down rest) same
        refine .step (by rw [store_node here, if_neg apart]; exact there) down
          (ih fun d before later last => ?_)
        exact above d (.step there down before) later last

theorem store_path_to (here : heap.node a = some (.inner p)) {k : K} {x : Addr}
    (path : Path heap k x a) : Path (heap.store a index child) k x a :=
  store_path_above here path fun _ _ _ apart => apart

theorem fits_no_return (sound : Sound least maxSparse heap) (here : heap.node a = some (.inner p))
    {c : Addr} {node : Node K L} (present : heap.node c = some node) (fits : Fits p byteval node)
    (k : K) :
    ¬ Path heap k c a := by
  intro back
  cases node with
  | leaf l =>
      have same := back.leaf_end present
      subst same
      rw [here] at present
      cases present
  | inner q =>
      by_cases same : c = a
      · subst same
        rw [here] at present
        cases present
        exact Nat.lt_irrefl _ fits.2.2
      · have := back.deeper sound same present here
        exact absurd fits.2.2 (by omega)

theorem store_below_child (sound : Sound least maxSparse heap)
    (here : heap.node a = some (.inner p)) (inside : byteval < 256)
    (found : p.layout.find byteval = some index) {c : Addr} {node : Node K L}
    (present : heap.node c = some node) {slot : Nat} (fits : Fits p slot node) (k : K) (v : V) :
    Below (heap.store a index child) c k v ↔ Below heap c k v := by
  have off : ¬ (Path heap k c a ∧ RadixKey.byte k p.byteNum = byteval) :=
    fun held => fits_no_return sound here present fits k held.1
  have leaf := store_leaf here index child
  constructor
  · rintro ⟨b, l, path, end_, member⟩
    exact ⟨b, l, (store_path_off sound here inside found b off).mp path, (leaf b l).mp end_, member⟩
  · rintro ⟨b, l, path, end_, member⟩
    exact ⟨b, l, (store_path_off sound here inside found b off).mpr path, (leaf b l).mpr end_,
      member⟩

theorem below_at {k : K} {v : V} {x : Addr} (path : Path heap k x a)
    (here : heap.node a = some (.inner p)) :
    Below heap x k v ↔ Below heap a k v := by
  constructor
  · rintro ⟨b, l, other, leaf, member⟩
    rcases path.linear other with down | up
    · exact ⟨b, l, down, leaf, member⟩
    · have same := up.leaf_end leaf
      subst same
      rw [here] at leaf
      cases leaf
  · rintro ⟨b, l, rest, leaf, member⟩
    exact ⟨b, l, path.trans rest, leaf, member⟩

theorem sub_fits (sound : Sound least maxSparse heap) {k : K} {v : V}
    (fits : FitsSlot heap p byteval child) (sub : Sub heap child k v) :
    Agree k p.key p.byteNum ∧ RadixKey.byte k p.byteNum = byteval := by
  obtain ⟨c, rfl, below⟩ := sub
  obtain ⟨node, present, edge⟩ := fits c rfl
  cases node with
  | leaf l => exact edge.2.1 (k, v) ((below_leaf present k v).mp below)
  | inner q =>
      have agree := below.agree sound present
      exact ⟨(agree.mono edge.2.2.le).trans edge.1, (agree p.byteNum edge.2.2).trans edge.2.1⟩

/-- The store at a reachable node replaces the pairs below one slot. -/
theorem store_below (sound : Sound least maxSparse heap) (here : heap.node a = some (.inner p))
    (reach : Path heap p.key root a) (inside : byteval < 256)
    (found : p.layout.find byteval = some index) (fits : FitsSlot heap p byteval child) (k : K)
    (v : V) :
    Below (heap.store a index child) root k v ↔
      (Below heap root k v ∧ ¬ Sub heap (p.child byteval) k v) ∨ Sub heap child k v := by
  have old : FitsSlot heap p byteval (p.child byteval) :=
    fun c same => sound.edge a p byteval c here inside same
  have through (sub : Sub heap child k v ∨ Sub heap (p.child byteval) k v) :
      Path heap k root a ∧ RadixKey.byte k p.byteNum = byteval := by
    obtain ⟨agree, same⟩ := sub.elim (sub_fits sound fits) (sub_fits sound old)
    exact ⟨reach.follow sound (by simp only [Belongs, here]; exact agree), same⟩
  by_cases passes : Path heap k root a ∧ RadixKey.byte k p.byteNum = byteval
  · obtain ⟨path, same⟩ := passes
    have now : (heap.store a index child).node a = some (.inner (p.setChild index child)) := by
      rw [store_node here, if_pos rfl]
    have child_ : (p.setChild index child).child (RadixKey.byte k p.byteNum) = child := by
      rw [Inner.setChild_child (sound.ok a p here).1 inside found, if_pos same]
    have left : Below (heap.store a index child) root k v ↔ Sub heap child k v := by
      rw [below_at (store_path_to here path) now, below_inner now]
      change (∃ c, (p.setChild index child).child (RadixKey.byte k p.byteNum) = some c ∧ _) ↔ _
      rw [child_]
      constructor
      · rintro ⟨c, rfl, below⟩
        obtain ⟨node, present, edge⟩ := fits c rfl
        exact ⟨c, rfl, (store_below_child sound here inside found present edge k v).mp below⟩
      · rintro ⟨c, rfl, below⟩
        obtain ⟨node, present, edge⟩ := fits c rfl
        exact ⟨c, rfl, (store_below_child sound here inside found present edge k v).mpr below⟩
    have right : Below heap root k v ↔ Sub heap (p.child byteval) k v := by
      rw [below_at path here, below_inner here, same]
      rfl
    rw [left, right]
    tauto
  · have leaf := store_leaf here index child
    have left : Below (heap.store a index child) root k v ↔ Below heap root k v := by
      constructor
      · rintro ⟨b, l, path, end_, member⟩
        exact ⟨b, l, (store_path_off sound here inside found b passes).mp path, (leaf b l).mp end_,
          member⟩
      · rintro ⟨b, l, path, end_, member⟩
        exact ⟨b, l, (store_path_off sound here inside found b passes).mpr path,
          (leaf b l).mpr end_, member⟩
    rw [left]
    constructor
    · intro held
      exact Or.inl ⟨held, fun sub => passes (through (Or.inr sub))⟩
    · rintro (held | sub)
      · exact held.1
      · exact absurd (through (Or.inl sub)) passes

end Store

/-! The empty tree. -/

section Empty

variable (junk : K)

omit [RadixKey K] [RadixLeaf K V L] in
theorem emptyTree_only {x : Addr} {node : Node K L}
    (here : (emptyTree junk : Heap K L).node x = some node) :
    x = root ∧ node = .inner ⟨.full, 0, 0, junk, List.replicate 256 none, false⟩ := by
  by_cases same : x = root
  · subst same
    simp only [emptyTree, Function.update_self, Option.some.injEq] at here
    exact ⟨rfl, here.symm⟩
  · simp only [emptyTree, Function.update_of_ne same] at here
    cases here

omit [RadixKey K] [RadixLeaf K V L] in
theorem emptyTree_root : (emptyTree junk : Heap K L).node root =
    some (.inner ⟨.full, 0, 0, junk, List.replicate 256 none, false⟩) := by
  simp only [emptyTree, Function.update_self]

omit [RadixKey K] in
theorem emptyTree_null (byteval : Nat) :
    (⟨.full, 0, 0, junk, List.replicate 256 none, false⟩ : Inner K).child byteval = none := by
  rw [Inner.child_of_find (find_full byteval), List.getD_eq_getElem?_getD]
  by_cases inside : byteval < 256
  · rw [List.getElem?_replicate_of_lt inside]
    rfl
  · rw [List.getElem?_eq_none (by rw [List.length_replicate]; exact Nat.le_of_not_lt inside)]
    rfl

theorem emptyTree_sound (long : 0 < RadixKey.size K) :
    Sound least maxSparse (emptyTree junk : Heap K L) := by
  refine ⟨?_, ?_, ?_, ⟨_, emptyTree_root junk, rfl, rfl, rfl⟩⟩
  · intro x present
    obtain ⟨node, there⟩ := Option.ne_none_iff_exists'.mp present
    rw [(emptyTree_only junk there).1]
    exact Nat.one_pos
  · intro x p there
    cases (emptyTree_only junk there).2
    exact ⟨List.length_replicate, long⟩
  · intro x p byteval c there _ child
    cases (emptyTree_only junk there).2
    rw [emptyTree_null] at child
    cases child

theorem emptyTree_below (k : K) (v : V) : ¬ Below (emptyTree junk : Heap K L) root k v := by
  rw [below_inner (emptyTree_root junk), emptyTree_null]
  simp

end Empty

end SetBench.Art
