import SetBench.ArtPlace

/-! A map of the leaves that keeps their headers. The tree reads nothing else of a leaf,
so a search in the mapped heap stops at the same place, and every rewrite of the heap
commutes with the map. -/
namespace SetBench.Art

open Radix

variable {K V L M : Type}

def Node.map (f : L → M) : Node K L → Node K M
  | .inner p => .inner p
  | .leaf l => .leaf (f l)

def Heap.map (f : L → M) (heap : Heap K L) : Heap K M :=
  ⟨fun a => (heap.node a).map (Node.map f), heap.next⟩

variable (f : L → M) (heap : Heap K L)

theorem map_node (a : Addr) : (heap.map f).node a = (heap.node a).map (Node.map f) := rfl

theorem map_update (a : Addr) (node : Node K L) :
    Function.update (heap.map f).node a (some (node.map f)) =
    fun b => (Function.update heap.node a (some node) b).map (Node.map f) := by
  funext b
  by_cases same : b = a
  · subst same
    simp
  · simp [Function.update_of_ne same, map_node]

theorem map_alloc (node : Node K L) :
    (heap.map f).alloc (node.map f) = ((heap.alloc node).1.map f, (heap.alloc node).2) :=
  congrArg (fun nodes => ((⟨nodes, heap.next + 1⟩ : Heap K M), heap.next))
    (map_update f heap heap.next node)

theorem map_emptyTree (junk : K) : (emptyTree junk : Heap K L).map f = emptyTree junk := by
  simp only [emptyTree, Heap.map, Heap.mk.injEq, and_true]
  funext a
  by_cases same : a = root
  · simp only [same, Function.update_self, Option.map_some, Node.map]
  · simp only [Function.update_of_ne same, Option.map_none]

theorem map_store (a : Addr) (index : Nat) (child : Option Addr) :
    (heap.map f).store a index child = (heap.store a index child).map f := by
  unfold Heap.store
  rw [map_node]
  cases here : heap.node a with
  | none => rfl
  | some node =>
      cases node with
      | leaf l => rfl
      | inner p =>
          exact congrArg (fun nodes => (⟨nodes, heap.next⟩ : Heap K M))
            (map_update f heap a (.inner (p.setChild index child)))

theorem map_setRemoved (a : Addr) : (heap.map f).setRemoved a = (heap.setRemoved a).map f := by
  unfold Heap.setRemoved
  rw [map_node]
  cases here : heap.node a with
  | none => rfl
  | some node =>
      cases node with
      | leaf l => rfl
      | inner p =>
          exact congrArg (fun nodes => (⟨nodes, heap.next⟩ : Heap K M))
            (map_update f heap a (.inner { p with removed := true }))

theorem map_unchanged (location : Location) :
    unchanged (heap.map f) location = unchanged heap location := by
  unfold unchanged
  rw [map_node]
  cases heap.node location.p with
  | none => rfl
  | some node => cases node <;> cases location.cptr <;> rfl

variable [RadixKey K]

theorem map_cutEdge (c : Addr) (key : K) (bytePos : Nat) (l : L) (k : K) :
    cutEdge (heap.map f) c key bytePos (f l) k =
      ((cutEdge heap c key bytePos l k).1.map f, (cutEdge heap c key bytePos l k).2) := by
  have leaf := map_alloc f heap (.leaf l)
  simp only [Node.map] at leaf
  simp only [cutEdge, leaf]
  exact map_alloc f _ (.inner _)

theorem map_swingCopy (maxSparse : Nat) (gp : Addr) (index : Nat) (p : Inner K)
    (loaded : List (Option Addr)) (k : K) (l : L) :
    swingCopy maxSparse (heap.map f) gp index p loaded k (f l) =
      (swingCopy maxSparse heap gp index p loaded k l).map f := by
  have leaf := map_alloc f heap (.leaf l)
  simp only [Node.map] at leaf
  have inner (heap : Heap K L) (q : Inner K) := map_alloc f heap (.inner q)
  simp only [Node.map] at inner
  simp only [swingCopy, leaf, inner, map_store]

theorem map_addChild (maxSparse : Nat) (gp p : Addr) (k : K) (l : L) :
    addChild maxSparse (heap.map f) gp p k (f l) = (addChild maxSparse heap gp p k l).map
      (Heap.map f) := by
  unfold addChild
  rw [map_node, map_node, map_setRemoved]
  cases heap.node gp with
  | none => rfl
  | some above =>
      cases heap.node p with
      | none => cases above <;> rfl
      | some here =>
          cases above with
          | leaf _ => rfl
          | inner gpNode =>
              cases here with
              | leaf _ => rfl
              | inner pNode =>
                  simp only [Option.map_some, Node.map]
                  cases gpNode.getChild pNode.key with
                  | none => rfl
                  | some index =>
                      simp only
                      split
                      · rfl
                      · split
                        · rfl
                        · rw [map_swingCopy]
                          rfl

section Header

variable [RadixLeaf K V L] [RadixLeaf K V M]

/-- A map of leaves that keeps their headers. -/
structure SameHeader (f : L → M) : Prop where
  key : ∀ l, RadixLeaf.key (f l) = RadixLeaf.key l
  byteNum : ∀ l, RadixLeaf.byteNum (f l) = RadixLeaf.byteNum l

variable {f} (same : SameHeader f)
include same

omit [RadixKey K] in
theorem map_key (node : Node K L) : (node.map f).key = node.key := by
  cases node with
  | inner p => rfl
  | leaf l => exact same.key l

omit [RadixKey K] in
theorem map_byteNum (node : Node K L) : (node.map f).byteNum = node.byteNum := by
  cases node with
  | inner p => rfl
  | leaf l => exact same.byteNum l

omit [RadixKey K] in
theorem map_allocLeaves (leaves : List L) : allocLeaves (heap.map f) (leaves.map f) =
    ((allocLeaves heap leaves).1.map f, (allocLeaves heap leaves).2) := by
  induction leaves generalizing heap with
  | nil => rfl
  | cons l rest ih =>
      have leaf := map_alloc f heap (.leaf l)
      simp only [Node.map] at leaf
      simp only [List.map_cons, allocLeaves, leaf, ih, same.key]

theorem map_splitLeaf (bytePos : Nat) (key : K) (leaves : List L) :
    splitLeaf (heap.map f) bytePos key (leaves.map f) =
    ((splitLeaf heap bytePos key leaves).1.map f, (splitLeaf heap bytePos key leaves).2) := by
  simp only [splitLeaf, map_allocLeaves heap same]
  exact map_alloc f _ (.inner _)

theorem map_findStep (k : K) (gp : Option Addr) (p : Addr) (bytePos : Nat) :
    findStep (heap.map f) k gp p bytePos = findStep heap k gp p bytePos := by
  unfold findStep
  rw [map_node]
  cases heap.node p with
  | none => rfl
  | some node =>
      cases node with
      | leaf l => rfl
      | inner q =>
          simp only [Option.map_some, Node.map]
          cases q.getChild k with
          | none => rfl
          | some index =>
              simp only
              cases q.ptr.getD index none with
              | none => rfl
              | some c =>
                  simp only [map_node]
                  cases heap.node c with
                  | none => rfl
                  | some child =>
                      have kind : (child.map f).isLeaf = child.isLeaf := by cases child <;> rfl
                      simp only [Option.map_some, map_key same, map_byteNum same, kind]

theorem map_findLocation (k : K) : findLocation (heap.map f) k = findLocation heap k := by
  have loop (fuel : Nat) (gp : Option Addr) (p : Addr) (bytePos : Nat) :
      findLoop (heap.map f) k fuel gp p bytePos = findLoop heap k fuel gp p bytePos := by
    induction fuel generalizing gp p bytePos with
    | zero => rfl
    | succ fuel ih => simp only [findLoop, map_findStep heap same, ih]
  exact loop _ _ _ _

end Header

end SetBench.Art
