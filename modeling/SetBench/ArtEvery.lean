import SetBench.ArtRewrite

/-! A property of every node of a heap, linked or not. A rewrite keeps it when it holds of
the nodes the rewrite builds; the shape of the tree plays no part. -/
namespace SetBench.Art

open Radix

variable {K V L : Type} [RadixKey K] [RadixLeaf K V L]

def Every (P : Node K L → Prop) (heap : Heap K L) : Prop :=
  ∀ a node, heap.node a = some node → P node

/-- The property of an inner node does not depend on its children or its removed flag. -/
structure Steady (P : Node K L → Prop) : Prop where
  child : ∀ p index child, P (.inner p) → P (.inner (p.setChild index child))
  removed : ∀ p, P (.inner p) → P (.inner { p with removed := true })

variable {P : Node K L → Prop} {heap : Heap K L}

section Rewrites

variable (every : Every P heap)
include every

omit [RadixKey K] [RadixLeaf K V L] in
theorem Every.alloc {node : Node K L} (new : P node) : Every P (heap.alloc node).1 := by
  intro a found here
  rcases alloc_cases here with old | ⟨_, same⟩
  · exact every a found old
  · rw [same]
    exact new

omit [RadixKey K] in
theorem Every.allocLeaves {leaves : List L} (new : ∀ l ∈ leaves, P (.leaf l)) :
    Every P (Art.allocLeaves heap leaves).1 := by
  induction leaves generalizing heap with
  | nil => exact every
  | cons l rest ih =>
      exact ih (every.alloc (new l List.mem_cons_self)) fun m member =>
        new m (List.mem_cons_of_mem _ member)

theorem Every.splitLeaf {leaves : List L} {bytePos : Nat} {key : K}
    (new : ∀ l ∈ leaves, P (.leaf l))
    (inner : P (.inner (sparseMany bytePos key (Art.allocLeaves heap leaves).2))) :
    Every P (Art.splitLeaf heap bytePos key leaves).1 :=
  (every.allocLeaves new).alloc inner

omit [RadixLeaf K V L] in
theorem Every.cutEdge {c : Addr} {key k : K} {bytePos : Nat} {l : L} (leaf : P (.leaf l))
    (inner : P (.inner (sparseTwo bytePos c key heap.next k))) :
    Every P (Art.cutEdge heap c key bytePos l k).1 :=
  (every.alloc leaf).alloc inner

section Stores

variable (steady : Steady P)
include steady

omit [RadixKey K] [RadixLeaf K V L] in
theorem Every.store (a : Addr) (index : Nat) (child : Option Addr) :
    Every P (heap.store a index child) := by
  unfold Heap.store
  split
  · rename_i p here
    intro x node there
    by_cases same : x = a
    · subst same
      simp only [Function.update_self, Option.some.injEq] at there
      subst there
      exact steady.child p index child (every x _ here)
    · simp only [Function.update_of_ne same] at there
      exact every x node there
  · exact every

omit [RadixKey K] [RadixLeaf K V L] in
theorem Every.setRemoved (a : Addr) : Every P (heap.setRemoved a) := by
  unfold Heap.setRemoved
  split
  · rename_i p here
    intro x node there
    by_cases same : x = a
    · subst same
      simp only [Function.update_self, Option.some.injEq] at there
      subst there
      exact steady.removed p (every x _ here)
    · simp only [Function.update_of_ne same] at there
      exact every x node there
  · exact every

omit [RadixLeaf K V L] in
theorem Every.addChild {maxSparse : Nat} {g a : Addr} {k : K} {l : L} {after : Heap K L}
    (leaf : P (.leaf l))
    (copy : ∀ p c, P (.inner p) → P (.inner (copyNode maxSparse p p.ptr k c)))
    (done : Art.addChild maxSparse heap g a k l = some after) : Every P after := by
  unfold Art.addChild at done
  split at done
  · rename_i gp p above here
    split at done
    · cases done
    · split at done
      · cases done
      · split at done
        · cases done
        · cases done
          exact (((every.setRemoved steady a).alloc leaf).alloc (copy p _ (every a _ here))).store
            steady _ _ _
  · cases done

end Stores

end Rewrites

omit [RadixKey K] in
theorem allocLeaves_length (heap : Heap K L) (leaves : List L) :
    (allocLeaves heap leaves).2.length = leaves.length := by
  induction leaves generalizing heap with
  | nil => rfl
  | cons l rest ih => exact congrArg Nat.succ (ih (heap.alloc (.leaf l)).1)

/-! The leaves. -/

def OnLeaf (Q : L → Prop) : Node K L → Prop
  | .inner _ => True
  | .leaf l => Q l

variable {Q : L → Prop}

omit [RadixKey K] [RadixLeaf K V L] in
theorem leaves_iff : Leaves Q heap ↔ Every (OnLeaf Q) heap := by
  constructor
  · intro leaves a node here
    cases node with
    | inner p => trivial
    | leaf l => exact leaves a l here
  · intro every a l here
    exact every a (.leaf l) here

omit [RadixKey K] [RadixLeaf K V L] in
theorem steady_onLeaf : Steady (OnLeaf Q : Node K L → Prop) :=
  ⟨fun _ _ _ _ => trivial, fun _ _ => trivial⟩

section Leaves

variable (leaves : Leaves Q heap)
include leaves

omit [RadixKey K] [RadixLeaf K V L] in
theorem Leaves.alloc {l : L} (new : Q l) : Leaves Q (heap.alloc (.leaf l)).1 :=
  leaves_iff.mpr ((leaves_iff.mp leaves).alloc new)

omit [RadixKey K] [RadixLeaf K V L] in
theorem Leaves.store (a : Addr) (index : Nat) (child : Option Addr) :
    Leaves Q (heap.store a index child) :=
  leaves_iff.mpr ((leaves_iff.mp leaves).store steady_onLeaf a index child)

omit [RadixLeaf K V L] in
theorem Leaves.cutEdge {l : L} (new : Q l) (c : Addr) (key : K) (bytePos : Nat) (k : K) :
    Leaves Q (Art.cutEdge heap c key bytePos l k).1 :=
  leaves_iff.mpr ((leaves_iff.mp leaves).cutEdge new trivial)

theorem Leaves.splitLeaf {pieces : List L} (new : ∀ l ∈ pieces, Q l) (bytePos : Nat) (key : K) :
    Leaves Q (Art.splitLeaf heap bytePos key pieces).1 :=
  leaves_iff.mpr ((leaves_iff.mp leaves).splitLeaf new trivial)

omit [RadixLeaf K V L] in
theorem Leaves.addChild {maxSparse : Nat} {g a : Addr} {k : K} {l : L} {after : Heap K L}
    (new : Q l) (done : Art.addChild maxSparse heap g a k l = some after) : Leaves Q after :=
  leaves_iff.mpr ((leaves_iff.mp leaves).addChild steady_onLeaf new (fun _ _ _ => trivial) done)

end Leaves

end SetBench.Art
