import SetBench.ArtPlace

/-! Two changes of the heap that art.h does not make: a leaf changed in place, and a node
that leaves the heap when it is retired. In a tree all of whose inner nodes are reachable
a leaf has one parent, so an append has to fit one edge only. -/
namespace SetBench.Art

open Radix

variable {K V L : Type}

namespace Heap

variable (heap : Heap K L)

def putLeaf (c : Addr) (l : L) : Heap K L :=
  { heap with node := Function.update heap.node c (some (.leaf l)) }

def retire (a : Addr) : Heap K L := { heap with node := Function.update heap.node a none }

end Heap

variable {heap : Heap K L}

theorem putLeaf_node (heap : Heap K L) (c : Addr) (l : L) (x : Addr) :
    (heap.putLeaf c l).node x = if x = c then some (.leaf l) else heap.node x := by
  by_cases same : x = c
  · subst same
    simp [Heap.putLeaf]
  · simp [Heap.putLeaf, same]

theorem retire_node (heap : Heap K L) (a x : Addr) :
    (heap.retire a).node x = if x = a then none else heap.node x := by
  by_cases same : x = a
  · subst same
    simp [Heap.retire]
  · simp [Heap.retire, same]

variable [RadixKey K] [RadixLeaf K V L] {least maxSparse : Nat}

/-- Every inner node of the heap is in the tree. -/
def Linked (heap : Heap K L) : Prop :=
  ∀ x q, heap.node x = some (.inner q) → q.removed = false ∧ Path heap q.key root x

theorem Rewrite.linked {after : Heap K L} {a : Addr} {gone : Option Addr} {New : L → Prop}
    (rewrite : Rewrite least maxSparse heap after a gone New)
    (linked : ∀ x q, heap.node x = some (.inner q) → gone ≠ some x → q.removed = false ∧
      Path heap q.key root x)
    {x : Addr} {q : Inner K} (there : after.node x = some (.inner q)) (other : gone ≠ some x) :
    q.removed = false ∧ Path after q.key root x := by
  have old (r : Inner K) (was : heap.node x = some (.inner r)) : r.removed = false ∧
    Path after r.key root x := by
    obtain ⟨live, path⟩ := linked x r was other
    exact ⟨live, (rewrite.kept x r was other).mpr path⟩
  cases before : heap.node x with
  | none => exact rewrite.fresh x q there before
  | some node =>
      by_cases here : x = a
      · subst here
        obtain ⟨p, index, child, was, now⟩ := rewrite.slot
        rw [now] at there
        cases there
        exact old p was
      · rw [rewrite.same x node before here] at there
        cases there
        exact old q before

/-! Retiring a node that nothing points to. -/

section Retire

variable {a : Addr} (unlinked : ∀ x p byteval, heap.node x = some (.inner p) → byteval < 256 →
    p.child byteval ≠ some a)
include unlinked

omit [RadixLeaf K V L] in
theorem retire_path {k : K} {x b : Addr} (apart : x ≠ a) :
    Path (heap.retire a) k x b ↔ Path heap k x b := by
  constructor
  · intro path
    induction path with
    | refl => exact .refl _
    | @step x c b p here child rest ih =>
        rw [retire_node] at here
        split at here
        · cases here
        · exact .step here child (ih fun same => unlinked x p _ here (RadixKey.byte_lt _ _)
            (same ▸ child))
  · intro path
    induction path with
    | refl => exact .refl _
    | @step x c b p here child rest ih =>
        refine .step (by rw [retire_node, if_neg apart]; exact here) child
          (ih fun same => unlinked x p _ here (RadixKey.byte_lt _ _) (same ▸ child))

theorem retire_below (notRoot : a ≠ root) {p : Inner K} (inner : heap.node a = some (.inner p))
    (k : K) (v : V) :
    Below (heap.retire a) root k v ↔ Below heap root k v := by
  have leaf (b : Addr) (l : L) : (heap.retire a).node b = some (.leaf l) ↔ heap.node b =
    some (.leaf l) := by
    rw [retire_node]
    split
    · rename_i same
      rw [same, inner]
      simp
    · rfl
  constructor
  · rintro ⟨b, l, path, there, member⟩
    exact ⟨b, l, (retire_path unlinked (Ne.symm notRoot)).mp path, (leaf b l).mp there, member⟩
  · rintro ⟨b, l, path, there, member⟩
    exact ⟨b, l, (retire_path unlinked (Ne.symm notRoot)).mpr path, (leaf b l).mpr there, member⟩

theorem retire_sound (sound : Sound least maxSparse heap) (notRoot : a ≠ root) :
    Sound least maxSparse (heap.retire a) := by
  have back {x : Addr} {node : Node K L} (here : (heap.retire a).node x = some node) :
    heap.node x = some node := by
    rw [retire_node] at here
    split at here
    · cases here
    · exact here
  refine ⟨?_, fun x p here => sound.ok x p (back here), ?_, ?_⟩
  · intro x present
    obtain ⟨node, here⟩ := Option.ne_none_iff_exists'.mp present
    exact sound.allocated x (by rw [back here]; simp)
  · intro x p byteval c here inside child
    obtain ⟨node, there, fits⟩ := sound.edge x p byteval c (back here) inside child
    have apart : c ≠ a := fun same => unlinked x p byteval (back here) inside (same ▸ child)
    exact ⟨node, by rw [retire_node, if_neg apart]; exact there, fits⟩
  · obtain ⟨p, here, rest⟩ := sound.top
    exact ⟨p, by rw [retire_node, if_neg (Ne.symm notRoot)]; exact here, rest⟩

end Retire

-- A node that its own key no longer leads to has no parent in the tree.
theorem unlinked_of_lost (sound : Sound least maxSparse heap) {a : Addr} {q : Inner K}
    (here : heap.node a = some (.inner q)) (lost : ¬ Path heap q.key root a)
    (linked : ∀ x p, heap.node x = some (.inner p) → x ≠ a → Path heap p.key root x) :
    ∀ x p byteval, heap.node x = some (.inner p) → byteval < 256 → p.child byteval ≠ some a := by
  intro x p byteval there inside child
  obtain ⟨node, present, fits⟩ := sound.edge x p byteval a there inside child
  rw [here] at present
  cases present
  have apart : x ≠ a := by
    rintro rfl
    rw [there] at here
    cases here
    exact Nat.lt_irrefl _ fits.2.2
  have belongs : Belongs heap x q.key := by
    simp only [Belongs, there]
    exact fits.1
  have path := (linked x p there apart).follow sound belongs
  exact lost (path.snoc there (by rw [fits.2.1]; exact child))

/-- add_child, once the copied node is retired. -/
theorem Located.addChild_retired {k : K} {v : V} {location : Location} {p : Inner K} {g : Addr}
    {l : L} {P : L → Prop} (located : Located heap k location p)
    (sound : Sound least maxSparse heap) (all : Linked heap) (cptr : location.cptr = none)
    (parent : location.gp = some g) (bound : maxSparse < maxIndirectSize)
    (one : OneKey l k v p.byteNum) (leaves : Leaves P heap) (new : P l) :
    ∃ after, Art.addChild maxSparse heap g location.p k l = some after ∧
      Sound least maxSparse (after.retire location.p) ∧
      Leaves P (after.retire location.p) ∧ Linked (after.retire location.p) ∧
        Inserted heap (after.retire location.p) k v := by
  have here := located.here
  obtain ⟨after, done, rewrite, inserted, notRoot⟩ :=
    located.addChild sound cptr parent bound one fun gp above _ => (all g gp above).1
  have linked {x : Addr} {q : Inner K} (there : after.node x = some (.inner q))
    (apart : x ≠ location.p) :
      q.removed = false ∧ Path after q.key root x := by
    refine rewrite.linked (fun y r was other => ?_) there fun same =>
      apart (Option.some.inj same).symm
    have other : y ≠ location.p := fun same => other (by rw [same])
    rw [setRemoved_node here, if_neg other] at was
    rw [setRemoved_path here]
    exact all y r was
  have marked : (heap.setRemoved location.p).node location.p =
    some (.inner { p with removed := true }) := by
    rw [setRemoved_node here, if_pos rfl]
  -- The copied node is not the parent, so it is still there when it is retired.
  have old : after.node location.p = some (.inner { p with removed := true }) := by
    refine rewrite.same _ _ marked ?_
    rintro rfl
    obtain ⟨gp, above, _, child⟩ := located.above _ parent
    rw [here] at above
    cases above
    obtain ⟨node, present, fits⟩ := sound.edge _ p _ _ here (RadixKey.byte_lt _ _) child
    rw [here] at present
    cases present
    exact Nat.lt_irrefl _ fits.2.2
  have lost := rewrite.lost location.p _ rfl marked
  have unlinked := unlinked_of_lost rewrite.sound old lost fun x q there apart =>
    (linked there apart).2
  refine ⟨after, done, retire_sound unlinked rewrite.sound notRoot, ?_, ?_, ?_⟩
  · intro x m there
    rw [retire_node] at there
    split at there
    · cases there
    · refine (rewrite.mono fun m same => same ▸ new).leaves (fun y m was => ?_) x m there
      exact leaves y m ((setRemoved_leaf here y m).mp was)
  · intro x q there
    rw [retire_node] at there
    split at there
    · cases there
    · rename_i apart
      obtain ⟨live, path⟩ := linked there apart
      exact ⟨live, (retire_path unlinked (Ne.symm notRoot)).mpr path⟩
  · intro k' v'
    rw [retire_below unlinked notRoot old]
    exact inserted k' v'

/-! Changing a leaf in place. -/

section PutLeaf

variable {c : Addr} {l l' : L} (here : heap.node c = some (.leaf l))
include here

omit [RadixLeaf K V L] [RadixKey K] in
theorem putLeaf_inner (x : Addr) (q : Inner K) :
    (heap.putLeaf c l').node x = some (.inner q) ↔ heap.node x = some (.inner q) := by
  rw [putLeaf_node]
  split
  · rename_i same
    rw [same, here]
    simp
  · rfl

omit [RadixLeaf K V L] in
theorem putLeaf_path (k : K) (x b : Addr) : Path (heap.putLeaf c l') k x b ↔ Path heap k x b := by
  constructor
  · intro path
    induction path with
    | refl => exact .refl _
    | step there child _ ih => exact .step ((putLeaf_inner here _ _).mp there) child ih
  · intro path
    induction path with
    | refl => exact .refl _
    | step there child _ ih => exact .step ((putLeaf_inner here _ _).mpr there) child ih

omit [RadixLeaf K V L] in
theorem putLeaf_linked (linked : Linked heap) : Linked (heap.putLeaf c l') := by
  intro x q there
  obtain ⟨live, path⟩ := linked x q ((putLeaf_inner here x q).mp there)
  exact ⟨live, (putLeaf_path here _ _ _).mpr path⟩

theorem putLeaf_sound (sound : Sound least maxSparse heap)
    (fits : ∀ x p byteval, heap.node x = some (.inner p) → byteval < 256 →
      p.child byteval = some c → Fits p byteval (.leaf l' : Node K L)) :
    Sound least maxSparse (heap.putLeaf c l') := by
  refine ⟨?_, fun x p there => sound.ok x p ((putLeaf_inner here x p).mp there), ?_, ?_⟩
  · intro x present
    rw [putLeaf_node] at present
    split at present
    · rename_i same
      exact sound.allocated x (by rw [same, here]; simp)
    · exact sound.allocated x present
  · intro x p byteval d there inside child
    have old := (putLeaf_inner here x p).mp there
    obtain ⟨node, present, edge⟩ := sound.edge x p byteval d old inside child
    rw [putLeaf_node]
    split
    · rename_i same
      exact ⟨_, rfl, fits x p byteval old inside (same ▸ child)⟩
    · exact ⟨node, present, edge⟩
  · obtain ⟨p, there, rest⟩ := sound.top
    exact ⟨p, (putLeaf_inner here root p).mpr there, rest⟩

theorem putLeaf_below (x : Addr) (k : K) (v : V) : Below (heap.putLeaf c l') x k v ↔
    (Below heap x k v ∧ ¬ Path heap k x c) ∨ (Path heap k x c ∧ (k, v) ∈ RadixLeaf.pairs l') := by
  have now : (heap.putLeaf c l').node c = some (.leaf l') := by rw [putLeaf_node, if_pos rfl]
  constructor
  · rintro ⟨b, m, moved, leaf, member⟩
    have path := (putLeaf_path here k x b).mp moved
    clear moved
    by_cases same : b = c
    · subst same
      rw [now] at leaf
      cases leaf
      exact Or.inr ⟨path, member⟩
    · rw [putLeaf_node, if_neg same] at leaf
      refine Or.inl ⟨⟨b, m, path, leaf, member⟩, fun other => ?_⟩
      rcases path.linear other with down | up
      · exact same (down.leaf_end leaf)
      · exact same (up.leaf_end here).symm
  · rintro (⟨⟨b, m, path, leaf, member⟩, other⟩ | ⟨path, member⟩)
    · have apart : b ≠ c := fun same => other (same ▸ path)
      exact ⟨b, m, (putLeaf_path here k x b).mpr path, by
        rw [putLeaf_node, if_neg apart]; exact leaf, member⟩
    · exact ⟨c, l', (putLeaf_path here k x c).mpr path, now, member⟩

-- Both parents of a leaf lie on the path of its header key.
theorem one_parent (sound : Sound least maxSparse heap) (linked : Linked heap) {x y : Addr}
    {p q : Inner K} {byteval byteval' : Nat} (above : heap.node x = some (.inner p))
    (inside : byteval < 256) (child : p.child byteval = some c)
    (above' : heap.node y = some (.inner q)) (inside' : byteval' < 256)
    (child' : q.child byteval' = some c) : x = y ∧ byteval = byteval' := by
  have on {z : Addr} {r : Inner K} {slot : Nat} (there : heap.node z = some (.inner r))
    (small : slot < 256)
      (edge : r.child slot = some c) : Path heap (RadixLeaf.key l) root z ∧
      RadixKey.byte (RadixLeaf.key l) r.byteNum = slot := by
    obtain ⟨node, present, fits⟩ := sound.edge z r slot c there small edge
    rw [here] at present
    cases present
    have belongs : Belongs heap z (RadixLeaf.key l) := by
      simp only [Belongs, there]
      exact fits.2.2.1
    exact ⟨(linked z r there).2.follow sound belongs, fits.2.2.2⟩
  obtain ⟨first, slot⟩ := on above inside child
  obtain ⟨second, slot'⟩ := on above' inside' child'
  -- One lies below the other; the next node on the way is the leaf already.
  have stop {z w : Addr} {r s : Inner K} (there : heap.node z = some (.inner r))
    (other : heap.node w = some (.inner s))
      (edge : r.child (RadixKey.byte (RadixLeaf.key l) r.byteNum) = some c)
      (down : Path heap (RadixLeaf.key l) z w) : z = w := by
    cases down with
    | refl => rfl
    | @step _ d _ t node next rest =>
        rw [there] at node
        cases node
        rw [edge] at next
        cases next
        have same := rest.leaf_end here
        subst same
        rw [here] at other
        cases other
  have same : x = y := by
    rcases first.linear second with down | up
    · exact stop above above' (by rw [slot]; exact child) down
    · exact (stop above' above (by rw [slot']; exact child') up).symm
  subst same
  rw [above] at above'
  cases above'
  exact ⟨rfl, slot.symm.trans slot'⟩

end PutLeaf

/-! An append at the place of a search. -/

namespace Placed

variable {k : K} {v : V} {location : Location} {p : Inner K} {c : Addr} {l l' : L}
  (placed : Placed least maxSparse heap k location p) (held : location.c = some c)
  (there : heap.node c = some (.leaf l))
include placed held there

theorem on_path {k' : K} (v' : V) (source : (k', v') ∈ RadixLeaf.pairs l ∨ k' = k) :
    Path heap k' root c := by
  obtain ⟨agree, byteval⟩ := placed.pair_fits held there (k', v') source
  have belongs : Belongs heap location.p k' := by
    simp only [Belongs, placed.seen.here]
    exact agree
  refine (placed.reach.follow placed.sound belongs).snoc placed.seen.here ?_
  rw [byteval]
  exact placed.edge held

omit placed held in
theorem below_path {k' : K} (path : Path heap k' root c) (v' : V) :
    Below heap root k' v' ↔ (k', v') ∈ RadixLeaf.pairs l := by
  constructor
  · rintro ⟨b, m, other, leaf, member⟩
    have same : b = c := by
      rcases other.linear path with down | up
      · exact down.leaf_end leaf
      · exact (up.leaf_end there).symm
    subst same
    rw [there] at leaf
    cases leaf
    exact member
  · exact fun member => ⟨c, l, path, there, member⟩

theorem append_sound (linked : Linked heap) (key : RadixLeaf.key l' = RadixLeaf.key l)
    (byteNum : RadixLeaf.byteNum l' = RadixLeaf.byteNum l)
    (source : ∀ entry ∈ RadixLeaf.pairs l', entry ∈ RadixLeaf.pairs l ∨ entry.1 = k) :
    Sound least maxSparse (heap.putLeaf c l') := by
  refine putLeaf_sound there placed.sound fun x q byteval above inside child => ?_
  obtain ⟨rfl, rfl⟩ := one_parent there placed.sound linked above inside child placed.seen.here
    (RadixKey.byte_lt k p.byteNum) (placed.edge held)
  have same := placed.seen.here
  rw [above] at same
  cases same
  refine placed.swap_fits held there ?_ (Or.inl key) source
  rw [byteNum]
  exact (placed.fits held there).1

theorem append_insert
    (pairs : ∀ entry, entry ∈ RadixLeaf.pairs l' ↔ entry ∈ RadixLeaf.pairs l ∨ entry = (k, v)) :
    Inserted heap (heap.putLeaf c l') k v := by
  intro k' v'
  rw [putLeaf_below there, pairs, Prod.mk.injEq]
  by_cases path : Path heap k' root c
  · rw [below_path there path]
    simp [path]
  · have other : k' ≠ k := fun same => path (placed.on_path held there v (Or.inr same))
    simp [path, other]

theorem append_delete
    (pairs : ∀ entry, entry ∈ RadixLeaf.pairs l' ↔ entry ∈ RadixLeaf.pairs l ∧ entry.1 ≠ k) :
    Deleted heap (heap.putLeaf c l') k := by
  intro k' v'
  rw [putLeaf_below there, pairs]
  by_cases path : Path heap k' root c
  · rw [below_path there path]
    simp [path]
  · have other : k' ≠ k := fun same => path (placed.on_path held there v' (Or.inr same))
    simp [path, other]

end Placed

end SetBench.Art
