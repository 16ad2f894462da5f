import SetBench.ArtGraft

/-! The rewrites of a leaf slot and of add_child, for any kind of leaf: a new leaf, a
null, a sparse node over several leaves, the cut edge, and the copy of an inner node. -/
namespace SetBench.Art

open Radix

variable {K V L : Type} [RadixKey K]

-- sparse_node(byte_num, v1, k1, v2, k2)
def sparseTwo (byteNum : Nat) (v1 : Addr) (k1 : K) (v2 : Addr) (k2 : K) : Inner K :=
  ⟨.sparse [RadixKey.byte k1 byteNum, RadixKey.byte k2 byteNum], 2, byteNum, k1, [some v1, some v2],
    false⟩

-- sparse_node(byte_num, start, end); `key` is the header key of the first child
def sparseMany (byteNum : Nat) (key : K) (children : List (K × Addr)) : Inner K :=
  ⟨.sparse (children.map fun child => RadixKey.byte child.1 byteNum), children.length, byteNum, key,
    children.map fun child => some child.2, false⟩

/-- The non-leaf branch of try_insert: the node `c` and the new leaf under a sparse node
at the byte where they part. -/
def cutEdge (heap : Heap K L) (c : Addr) (key : K) (bytePos : Nat) (l : L) (k : K) :
    Heap K L × Addr :=
  let (heap, new) := heap.alloc (.leaf l)
  heap.alloc (.inner (sparseTwo bytePos c key new k))

def allocLeaves [RadixLeaf K V L] (heap : Heap K L) : List L → Heap K L × List (K × Addr)
  | [] => (heap, [])
  | l :: rest =>
      let (heap, c) := heap.alloc (.leaf l)
      let (heap, children) := allocLeaves heap rest
      (heap, (RadixLeaf.key l, c) :: children)

/-- The end of the split of a leaf: the new leaves under a new sparse node. -/
def splitLeaf [RadixLeaf K V L] (heap : Heap K L) (bytePos : Nat) (key : K) (leaves : List L) :
    Heap K L × Addr :=
  let (heap, children) := allocLeaves heap leaves
  heap.alloc (.inner (sparseMany bytePos key children))

/-- The end of add_child, with the pointers `loaded` from the old node `p`: the copy with
the new leaf is linked under the grandparent. -/
def swingCopy (maxSparse : Nat) (heap : Heap K L) (gp : Addr) (index : Nat) (p : Inner K)
    (loaded : List (Option Addr)) (k : K) (l : L) : Heap K L :=
  let (heap, c) := heap.alloc (.leaf l)
  let (heap, new) := heap.alloc (.inner (copyNode maxSparse p loaded k c))
  heap.store gp index (some new)

/-- add_child with both locks taken; `none` is a return of false. -/
def addChild (maxSparse : Nat) (heap : Heap K L) (gp p : Addr) (k : K) (l : L) :
    Option (Heap K L) :=
  match heap.node gp, heap.node p with
  | some (.inner gpNode), some (.inner pNode) =>
      match gpNode.getChild pNode.key with
      | none => none
      | some index =>
          if gpNode.removed ∨ gpNode.ptr.getD index none ≠ some p then none
          else if (pNode.getChild k).isSome then none
          else some (swingCopy maxSparse (heap.setRemoved p) gp index pNode pNode.ptr k l)
  | _, _ => none

variable [RadixLeaf K V L] {least maxSparse : Nat} {heap : Heap K L}

section Sparse

variable {keys : List Nat} {ptr : List (Option Addr)} {size byteNum : Nat} {key : K}
    {removed : Bool}

omit [RadixKey K] [RadixLeaf K V L] in
theorem sparse_child (nodup : keys.Nodup) (byteval : Nat) (c : Addr) :
    (⟨.sparse keys, size, byteNum, key, ptr, removed⟩ : Inner K).child byteval = some c ↔
      ∃ index : Nat, keys[index]? = some byteval ∧ ptr[index]? = some (some c) := by
  constructor
  · intro held
    cases found : (Layout.sparse keys).find byteval with
    | none => rw [Inner.child_of_none found] at held; cases held
    | some index =>
        rw [Inner.child_of_find found, List.getD_eq_getElem?_getD] at held
        refine ⟨index, find_sparse_some found, ?_⟩
        cases slot : ptr[index]? with
        | none => simp [slot] at held
        | some content => simpa [slot] using held
  · rintro ⟨index, here, slot⟩
    rw [Inner.child_of_find (find_sparse_of_get nodup here), List.getD_eq_getElem?_getD]
    simp [slot]

end Sparse


theorem fits_header {p q : Inner K} (key : p.key = q.key) (byteNum : p.byteNum = q.byteNum)
    (byteval : Nat) (node : Node K L) : Fits p byteval node ↔ Fits q byteval node := by
  cases node <;> simp only [Fits, key, byteNum]

/-- A leaf of one pair that can stand below byte `pos`. -/
structure OneKey (l : L) (k : K) (v : V) (pos : Nat) : Prop where
  pairs : RadixLeaf.pairs l = [(k, v)]
  key : RadixLeaf.key l = k
  deep : pos < RadixLeaf.byteNum l

section Cut

variable {c : Addr} {q : Inner K} {k : K} {v : V} {pos : Nat} {l : L}

omit [RadixLeaf K V L] in
theorem cutEdge_cases {key : K} {x : Addr} {node : Node K L}
    (held : (cutEdge heap c key pos l k).1.node x = some node) :
    heap.node x = some node ∨ node = .leaf l ∨ (x = (cutEdge heap c key pos l k).2 ∧
      node = .inner (sparseTwo pos c key (heap.alloc (.leaf l)).2 k)) := by
  rcases alloc_cases held with old | new
  · rcases alloc_cases old with older | ⟨_, same⟩
    · exact Or.inl older
    · exact Or.inr (Or.inl same)
  · exact Or.inr (Or.inr new)

theorem cutEdge_fresh (sound : Sound least maxSparse heap) (key : K) :
    heap.node (cutEdge heap c key pos l k).2 = none := by
  by_contra present
  have bound : heap.next + 1 < heap.next := sound.allocated _ present
  exact Nat.lt_irrefl _ (Nat.lt_of_succ_lt bound)

theorem cutEdge_sound (sound : Sound least maxSparse heap) (few : least ≤ 2) (two : 2 ≤ maxSparse)
    (there : heap.node c = some (.inner q)) (parts : Parts k q.key pos) (early : pos < q.byteNum)
    (one : OneKey l k v pos) :
    Extends heap (cutEdge heap c q.key pos l k).1 ∧
      Sound least maxSparse (cutEdge heap c q.key pos l k).1 := by
  have first := alloc_extends sound (.leaf l)
  have middle := alloc_leaf_sound sound l
  have nodup : [RadixKey.byte q.key pos, RadixKey.byte k pos].Nodup := by
    simp [Ne.symm parts.2]
  refine ⟨first.trans (alloc_extends middle _), alloc_sound middle _ ?_ ?_⟩
  · rintro _ ⟨⟩
    refine ⟨⟨rfl, rfl, nodup, ?_, few, two⟩, parts.lt_size⟩
    intro key member
    simp only [List.mem_cons, List.not_mem_nil, or_false] at member
    rcases member with rfl | rfl <;> exact RadixKey.byte_lt _ _
  · rintro _ byteval d ⟨⟩ _ held
    obtain ⟨index, key, slot⟩ := (sparse_child nodup byteval d).mp held
    match index with
    | 0 =>
        cases key
        cases slot
        exact ⟨_, first _ _ there, Agree.refl _ _, rfl, early⟩
    | 1 =>
        cases key
        cases slot
        refine ⟨_, alloc_node heap _, one.deep, ?_, by rw [one.key]; exact ⟨parts.1, rfl⟩⟩
        intro entry member
        rw [one.pairs, List.mem_singleton] at member
        subst member
        exact ⟨parts.1, rfl⟩

theorem cutEdge_below (sound : Sound least maxSparse heap) (few : least ≤ 2) (two : 2 ≤ maxSparse)
    (there : heap.node c = some (.inner q)) (parts : Parts k q.key pos) (early : pos < q.byteNum)
    (one : OneKey l k v pos) (k' : K) (v' : V) :
    Below (cutEdge heap c q.key pos l k).1 (cutEdge heap c q.key pos l k).2 k' v' ↔
      Below heap c k' v' ∨ (k' = k ∧ v' = v) := by
  have larger := (cutEdge_sound sound few two there parts early one).1
  have nodup : [RadixKey.byte q.key pos, RadixKey.byte k pos].Nodup := by
    simp [Ne.symm parts.2]
  have now : (cutEdge heap c q.key pos l k).1.node (cutEdge heap c q.key pos l k).2 =
      some (.inner (sparseTwo pos c q.key (heap.alloc (.leaf l)).2 k)) := alloc_node _ _
  have leaf : (cutEdge heap c q.key pos l k).1.node (heap.alloc (.leaf l)).2 = some (.leaf l) :=
    alloc_extends (alloc_leaf_sound sound l) _ _ _ (alloc_node heap _)
  rw [below_inner now]
  constructor
  · rintro ⟨d, held, below⟩
    obtain ⟨index, key, slot⟩ := (sparse_child nodup _ d).mp held
    match index with
    | 0 =>
        cases slot
        exact Or.inl ((larger.below sound (by rw [there]; simp) k' v').mp below)
    | 1 =>
        cases slot
        have member := (below_leaf leaf k' v').mp below
        rw [one.pairs, List.mem_singleton] at member
        cases member
        exact Or.inr ⟨rfl, rfl⟩
  · rintro (below | ⟨rfl, rfl⟩)
    · have same : RadixKey.byte k' pos = RadixKey.byte q.key pos :=
        below.agree sound there pos early
      exact ⟨c, (sparse_child nodup _ c).mpr ⟨0, congrArg some same.symm, rfl⟩,
        (larger.below sound (by rw [there]; simp) k' v').mpr below⟩
    · exact ⟨(heap.alloc (.leaf l)).2, (sparse_child nodup _ _).mpr ⟨1, rfl, rfl⟩,
        (below_leaf leaf k' v').mpr (by rw [one.pairs]; exact List.mem_singleton_self _)⟩

end Cut

/-! The removed flag is no part of what the tree holds. -/

section Removed

variable {a : Addr} {p : Inner K}

omit [RadixKey K] [RadixLeaf K V L] in
theorem setRemoved_node (here : heap.node a = some (.inner p)) (other : Addr) :
    (heap.setRemoved a).node other =
      if other = a then some (.inner { p with removed := true }) else heap.node other := by
  simp only [Heap.setRemoved, here]
  by_cases same : other = a
  · simp [same]
  · simp [same]

omit [RadixKey K] [RadixLeaf K V L] in
theorem setRemoved_next (heap : Heap K L) (a : Addr) : (heap.setRemoved a).next = heap.next := by
  unfold Heap.setRemoved
  split <;> rfl

omit [RadixKey K] [RadixLeaf K V L] in
theorem setRemoved_inner (here : heap.node a = some (.inner p)) {other : Addr} {q : Inner K}
    (there : heap.node other = some (.inner q)) :
    ∃ flag, (heap.setRemoved a).node other = some (.inner { q with removed := flag }) := by
  rw [setRemoved_node here]
  by_cases same : other = a
  · subst same
    rw [here] at there
    cases there
    exact ⟨true, if_pos rfl⟩
  · exact ⟨q.removed, by rw [if_neg same]; exact there⟩

omit [RadixKey K] [RadixLeaf K V L] in
theorem setRemoved_back (here : heap.node a = some (.inner p)) {other : Addr} {q : Inner K}
    (there : (heap.setRemoved a).node other = some (.inner q)) :
    ∃ flag, heap.node other = some (.inner { q with removed := flag }) := by
  rw [setRemoved_node here] at there
  split at there
  · rename_i same
    cases there
    exact ⟨p.removed, by rw [same]; exact here⟩
  · exact ⟨q.removed, there⟩

omit [RadixKey K] [RadixLeaf K V L] in
theorem setRemoved_leaf (here : heap.node a = some (.inner p)) (other : Addr) (l : L) :
    (heap.setRemoved a).node other = some (.leaf l) ↔ heap.node other = some (.leaf l) := by
  rw [setRemoved_node here]
  split
  · rename_i same
    rw [same, here]
    simp
  · rfl

omit [RadixLeaf K V L] in
theorem setRemoved_path (here : heap.node a = some (.inner p)) (k : K) (x b : Addr) :
    Path (heap.setRemoved a) k x b ↔ Path heap k x b := by
  constructor
  · intro path
    induction path with
    | refl => exact .refl _
    | step there child _ ih =>
        obtain ⟨flag, old⟩ := setRemoved_back here there
        exact .step old child ih
  · intro path
    induction path with
    | refl => exact .refl _
    | step there child _ ih =>
        obtain ⟨flag, new⟩ := setRemoved_inner here there
        exact .step new child ih

theorem setRemoved_below (here : heap.node a = some (.inner p)) (x : Addr) (k : K) (v : V) :
    Below (heap.setRemoved a) x k v ↔ Below heap x k v := by
  constructor
  · rintro ⟨b, l, path, leaf, member⟩
    exact ⟨b, l, (setRemoved_path here k x b).mp path, (setRemoved_leaf here b l).mp leaf, member⟩
  · rintro ⟨b, l, path, leaf, member⟩
    exact ⟨b, l, (setRemoved_path here k x b).mpr path, (setRemoved_leaf here b l).mpr leaf, member⟩

theorem setRemoved_sound (sound : Sound least maxSparse heap) (here : heap.node a = some (.inner p))
    (notRoot : a ≠ root) : Sound least maxSparse (heap.setRemoved a) := by
  refine ⟨?_, ?_, ?_, ?_⟩
  · intro other present
    rw [setRemoved_next]
    rw [setRemoved_node here] at present
    split at present
    · rename_i same
      exact sound.allocated other (by rw [same, here]; simp)
    · exact sound.allocated other present
  · intro other q there
    obtain ⟨flag, old⟩ := setRemoved_back here there
    exact sound.ok other { q with removed := flag } old
  · intro other q byteval c there inside child
    obtain ⟨flag, old⟩ := setRemoved_back here there
    obtain ⟨node, present, fits⟩ := sound.edge other _ byteval c old inside child
    cases node with
    | leaf l => exact ⟨.leaf l, (setRemoved_leaf here c l).mpr present, fits⟩
    | inner r =>
        obtain ⟨flag', new⟩ := setRemoved_inner here present
        exact ⟨_, new, fits⟩
  · obtain ⟨q, there, rest⟩ := sound.top
    exact ⟨q, by rw [setRemoved_node here, if_neg (Ne.symm notRoot)]; exact there, rest⟩

end Removed

/-! Rewrites through a slot found by a search. -/

/-- The slot of `k` in a reachable node whose prefix agrees with `k`. -/
structure Slot (least maxSparse : Nat) (heap : Heap K L) (a : Addr) (p : Inner K) (k : K)
    (index : Nat) : Prop where
  sound : Sound least maxSparse heap
  here : heap.node a = some (.inner p)
  reach : Path heap p.key root a
  agree : Agree k p.key p.byteNum
  found : p.getChild k = some index

section Slot

variable {a : Addr} {p : Inner K} {k : K} {index : Nat}
    (slot : Slot least maxSparse heap a p k index)
include slot

theorem Slot.graft {mid : Heap K L} {child : Option Addr} (larger : Extends heap mid)
    (whole : Sound least maxSparse mid) (fits : FitsSlot mid p (RadixKey.byte k p.byteNum) child) :
    Graft least maxSparse heap mid a p (RadixKey.byte k p.byteNum) index child :=
  ⟨slot.sound, larger, whole, slot.here, slot.reach, RadixKey.byte_lt _ _, slot.found, fits⟩

-- What the tree holds for `k` lies below its slot.
theorem Slot.below (v : V) :
    Below heap root k v ↔ Sub heap (p.child (RadixKey.byte k p.byteNum)) k v := by
  have belongs : Belongs heap a k := by
    simp only [Belongs, slot.here]
    exact slot.agree
  rw [below_at (slot.reach.follow slot.sound belongs) slot.here, below_inner slot.here]
  rfl

theorem Slot.put_leaf {l : L} (fits : Fits p (RadixKey.byte k p.byteNum) (.leaf l : Node K L))
    (old : ∀ c, p.child (RadixKey.byte k p.byteNum) = some c → ∃ l, heap.node c = some (.leaf l)) :
    Rewrite least maxSparse heap
      ((heap.alloc (.leaf l)).1.store a index (some (heap.alloc (.leaf l)).2)) a none (· = l) ∧
    ∀ (k' : K) (v' : V), Below
      ((heap.alloc (.leaf l)).1.store a index (some (heap.alloc (.leaf l)).2)) root k' v' ↔
      (Below heap root k' v' ∧ ¬ Sub heap (p.child (RadixKey.byte k p.byteNum)) k' v') ∨
        (k', v') ∈ RadixLeaf.pairs l := by
  have now := alloc_node heap (.leaf l)
  have room : FitsSlot (heap.alloc (.leaf l)).1 p (RadixKey.byte k p.byteNum)
    (some (heap.alloc (.leaf l)).2) := by
    rintro _ ⟨⟩
    exact ⟨_, now, fits⟩
  have graft := slot.graft (alloc_extends slot.sound (.leaf l)) (alloc_leaf_sound slot.sound l) room
  refine ⟨graft.rewrite_leaf old ?_ ?_ ?_, ?_⟩
  · rintro _ ⟨⟩
    exact Or.inl ⟨l, now⟩
  · intro x q there absent
    rcases alloc_cases there with old | ⟨_, same⟩
    · rw [absent] at old
      cases old
    · cases same
  · intro x l' there
    rcases alloc_cases there with old | ⟨_, same⟩
    · exact Or.inl old
    · exact Or.inr (by cases same; rfl)
  · intro k' v'
    rw [graft.below, ← below_leaf now]
    simp [Sub]

theorem Slot.clear
    (old : ∀ c, p.child (RadixKey.byte k p.byteNum) = some c → ∃ l, heap.node c = some (.leaf l)) :
    Rewrite least maxSparse heap (heap.store a index none) a none (fun _ => False) ∧
    ∀ (k' : K) (v' : V), Below (heap.store a index none) root k' v' ↔
      Below heap root k' v' ∧ ¬ Sub heap (p.child (RadixKey.byte k p.byteNum)) k' v' := by
  have room : FitsSlot heap p (RadixKey.byte k p.byteNum) none := fun _ same => nomatch same
  have graft := slot.graft (fun _ _ here => here) slot.sound room
  refine ⟨graft.rewrite_leaf old (by simp) ?_ (fun _ _ there => Or.inl there), ?_⟩
  · intro x q there absent
    rw [there] at absent
    cases absent
  · intro k' v'
    rw [graft.below]
    simp [Sub]

theorem Slot.cut {c : Addr} {q : Inner K} {v : V} {pos : Nat} {l : L} (few : least ≤ 2)
    (two : 2 ≤ maxSparse) (child : p.child (RadixKey.byte k p.byteNum) = some c)
    (there : heap.node c = some (.inner q)) (parts : Parts k q.key pos) (early : pos < q.byteNum)
    (one : OneKey l k v pos) :
    Rewrite least maxSparse heap
      ((cutEdge heap c q.key pos l k).1.store a index (some (cutEdge heap c q.key pos l k).2))
      a none (· = l) ∧
    Inserted heap ((cutEdge heap c q.key pos l k).1.store a index
      (some (cutEdge heap c q.key pos l k).2)) k v := by
  have inside := RadixKey.byte_lt k p.byteNum
  obtain ⟨larger, whole⟩ := cutEdge_sound slot.sound few two there parts early one
  have now : (cutEdge heap c q.key pos l k).1.node (cutEdge heap c q.key pos l k).2 =
      some (.inner (sparseTwo pos c q.key (heap.alloc (.leaf l)).2 k)) := alloc_node _ _
  have leaf : (cutEdge heap c q.key pos l k).1.node (heap.alloc (.leaf l)).2 = some (.leaf l) :=
    alloc_extends (alloc_leaf_sound slot.sound l) _ _ _ (alloc_node heap _)
  obtain ⟨node, present, fits⟩ := slot.sound.edge a p _ c slot.here inside child
  rw [there] at present
  cases present
  -- `k` and the key of `c` agree up to the parent's byte, so they part below it.
  have below : p.byteNum < pos := by
    by_contra above
    rcases Nat.lt_or_eq_of_le (Nat.le_of_not_lt above) with less | same
    · exact parts.2 ((slot.agree pos less).trans (fits.1 pos less).symm)
    · exact parts.2 (by rw [same]; exact fits.2.1.symm)
  have room : FitsSlot (cutEdge heap c q.key pos l k).1 p (RadixKey.byte k p.byteNum)
      (some (cutEdge heap c q.key pos l k).2) := by
    rintro _ ⟨⟩
    exact ⟨_, now, fits.1, fits.2.1, below⟩
  have graft := slot.graft larger whole room
  have nodup : [RadixKey.byte q.key pos, RadixKey.byte k pos].Nodup := by
    simp [Ne.symm parts.2]
  refine ⟨graft.rewrite ?_ (fun _ _ absurd_ => nomatch absurd_) ?_ ?_, graft.inserts ?_⟩
  · intro x r old _
    constructor
    · rintro ⟨_, ⟨⟩, path⟩
      cases path with
      | refl =>
          rw [cutEdge_fresh slot.sound] at old
          cases old
      | @step _ d _ s node edge rest =>
          rw [now] at node
          cases node
          obtain ⟨place, key, held⟩ := (sparse_child nodup _ d).mp edge
          match place with
          | 0 =>
              cases held
              exact ⟨c, child, larger.path_back slot.sound (by rw [there]; simp) rest⟩
          | 1 =>
              cases held
              have same := rest.leaf_end leaf
              subst same
              rw [larger _ _ old] at leaf
              cases leaf
    · rintro ⟨d, held, path⟩
      rw [child] at held
      cases held
      have byteval : RadixKey.byte r.key pos = RadixKey.byte q.key pos := by
        by_cases same : c = x
        · subst same
          rw [there] at old
          cases old
          rfl
        · have belongs : Belongs heap x r.key := by
            simp only [Belongs, old]
            exact Agree.refl _ _
          exact (path.belongs slot.sound same there belongs).1 pos early
      exact ⟨_, rfl, .step now ((sparse_child nodup _ c).mpr ⟨0, congrArg some byteval.symm, rfl⟩)
        (larger.path path)⟩
  · intro x r held absent
    rcases cutEdge_cases held with old | same | ⟨linked, same⟩
    · rw [absent] at old
      cases old
    · cases same
    · cases same
      exact ⟨by rw [linked], rfl⟩
  · intro x l' held
    rcases cutEdge_cases held with old | same | ⟨_, same⟩
    · exact Or.inl old
    · cases same
      exact Or.inr rfl
    · cases same
  · intro k' v'
    have new := cutEdge_below slot.sound few two there parts early one k' v'
    rw [child]
    simpa [Sub] using new

end Slot

/-! The split of a leaf. -/

section Split

theorem allocLeaves_spec (sound : Sound least maxSparse heap) (leaves : List L) :
    Extends heap (allocLeaves heap leaves).1 ∧ Sound least maxSparse (allocLeaves heap leaves).1 ∧
    List.Forall₂ (fun l child => child.1 = RadixLeaf.key l ∧
      (allocLeaves heap leaves).1.node child.2 = some (.leaf l)) leaves
        (allocLeaves heap leaves).2 ∧
    ∀ x node, (allocLeaves heap leaves).1.node x = some node →
      heap.node x = some node ∨ ∃ l ∈ leaves, node = .leaf l := by
  induction leaves generalizing heap with
  | nil => exact ⟨fun _ _ here => here, sound, .nil, fun _ _ here => Or.inl here⟩
  | cons l rest ih =>
      obtain ⟨larger, whole, children, old⟩ := ih (alloc_leaf_sound sound l)
      refine ⟨(alloc_extends sound (.leaf l)).trans larger, whole, .cons ⟨rfl, ?_⟩ children, ?_⟩
      · exact larger _ _ (alloc_node heap (.leaf l))
      · intro x node here
        rcases old x node here with before | ⟨l', member, same⟩
        · rcases alloc_cases before with older | ⟨_, same⟩
          · exact Or.inl older
          · exact Or.inr ⟨l, List.mem_cons_self, same⟩
        · exact Or.inr ⟨l', List.mem_cons_of_mem _ member, same⟩

variable {pos : Nat} {key : K} {leaves : List L}

/-- Leaves that a sparse node at `pos` can tell apart. -/
structure Divided (pos : Nat) (key : K) (leaves : List L) : Prop where
  nodup : (leaves.map fun l => RadixKey.byte (RadixLeaf.key l) pos).Nodup
  deep : ∀ l ∈ leaves, pos < RadixLeaf.byteNum l
  agree : ∀ l ∈ leaves, ∀ entry ∈ RadixLeaf.pairs l,
    Agree entry.1 key pos ∧ RadixKey.byte entry.1 pos = RadixKey.byte (RadixLeaf.key l) pos
  header : ∀ l ∈ leaves, Agree (RadixLeaf.key l) key pos

variable {mid : Heap K L} {children : List (K × Addr)}

theorem sparseMany_keys (made : List.Forall₂ (fun l child => child.1 = RadixLeaf.key l ∧
    mid.node child.2 = some (.leaf l)) leaves children) :
    (children.map fun child => RadixKey.byte child.1 pos) =
      leaves.map fun l => RadixKey.byte (RadixLeaf.key l) pos := by
  induction made with
  | nil => rfl
  | cons head _ ih => rw [List.map_cons, List.map_cons, head.1, ih]

theorem sparseMany_child
    (made : List.Forall₂ (fun l child => child.1 = RadixLeaf.key l ∧
      mid.node child.2 = some (.leaf l)) leaves children)
    (nodup : (leaves.map fun l => RadixKey.byte (RadixLeaf.key l) pos).Nodup) {byteval : Nat}
    {c : Addr} (held : (sparseMany pos key children).child byteval = some c) :
    ∃ l ∈ leaves, RadixKey.byte (RadixLeaf.key l) pos = byteval ∧ mid.node c = some (.leaf l) := by
  rw [← sparseMany_keys made] at nodup
  obtain ⟨place, byteHere, childHere⟩ := (sparse_child nodup _ c).mp held
  obtain ⟨length, each⟩ := List.forall₂_iff_get.mp made
  simp only [List.getElem?_map, Option.map_eq_some_iff] at byteHere childHere
  obtain ⟨child, here, byteval_⟩ := byteHere
  obtain ⟨child', here', address⟩ := childHere
  rw [here] at here'
  cases here'
  cases address
  obtain ⟨bound, same⟩ := List.getElem?_eq_some_iff.mp here
  have both := each place (by omega) bound
  simp only [List.get_eq_getElem, same] at both
  refine ⟨leaves[place], List.getElem_mem _, ?_, both.2⟩
  rw [← both.1]
  exact byteval_

theorem sparseMany_child_of (key : K)
    (made : List.Forall₂ (fun l child => child.1 = RadixLeaf.key l ∧
      mid.node child.2 = some (.leaf l)) leaves children)
    (nodup : (leaves.map fun l => RadixKey.byte (RadixLeaf.key l) pos).Nodup) {l : L}
    (member : l ∈ leaves) :
    ∃ c, (sparseMany pos key children).child (RadixKey.byte (RadixLeaf.key l) pos) = some c ∧
      mid.node c = some (.leaf l) := by
  rw [← sparseMany_keys made] at nodup
  obtain ⟨length, each⟩ := List.forall₂_iff_get.mp made
  obtain ⟨place, bound, rfl⟩ := List.getElem_of_mem member
  have both := each place bound (by omega)
  simp only [List.get_eq_getElem] at both
  refine ⟨children[place].2, (sparse_child nodup _ _).mpr ⟨place, ?_, ?_⟩, both.2⟩
  · rw [← both.1, List.getElem?_map, List.getElem?_eq_getElem (by omega)]
    rfl
  · rw [List.getElem?_map, List.getElem?_eq_getElem (by omega)]
    rfl

theorem splitLeaf_sound (sound : Sound least maxSparse heap) (divided : Divided pos key leaves)
    (inside : pos < RadixKey.size K) (some_ : least ≤ leaves.length)
    (most : leaves.length ≤ maxSparse) :
    Extends heap (splitLeaf heap pos key leaves).1 ∧
      Sound least maxSparse (splitLeaf heap pos key leaves).1 := by
  obtain ⟨larger, whole, made, _⟩ := allocLeaves_spec sound leaves
  refine ⟨larger.trans (alloc_extends whole _), alloc_sound whole _ ?_ ?_⟩
  · rintro _ ⟨⟩
    have length : (allocLeaves heap leaves).2.length = leaves.length := made.length_eq.symm
    refine ⟨⟨by simp [sparseMany], by simp [sparseMany], ?_, ?_, ?_, ?_⟩, inside⟩
    · rw [sparseMany_keys made]
      exact divided.nodup
    · intro byteval member
      rw [List.mem_map] at member
      obtain ⟨child, _, rfl⟩ := member
      exact RadixKey.byte_lt _ _
    · simp only [sparseMany, length]
      exact some_
    · simp only [sparseMany, length]
      exact most
  · rintro _ byteval c ⟨⟩ _ held
    obtain ⟨l, member, same, there⟩ := sparseMany_child made divided.nodup held
    refine ⟨.leaf l, there, divided.deep l member, fun entry pair => ?_, divided.header l member,
      same⟩
    obtain ⟨agree, byteHere⟩ := divided.agree l member entry pair
    exact ⟨agree, byteHere.trans same⟩

theorem splitLeaf_below (sound : Sound least maxSparse heap) (divided : Divided pos key leaves)
    (k : K) (v : V) :
    Below (splitLeaf heap pos key leaves).1 (splitLeaf heap pos key leaves).2 k v ↔
      ∃ l ∈ leaves, (k, v) ∈ RadixLeaf.pairs l := by
  obtain ⟨_, whole, made, _⟩ := allocLeaves_spec sound leaves
  have larger := alloc_extends whole (.inner (sparseMany pos key (allocLeaves heap leaves).2))
  have now : (splitLeaf heap pos key leaves).1.node (splitLeaf heap pos key leaves).2 =
      some (.inner (sparseMany pos key (allocLeaves heap leaves).2)) := alloc_node _ _
  rw [below_inner now]
  constructor
  · rintro ⟨c, held, below⟩
    obtain ⟨l, member, _, there⟩ := sparseMany_child made divided.nodup held
    exact ⟨l, member, (below_leaf (larger _ _ there) k v).mp below⟩
  · rintro ⟨l, member, pair⟩
    obtain ⟨c, held, there⟩ := sparseMany_child_of key made divided.nodup member
    refine ⟨c, ?_, (below_leaf (larger _ _ there) k v).mpr pair⟩
    change (sparseMany pos key _).child (RadixKey.byte k pos) = some c
    rw [(divided.agree l member (k, v) pair).2]
    exact held

theorem Slot.split {a : Addr} {p : Inner K} {k : K} {index : Nat}
    (slot : Slot least maxSparse heap a p k index) (divided : Divided pos key leaves)
    (inside : pos < RadixKey.size K) (some_ : least ≤ leaves.length)
    (most : leaves.length ≤ maxSparse) (deeper : p.byteNum < pos)
    (agree : Agree key p.key p.byteNum)
    (byteval : RadixKey.byte key p.byteNum = RadixKey.byte k p.byteNum)
    (old : ∀ c, p.child (RadixKey.byte k p.byteNum) = some c → ∃ l, heap.node c = some (.leaf l)) :
    Rewrite least maxSparse heap
      ((splitLeaf heap pos key leaves).1.store a index (some (splitLeaf heap pos key leaves).2))
      a none (· ∈ leaves) ∧
    ∀ (k' : K) (v' : V),
      Below ((splitLeaf heap pos key leaves).1.store a index
        (some (splitLeaf heap pos key leaves).2)) root k' v' ↔
      (Below heap root k' v' ∧ ¬ Sub heap (p.child (RadixKey.byte k p.byteNum)) k' v') ∨
        ∃ l ∈ leaves, (k', v') ∈ RadixLeaf.pairs l := by
  obtain ⟨before, middle, made, cases_⟩ := allocLeaves_spec slot.sound leaves
  obtain ⟨larger, whole⟩ := splitLeaf_sound slot.sound divided inside some_ most
  have now : (splitLeaf heap pos key leaves).1.node (splitLeaf heap pos key leaves).2 =
      some (.inner (sparseMany pos key (allocLeaves heap leaves).2)) := alloc_node _ _
  have fresh : heap.node (splitLeaf heap pos key leaves).2 = none := by
    have absent : (allocLeaves heap leaves).1.node (splitLeaf heap pos key leaves).2 = none :=
      alloc_fresh middle _
    by_contra present
    obtain ⟨node, held⟩ := Option.ne_none_iff_exists'.mp present
    rw [before _ _ held] at absent
    cases absent
  have room : FitsSlot (splitLeaf heap pos key leaves).1 p (RadixKey.byte k p.byteNum)
      (some (splitLeaf heap pos key leaves).2) := by
    rintro _ ⟨⟩
    exact ⟨_, now, agree, byteval, deeper⟩
  have graft := slot.graft larger whole room
  refine ⟨graft.rewrite_leaf old ?_ ?_ ?_, ?_⟩
  · rintro _ ⟨⟩
    refine Or.inr ⟨_, now, fresh, fun byteval d held => ?_⟩
    obtain ⟨l, _, _, there⟩ := sparseMany_child made divided.nodup held
    exact ⟨l, alloc_extends middle _ _ _ there⟩
  · intro x q there absent
    rcases alloc_cases there with old | ⟨linked, same⟩
    · rcases cases_ x _ old with older | ⟨_, _, same⟩
      · rw [absent] at older
        cases older
      · cases same
    · cases same
      exact ⟨by rw [linked]; rfl, rfl⟩
  · intro x l there
    rcases alloc_cases there with old | ⟨_, same⟩
    · rcases cases_ x _ old with older | ⟨l', member, same⟩
      · exact Or.inl older
      · cases same
        exact Or.inr member
    · cases same
  · intro k' v'
    rw [graft.below, ← splitLeaf_below slot.sound divided]
    simp [Sub]

end Split

/-! add_child. -/

section Swing

variable {g a : Addr} {gp p : Inner K} {k : K} {v : V} {index : Nat} {l : L}

/-- What holds when add_child builds its copy: the grandparent is reachable and points to
the node that is copied, which has no slot for `k`. -/
structure Swing (least maxSparse : Nat) (heap : Heap K L) (g a : Addr) (gp p : Inner K) (k : K)
    (v : V) (index : Nat)
    (l : L) : Prop where
  sound : Sound least maxSparse heap
  bound : maxSparse < maxIndirectSize
  above : heap.node g = some (.inner gp)
  reach : Path heap gp.key root g
  found : gp.layout.find (RadixKey.byte p.key gp.byteNum) = some index
  child : gp.child (RadixKey.byte p.key gp.byteNum) = some a
  here : heap.node a = some (.inner p)
  agree : Agree k p.key p.byteNum
  absent : p.getChild k = none
  one : OneKey l k v p.byteNum

namespace Swing

variable (swing : Swing least maxSparse heap g a gp p k v index l)
include swing

theorem kind : p.layout ≠ .full := by
  intro full
  have absent := swing.absent
  rw [Inner.getChild, full] at absent
  cases absent

theorem header (c : Addr) : (copyNode maxSparse p p.ptr k c).key = p.key ∧
    (copyNode maxSparse p p.ptr k c).byteNum = p.byteNum ∧
    (copyNode maxSparse p p.ptr k c).removed = false :=
  copyNode_header c swing.kind

theorem copy_child (c : Addr) {byteval : Nat} (below : byteval < 256) :
    (copyNode maxSparse p p.ptr k c).child byteval =
      if byteval = RadixKey.byte k p.byteNum then some c else p.child byteval :=
  copyNode_child (swing.sound.ok a p swing.here).1 rfl swing.absent c byteval below

theorem no_child : p.child (RadixKey.byte k p.byteNum) = none := Inner.child_of_none swing.absent

def mid (_ : Swing least maxSparse heap g a gp p k v index l) : Heap K L :=
  ((heap.alloc (.leaf l)).1.alloc
    (.inner (copyNode maxSparse p p.ptr k (heap.alloc (.leaf l)).2))).1

def new (_ : Swing least maxSparse heap g a gp p k v index l) : Addr :=
  ((heap.alloc (.leaf l)).1.alloc
    (.inner (copyNode maxSparse p p.ptr k (heap.alloc (.leaf l)).2))).2

theorem mid_larger : Extends heap swing.mid :=
  (alloc_extends swing.sound (.leaf l)).trans (alloc_extends (alloc_leaf_sound swing.sound l) _)

theorem now : swing.mid.node swing.new =
    some (.inner (copyNode maxSparse p p.ptr k (heap.alloc (.leaf l)).2)) := alloc_node _ _

theorem leaf_mid : swing.mid.node (heap.alloc (.leaf l)).2 = some (.leaf l) :=
  alloc_extends (alloc_leaf_sound swing.sound l) _ _ _ (alloc_node heap _)

theorem fresh : heap.node swing.new = none := by
  by_contra present
  have bound : heap.next + 1 < heap.next := swing.sound.allocated _ present
  exact Nat.lt_irrefl _ (Nat.lt_of_succ_lt bound)

theorem mid_cases {x : Addr} {node : Node K L} (held : swing.mid.node x = some node) :
    heap.node x = some node ∨ node = .leaf l ∨
      (x = swing.new ∧ node = .inner (copyNode maxSparse p p.ptr k (heap.alloc (.leaf l)).2)) := by
  rcases alloc_cases held with old | new
  · rcases alloc_cases old with older | ⟨_, same⟩
    · exact Or.inl older
    · exact Or.inr (Or.inl same)
  · exact Or.inr (Or.inr new)

theorem mid_sound : Sound least maxSparse swing.mid := by
  obtain ⟨key, byteNum, _⟩ := swing.header (heap.alloc (.leaf l)).2
  refine alloc_sound (alloc_leaf_sound swing.sound l) _ ?_ ?_
  · rintro _ ⟨⟩
    rw [byteNum]
    exact ⟨copyNode_ok swing.bound (swing.sound.ok a p swing.here).1 rfl swing.absent _,
      (swing.sound.ok a p swing.here).2⟩
  · rintro _ byteval c ⟨⟩ inside held
    rw [swing.copy_child _ inside] at held
    split at held
    · rename_i same
      cases held
      refine ⟨.leaf l, alloc_node heap _, ?_⟩
      rw [fits_header key byteNum]
      refine ⟨swing.one.deep, fun entry member => ?_, ?_⟩
      · rw [swing.one.pairs, List.mem_singleton] at member
        subst member
        exact ⟨swing.agree, same.symm⟩
      · rw [swing.one.key]
        exact ⟨swing.agree, same.symm⟩
    · obtain ⟨node, there, fits⟩ := swing.sound.edge a p byteval c swing.here inside held
      exact ⟨node, alloc_extends swing.sound _ _ _ there, (fits_header key byteNum byteval node).mpr
        fits⟩

theorem fits : Fits gp (RadixKey.byte p.key gp.byteNum) (.inner p : Node K L) := by
  obtain ⟨node, there, fits⟩ :=
    swing.sound.edge g gp _ a swing.above (RadixKey.byte_lt _ _) swing.child
  rw [swing.here] at there
  cases there
  exact fits

theorem graft :
    Graft least maxSparse heap swing.mid g gp (RadixKey.byte p.key gp.byteNum) index
      (some swing.new) := by
  refine ⟨swing.sound, swing.mid_larger, swing.mid_sound, swing.above, swing.reach,
    RadixKey.byte_lt _ _,
    swing.found, ?_⟩
  rintro _ ⟨⟩
  obtain ⟨key, byteNum, _⟩ := swing.header (heap.alloc (.leaf l)).2
  refine ⟨_, swing.now, ?_⟩
  simp only [Fits, key, byteNum]
  exact ⟨swing.fits.1, trivial, swing.fits.2.2⟩

theorem new_below (k' : K) (v' : V) :
    Below swing.mid swing.new k' v' ↔ Below heap a k' v' ∨ (k' = k ∧ v' = v) := by
  have byteNum := (swing.header (heap.alloc (.leaf l)).2).2.1
  rw [below_inner swing.now, byteNum, swing.copy_child _ (RadixKey.byte_lt _ _),
    below_inner swing.here]
  by_cases same : RadixKey.byte k' p.byteNum = RadixKey.byte k p.byteNum
  · rw [if_pos same, same, swing.no_child]
    simp only [Option.some.injEq, exists_eq_left', reduceCtorEq, false_and, exists_false, false_or,
      below_leaf swing.leaf_mid, swing.one.pairs, List.mem_singleton, Prod.mk.injEq]
  · rw [if_neg same]
    have other : k' ≠ k := fun equal => same (by rw [equal])
    simp only [other, false_and, or_false]
    constructor
    · rintro ⟨c, held, below⟩
      obtain ⟨node, there, _⟩ := swing.sound.edge a p _ c swing.here (RadixKey.byte_lt _ _) held
      exact ⟨c, held, (swing.mid_larger.below swing.sound (by rw [there]; simp) k' v').mp below⟩
    · rintro ⟨c, held, below⟩
      obtain ⟨node, there, _⟩ := swing.sound.edge a p _ c swing.here (RadixKey.byte_lt _ _) held
      exact ⟨c, held, (swing.mid_larger.below swing.sound (by rw [there]; simp) k' v').mpr below⟩

theorem bridge {x : Addr} {q : Inner K} (there : heap.node x = some (.inner q)) (other : x ≠ a) :
    Path swing.mid q.key swing.new x ↔ Path heap q.key a x := by
  have byteNum := (swing.header (heap.alloc (.leaf l)).2).2.1
  constructor
  · intro path
    cases path with
    | refl =>
        rw [swing.fresh] at there
        cases there
    | @step _ d _ r node edge rest =>
        rw [swing.now] at node
        cases node
        rw [byteNum, swing.copy_child _ (RadixKey.byte_lt _ _)] at edge
        split at edge
        · cases edge
          have leaf := swing.leaf_mid
          have same := rest.leaf_end leaf
          subst same
          rw [swing.mid_larger _ _ there] at leaf
          cases leaf
        · obtain ⟨node, present, _⟩ :=
            swing.sound.edge a p _ d swing.here (RadixKey.byte_lt _ _) edge
          exact .step swing.here edge
            (swing.mid_larger.path_back swing.sound (by rw [present]; simp) rest)
  · intro path
    cases path with
    | refl => exact absurd rfl other
    | @step _ d _ r node edge rest =>
        rw [swing.here] at node
        cases node
        refine .step swing.now ?_ (swing.mid_larger.path rest)
        have apart : RadixKey.byte q.key p.byteNum ≠ RadixKey.byte k p.byteNum := by
          intro same
          rw [same, swing.no_child] at edge
          cases edge
        rw [byteNum, swing.copy_child _ (RadixKey.byte_lt _ _), if_neg apart]
        exact edge

-- The old node and its copy have one depth, so the search cannot pass both.
theorem lost : ¬ Path (swing.mid.store g index (some swing.new)) p.key root a := by
  intro path
  obtain ⟨key, byteNum, _⟩ := swing.header (heap.alloc (.leaf l)).2
  have apart : a ≠ swing.new := by
    intro same
    have fresh := swing.fresh
    rw [← same, swing.here] at fresh
    cases fresh
  have other : a ≠ g := by
    intro same
    have here := swing.here
    rw [same, swing.above] at here
    cases here
    exact Nat.lt_irrefl _ swing.fits.2.2
  have below : swing.new ≠ g := by
    intro same
    have fresh := swing.fresh
    rw [same, swing.above] at fresh
    cases fresh
  have old : (swing.mid.store g index (some swing.new)).node a = some (.inner p) := by
    rw [store_node swing.graft.here_mid, if_neg other]
    exact swing.mid_larger _ _ swing.here
  have copy : (swing.mid.store g index (some swing.new)).node swing.new =
      some (.inner (copyNode maxSparse p p.ptr k (heap.alloc (.leaf l)).2)) := by
    rw [store_node swing.graft.here_mid, if_neg below]
    exact swing.now
  have reached := swing.graft.child_path rfl swing.now
  rw [key] at reached
  rcases path.linear reached with down | up
  · have := down.deeper swing.graft.after_sound apart old copy
    omega
  · have := up.deeper swing.graft.after_sound apart.symm copy old
    omega

theorem rewrite :
    Rewrite least maxSparse heap (swingCopy maxSparse heap g index p p.ptr k l) g (some a)
      (· = l) := by
  refine swing.graft.rewrite ?_ ?_ ?_ ?_
  · intro x q there other
    have := swing.bridge there fun same => other (by rw [same])
    simpa [swing.child] using this
  · rintro x q ⟨⟩ there
    rw [swing.here] at there
    cases there
    exact swing.lost
  · intro x q held absent
    rcases swing.mid_cases held with old | same | ⟨linked, same⟩
    · rw [absent] at old
      cases old
    · cases same
    · cases same
      exact ⟨by rw [linked], (swing.header _).2.2⟩
  · intro x l' held
    rcases swing.mid_cases held with old | same | ⟨_, same⟩
    · exact Or.inl old
    · cases same
      exact Or.inr rfl
    · cases same

theorem inserted : Inserted heap (swingCopy maxSparse heap g index p p.ptr k l) k v := by
  refine swing.graft.inserts fun k' v' => ?_
  have := swing.new_below k' v'
  simpa [Sub, swing.child] using this

end Swing

end Swing

end SetBench.Art
