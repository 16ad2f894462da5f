import SetBench.ArtRewrite
import SetBench.KeyVals

/-! The place where a search stopped, in a tree that has not changed since: what the
calls of every variant of the tree do there, for any kind of leaf. -/
namespace SetBench.Art

open Radix KeyVals

variable {K V L : Type} [RadixKey K]

-- `cptr->load() == c && !p->removed.load()`
def unchanged (heap : Heap K L) (location : Location) : Bool :=
  match heap.node location.p, location.cptr with
  | some (.inner node), some index => !node.removed && node.ptr.getD index none == location.c
  | _, _ => false

variable [RadixLeaf K V L] {least maxSparse : Nat} {heap : Heap K L} {k : K} {v : V}
    {location : Location} {p : Inner K}

/-- The location of a search, still true of the heap: `p` is reachable and its slot for
`k` holds what the search loaded. -/
structure Placed (least maxSparse : Nat) (heap : Heap K L) (k : K) (location : Location)
    (p : Inner K) : Prop where
  sound : Sound least maxSparse heap
  seen : Seen heap k location p
  reach : Path heap p.key root location.p
  child : location.c = p.child (RadixKey.byte k p.byteNum)

theorem Located.placed (sound : Sound least maxSparse heap) (located : Located heap k location p) :
    Placed least maxSparse heap k location p :=
  ⟨sound, located.toSeen, located.reach sound, located.child⟩

namespace Placed

variable (placed : Placed least maxSparse heap k location p)
include placed

theorem slot {index : Nat} (cptr : location.cptr = some index) :
    Slot least maxSparse heap location.p p k index :=
  ⟨placed.sound, placed.seen.here, placed.reach,
    placed.seen.agree, by rw [← placed.seen.cptr, cptr]⟩

theorem edge {c : Addr} (held : location.c = some c) :
    p.child (RadixKey.byte k p.byteNum) = some c := by
  rw [← placed.child, held]

theorem fits {c : Addr} {node : Node K L} (held : location.c = some c)
    (there : heap.node c = some node) :
    Fits p (RadixKey.byte k p.byteNum) node := by
  obtain ⟨other, present, fits⟩ :=
    placed.sound.edge location.p p _ c placed.seen.here (RadixKey.byte_lt _ _)
    (placed.edge held)
  rw [there] at present
  cases present
  exact fits

-- A search without interference finds its slot unchanged.
theorem unchanged {index : Nat} (live : p.removed = false) (cptr : location.cptr = some index) :
    unchanged heap location = true := by
  have found : p.layout.find (RadixKey.byte k p.byteNum) = some index :=
    placed.seen.cptr.symm.trans cptr
  have content := Inner.child_of_find found
  rw [← placed.child] at content
  simp only [Art.unchanged, placed.seen.here, cptr, live, content]
  simp

theorem one_fits {l : L} (one : OneKey l k v p.byteNum) :
    Fits p (RadixKey.byte k p.byteNum) (.leaf l : Node K L) := by
  refine ⟨one.deep, fun entry member => ?_, by rw [one.key]; exact ⟨placed.seen.agree, rfl⟩⟩
  rw [one.pairs, List.mem_singleton] at member
  rw [member]
  exact ⟨placed.seen.agree, rfl⟩

theorem part {index : Nat} (cptr : location.cptr = some index) (k' : K) (v' : V)
    (sub : Sub heap (p.child (RadixKey.byte k p.byteNum)) k' v') : Below heap root k' v' := by
  have whole : FitsSlot heap p (RadixKey.byte k p.byteNum) (p.child (RadixKey.byte k p.byteNum)) :=
    fun c held => placed.sound.edge _ p _ c placed.seen.here (RadixKey.byte_lt _ _) held
  exact ((placed.slot cptr).graft (fun _ _ here => here) placed.sound whole).part k' v' sub

-- The store replaces the pairs below the slot by those of `New`.
theorem inserted_of {index : Nat} (cptr : location.cptr = some index) {after : Heap K L}
    {New : K → V → Prop}
    (below : ∀ k' v', Below after root k' v' ↔
      (Below heap root k' v' ∧ ¬ Sub heap (p.child (RadixKey.byte k p.byteNum)) k' v') ∨ New k' v')
    (new : ∀ k' v', New k' v' ↔ Sub heap (p.child (RadixKey.byte k p.byteNum)) k' v' ∨
      (k' = k ∧ v' = v)) :
    Inserted heap after k v := by
  intro k' v'
  have part := placed.part cptr k' v'
  rw [below, new]
  clear below new
  tauto

theorem deleted_of {index : Nat} (cptr : location.cptr = some index) {after : Heap K L}
    {New : K → V → Prop}
    (below : ∀ k' v', Below after root k' v' ↔
      (Below heap root k' v' ∧ ¬ Sub heap (p.child (RadixKey.byte k p.byteNum)) k' v') ∨ New k' v')
    (new : ∀ k' v', New k' v' ↔ Sub heap (p.child (RadixKey.byte k p.byteNum)) k' v' ∧ k' ≠ k) :
    Deleted heap after k := by
  intro k' v'
  have part := placed.part cptr k' v'
  rw [below, new]
  by_cases same : k' = k
  · subst same
    rw [(placed.slot cptr).below]
    clear below new
    tauto
  · clear below new
    tauto

theorem insert_null {index : Nat} {l : L} (cptr : location.cptr = some index)
    (empty : location.c = none) (one : OneKey l k v p.byteNum) :
    Rewrite least maxSparse heap
      ((heap.alloc (.leaf l)).1.store location.p index (some (heap.alloc (.leaf l)).2))
      location.p none (· = l) ∧
    Inserted heap ((heap.alloc (.leaf l)).1.store location.p index (some (heap.alloc (.leaf l)).2))
      k v := by
  have none_ : p.child (RadixKey.byte k p.byteNum) = none := by rw [← placed.child, empty]
  obtain ⟨rewrite, below⟩ := (placed.slot cptr).put_leaf (placed.one_fits one) (by simp [none_])
  refine ⟨rewrite, fun k' v' => ?_⟩
  rw [below, none_, one.pairs]
  simp [Sub]

section Leaf

variable {index : Nat} {c : Addr} {l : L} (held : location.c = some c)
    (there : heap.node c = some (.leaf l))
include held there

-- A leaf in the slot of `k` agrees with `k` beyond the byte of its parent.
theorem leaf_agree : Agree k (RadixLeaf.key l) (p.byteNum + 1) := by
  obtain ⟨_, _, agree, byteval⟩ := placed.fits held there
  exact (placed.seen.agree.trans agree.symm).succ byteval.symm

theorem leaf_pos :
    location.bytePos = matchBytes k (RadixLeaf.key l) (p.byteNum + 1) (RadixLeaf.byteNum l) := by
  obtain ⟨node, present, pos, _⟩ := placed.seen.stop c held
  rw [there] at present
  cases present
  exact pos

theorem leaf_deep : p.byteNum < location.bytePos := by
  rw [placed.leaf_pos held there]
  exact (matchBytes_le k (RadixLeaf.key l) (placed.fits held there).1).1

theorem only_leaf {d : Addr} (child : p.child (RadixKey.byte k p.byteNum) = some d) :
    ∃ l, heap.node d = some (.leaf l) := by
  rw [placed.edge held] at child
  cases child
  exact ⟨l, there⟩

theorem sub_leaf (k' : K) (v' : V) :
    Sub heap (p.child (RadixKey.byte k p.byteNum)) k' v' ↔ (k', v') ∈ RadixLeaf.pairs l := by
  rw [placed.edge held]
  simpa [Sub] using below_leaf there k' v'

-- The pairs of the leaf and those of `k` belong in the slot.
theorem pair_fits (entry : K × V) (source : entry ∈ RadixLeaf.pairs l ∨ entry.1 = k) :
    Agree entry.1 p.key p.byteNum ∧ RadixKey.byte entry.1 p.byteNum =
      RadixKey.byte k p.byteNum := by
  rcases source with old | same
  · exact (placed.fits held there).2.1 entry old
  · rw [same]
    exact ⟨placed.seen.agree, rfl⟩

theorem swap_fits {l' : L} (deep : p.byteNum < RadixLeaf.byteNum l')
    (header : RadixLeaf.key l' = RadixLeaf.key l ∨
      ∃ v', (RadixLeaf.key l', v') ∈ RadixLeaf.pairs l')
    (source : ∀ entry ∈ RadixLeaf.pairs l', entry ∈ RadixLeaf.pairs l ∨ entry.1 = k) :
    Fits p (RadixKey.byte k p.byteNum) (.leaf l' : Node K L) := by
  refine ⟨deep, fun entry member => placed.pair_fits held there entry (source entry member), ?_⟩
  rcases header with same | ⟨v', member⟩
  · rw [same]
    exact (placed.fits held there).2.2
  · exact placed.pair_fits held there _ (source _ member)

/-- A new leaf in the place of the old one, with one pair more. -/
theorem swap_insert (l' : L) (cptr : location.cptr = some index)
    (deep : p.byteNum < RadixLeaf.byteNum l')
    (header : RadixLeaf.key l' = RadixLeaf.key l ∨
      ∃ v', (RadixLeaf.key l', v') ∈ RadixLeaf.pairs l')
    (pairs : ∀ entry, entry ∈ RadixLeaf.pairs l' ↔ entry ∈ RadixLeaf.pairs l ∨ entry = (k, v)) :
    Rewrite least maxSparse heap
      ((heap.alloc (.leaf l')).1.store location.p index (some (heap.alloc (.leaf l')).2))
      location.p none (· = l') ∧
    Inserted heap ((heap.alloc (.leaf l')).1.store location.p index
      (some (heap.alloc (.leaf l')).2)) k v := by
  have source : ∀ entry ∈ RadixLeaf.pairs l', entry ∈ RadixLeaf.pairs l ∨ entry.1 = k :=
    fun entry member =>
    ((pairs entry).mp member).imp id fun same => by rw [same]
  obtain ⟨rewrite, below⟩ :=
    (placed.slot cptr).put_leaf (placed.swap_fits held there deep header source)
    fun _ => placed.only_leaf held there
  refine ⟨rewrite, placed.inserted_of cptr below fun k' v' => ?_⟩
  rw [placed.sub_leaf held there, pairs, Prod.mk.injEq]

/-- A new leaf in the place of the old one, without `k`. -/
theorem swap_delete (l' : L) (cptr : location.cptr = some index)
    (deep : p.byteNum < RadixLeaf.byteNum l')
    (header : RadixLeaf.key l' = RadixLeaf.key l ∨
      ∃ v', (RadixLeaf.key l', v') ∈ RadixLeaf.pairs l')
    (pairs : ∀ entry, entry ∈ RadixLeaf.pairs l' ↔ entry ∈ RadixLeaf.pairs l ∧ entry.1 ≠ k) :
    Rewrite least maxSparse heap
      ((heap.alloc (.leaf l')).1.store location.p index (some (heap.alloc (.leaf l')).2))
      location.p none (· = l') ∧
    Deleted heap ((heap.alloc (.leaf l')).1.store location.p index (some (heap.alloc (.leaf l')).2))
      k := by
  have source : ∀ entry ∈ RadixLeaf.pairs l', entry ∈ RadixLeaf.pairs l ∨ entry.1 = k :=
    fun entry member =>
    Or.inl ((pairs entry).mp member).1
  obtain ⟨rewrite, below⟩ :=
    (placed.slot cptr).put_leaf (placed.swap_fits held there deep header source)
    fun _ => placed.only_leaf held there
  refine ⟨rewrite, placed.deleted_of cptr below fun k' v' => ?_⟩
  rw [placed.sub_leaf held there, pairs]

/-- A null in the place of a leaf that has no other key. -/
theorem clear_delete (cptr : location.cptr = some index)
    (only : ∀ entry ∈ RadixLeaf.pairs l, entry.1 = k) :
    Rewrite least maxSparse heap (heap.store location.p index none) location.p
      none (fun _ => False) ∧
    Deleted heap (heap.store location.p index none) k := by
  obtain ⟨rewrite, below⟩ := (placed.slot cptr).clear fun _ => placed.only_leaf held there
  have empty (k' : K) (v' : V) : Below (heap.store location.p index none) root k' v' ↔
      (Below heap root k' v' ∧ ¬ Sub heap (p.child (RadixKey.byte k p.byteNum)) k' v') ∨ False := by
    rw [below, or_false]
  refine ⟨rewrite, placed.deleted_of cptr empty fun k' v' => ?_⟩
  rw [placed.sub_leaf held there]
  constructor
  · exact False.elim
  · rintro ⟨member, other⟩
    exact other (only _ member)

section Split

variable {key : K} {leaves : List L} (divided : Divided location.bytePos key leaves)
  (inside : location.bytePos < RadixKey.size K) (some_ : least ≤ leaves.length)
  (most : leaves.length ≤ maxSparse)
include divided inside some_ most

theorem split_insert (cptr : location.cptr = some index)
    (header : ∃ l ∈ leaves, ∃ v', (key, v') ∈ RadixLeaf.pairs l)
    (pairs : ∀ entry, (∃ l ∈ leaves, entry ∈ RadixLeaf.pairs l) ↔ entry ∈ RadixLeaf.pairs l ∨
      entry = (k, v)) :
    Rewrite least maxSparse heap ((splitLeaf heap location.bytePos key leaves).1.store location.p
      index
      (some (splitLeaf heap location.bytePos key leaves).2)) location.p none (· ∈ leaves) ∧
    Inserted heap ((splitLeaf heap location.bytePos key leaves).1.store location.p index
      (some (splitLeaf heap location.bytePos key leaves).2)) k v := by
  obtain ⟨l', member, v', pair⟩ := header
  have source : (key, v') ∈ RadixLeaf.pairs l ∨ key = k :=
    ((pairs (key, v')).mp ⟨l', member, pair⟩).imp id fun same => congrArg Prod.fst same
  have belongs := placed.pair_fits held there (key, v') source
  obtain ⟨rewrite, below⟩ :=
    (placed.slot cptr).split divided inside some_ most (placed.leaf_deep held there)
    belongs.1 belongs.2 fun _ => placed.only_leaf held there
  refine ⟨rewrite, placed.inserted_of cptr below fun k' v' => ?_⟩
  rw [placed.sub_leaf held there, pairs, Prod.mk.injEq]

theorem split_delete (cptr : location.cptr = some index)
    (header : ∃ l ∈ leaves, ∃ v', (key, v') ∈ RadixLeaf.pairs l)
    (pairs : ∀ entry, (∃ l ∈ leaves, entry ∈ RadixLeaf.pairs l) ↔ entry ∈ RadixLeaf.pairs l ∧
      entry.1 ≠ k) :
    Rewrite least maxSparse heap ((splitLeaf heap location.bytePos key leaves).1.store location.p
      index
      (some (splitLeaf heap location.bytePos key leaves).2)) location.p none (· ∈ leaves) ∧
    Deleted heap ((splitLeaf heap location.bytePos key leaves).1.store location.p index
      (some (splitLeaf heap location.bytePos key leaves).2)) k := by
  obtain ⟨l', member, v', pair⟩ := header
  have belongs := placed.pair_fits held there (key, v')
    (Or.inl ((pairs (key, v')).mp ⟨l', member, pair⟩).1)
  obtain ⟨rewrite, below⟩ :=
    (placed.slot cptr).split divided inside some_ most (placed.leaf_deep held there)
    belongs.1 belongs.2 fun _ => placed.only_leaf held there
  refine ⟨rewrite, placed.deleted_of cptr below fun k' v' => ?_⟩
  rw [placed.sub_leaf held there, pairs]

end Split

end Leaf

end Placed

/-! The leaves that a split builds from the runs of an array. -/

section Runs

variable {build : (K × V) × List (K × V) → L} {bytePos : Nat} {start : K × V} {rest : List (K × V)}

theorem runs_divided (key : ∀ group, RadixLeaf.key (build group) = group.1.1)
    (pairs : ∀ group, RadixLeaf.pairs (build group) = whole group) (sorted : Sorted (start :: rest))
    (agree : ∀ kv ∈ start :: rest, Agree kv.1 start.1 bytePos)
    (deep : ∀ group ∈ splitLoop bytePos start [] rest, bytePos < RadixLeaf.byteNum (build group)) :
    Divided bytePos start.1 ((splitLoop bytePos start [] rest).map build) := by
  refine ⟨?_, ?_, ?_, ?_⟩
  · have increasing : ((splitLoop bytePos start [] rest).map fun group =>
        RadixKey.byte group.1.1 bytePos).Pairwise (· < ·) := splitLoop_increasing sorted agree
    rw [List.map_map, show (fun l => RadixKey.byte (RadixLeaf.key l) bytePos) ∘ build =
      fun group => RadixKey.byte group.1.1 bytePos from funext fun group => by
        rw [Function.comp, key]]
    exact increasing.imp ne_of_lt
  · intro l member
    obtain ⟨group, held, rfl⟩ := List.mem_map.mp member
    exact deep group held
  · intro l member entry pair
    obtain ⟨group, held, rfl⟩ := List.mem_map.mp member
    obtain ⟨_, _, part⟩ := run_agree sorted agree held
    rw [pairs] at pair
    rw [key]
    exact ⟨agree entry (part entry pair), splitLoop_bytes (by simp) held entry pair⟩
  · intro l member
    obtain ⟨group, held, rfl⟩ := List.mem_map.mp member
    rw [key]
    exact agree group.1 ((splitLoop_sublist held).subset List.mem_cons_self)

theorem runs_mem (build : (K × V) × List (K × V) → L)
    (pairs : ∀ group, RadixLeaf.pairs (build group) = whole group) (bytePos : Nat) (start : K × V)
    (rest : List (K × V)) (entry : K × V) :
    (∃ l ∈ (splitLoop bytePos start [] rest).map build, entry ∈ RadixLeaf.pairs l) ↔
    entry ∈ start :: rest := by
  have flat := splitLoop_flatten bytePos start [] rest
  rw [List.nil_append] at flat
  rw [← flat, List.mem_flatten]
  constructor
  · rintro ⟨l, member, pair⟩
    obtain ⟨group, held, rfl⟩ := List.mem_map.mp member
    rw [pairs] at pair
    exact ⟨whole group, List.mem_map_of_mem held, pair⟩
  · rintro ⟨run, member, pair⟩
    obtain ⟨group, held, rfl⟩ := List.mem_map.mp member
    exact ⟨build group, List.mem_map_of_mem held, by rw [pairs]; exact pair⟩

end Runs

/-! add_child at the place of a search. -/

section AddChild

variable {g : Addr} {gp : Inner K} (sound : Sound least maxSparse heap)
    (located : Located heap k location p)
  (cptr : location.cptr = none)
include sound located cptr

theorem Located.has_parent : ∃ g, location.gp = some g := by
  cases parent : location.gp with
  | some g => exact ⟨g, rfl⟩
  | none =>
      -- The root is full, so it has a slot for every key.
      obtain ⟨q, there, full, _⟩ := sound.top
      have here := located.here
      rw [located.orphan parent, there] at here
      cases here
      have missing := located.cptr
      rw [cptr, Inner.getChild, full] at missing
      cases missing

theorem Located.swing (parent : location.gp = some g) (bound : maxSparse < maxIndirectSize)
    {l : L} (one : OneKey l k v p.byteNum) :
    ∃ gp index, heap.node g = some (.inner gp) ∧ Path heap gp.key root g ∧
    gp.getChild p.key = some index ∧ gp.ptr.getD index none = some location.p ∧ location.p ≠ root ∧
    Swing least maxSparse (heap.setRemoved location.p) g location.p gp { p with removed := true } k
      v index l := by
  obtain ⟨gp, above, path, child⟩ := located.above g parent
  obtain ⟨gp', above', index, found⟩ := located.parent g parent
  rw [above] at above'
  cases above'
  obtain ⟨node, present, fits⟩ := sound.edge g gp _ location.p above (RadixKey.byte_lt _ _) child
  rw [located.here] at present
  cases present
  have apart : g ≠ location.p := by
    intro same
    have here := located.here
    rw [← same, above] at here
    cases here
    exact Nat.lt_irrefl _ fits.2.2
  have notRoot : location.p ≠ root := by
    intro same
    obtain ⟨q, there, _, zero, _⟩ := sound.top
    have here := located.here
    rw [same, there] at here
    cases here
    exact absurd fits.2.2 (by omega)
  have belongs : Belongs heap g gp.key := by
    simp only [Belongs, above]
    exact Agree.refl _ _
  have reach := path.follow sound belongs
  have content := Inner.child_of_find found
  rw [child] at content
  refine ⟨gp, index, above, reach, found, content.symm, notRoot, ?_⟩
  refine ⟨setRemoved_sound sound located.here notRoot, bound, ?_, ?_, found, child, ?_,
    located.agree, ?_, one⟩
  · rw [setRemoved_node located.here, if_neg apart]
    exact above
  · exact (setRemoved_path located.here _ _ _).mpr reach
  · rw [setRemoved_node located.here, if_pos rfl]
  · exact located.cptr.symm.trans cptr

/-- add_child succeeds, and its effect is a rewrite of the heap in which `p` is marked. -/
theorem Located.addChild (parent : location.gp = some g) (bound : maxSparse < maxIndirectSize)
    {l : L} (one : OneKey l k v p.byteNum)
    (live : ∀ gp, heap.node g = some (.inner gp) → Path heap gp.key root g → gp.removed = false) :
    ∃ after, Art.addChild maxSparse heap g location.p k l = some after ∧
      Rewrite least maxSparse (heap.setRemoved location.p) after g (some location.p) (· = l) ∧
      Inserted heap after k v ∧ location.p ≠ root := by
  obtain ⟨gp, index, above, reach, found, held, notRoot, swing⟩ :=
    located.swing sound cptr parent bound one
  have absent : p.getChild k = none := located.cptr.symm.trans cptr
  have kind : p.layout ≠ .full := swing.kind
  have copy (c : Addr) : copyNode maxSparse { p with removed := true } p.ptr k c =
    copyNode maxSparse p p.ptr k c :=
    copyNode_flag kind true c
  refine ⟨swingCopy maxSparse (heap.setRemoved location.p) g index { p with removed := true } p.ptr
    k l, ?_,
    swing.rewrite, ?_, notRoot⟩
  · simp only [Art.addChild, above, located.here, found, live gp above reach, held, absent,
      swingCopy, copy]
    simp
  · intro k' v'
    rw [← setRemoved_below located.here]
    exact swing.inserted k' v'

end AddChild

/-- The abstract map after the two effects. -/
theorem Inserted.holds {after : Heap K L} {map : K → Option V} (inserted : Inserted heap after k v)
    (absent : map k = none) (held : ∀ k v, Below heap root k v ↔ map k = some v) (k' : K) (v' : V) :
    Below after root k' v' ↔ Function.update map k (some v) k' = some v' := by
  rw [inserted, held]
  by_cases same : k' = k
  · subst same
    simp [absent, eq_comm]
  · simp [same]

theorem Deleted.holds {after : Heap K L} {map : K → Option V} (deleted : Deleted heap after k)
    (held : ∀ k v, Below heap root k v ↔ map k = some v) (k' : K) (v' : V) :
    Below after root k' v' ↔ Function.update map k none k' = some v' := by
  rw [deleted, held]
  by_cases same : k' = k
  · subst same
    simp
  · simp [same]

end SetBench.Art
