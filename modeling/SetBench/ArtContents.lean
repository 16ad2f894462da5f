import SetBench.ArtMap

/-! What a reader of the memory sees of the tree: the leaves that can be reached through
any pointers, with no reference to the search. On a sound heap the two views agree. -/
namespace SetBench.Art

open Radix KeyVals MapSpec

variable {K V L : Type} [RadixKey K]

inductive Reach (heap : Heap K L) : Addr → Addr → Prop where
  | refl (a : Addr) : Reach heap a a
  | step {a c b : Addr} {p : Inner K} {byteval : Nat} (here : heap.node a = some (.inner p))
    (inside : byteval < 256)
      (child : p.child byteval = some c) (rest : Reach heap c b) : Reach heap a b

theorem Path.reach {heap : Heap K L} {k : K} {a b : Addr} (path : Path heap k a b) :
    Reach heap a b := by
  induction path with
  | refl => exact .refl _
  | step here child _ ih => exact .step here (RadixKey.byte_lt _ _) child ih

variable [RadixLeaf K V L] {least maxSparse : Nat}

-- Whatever pointers lead to a leaf, they are those of the bytes of its keys.
theorem Reach.path {heap : Heap K L} (sound : Sound least maxSparse heap) {a b : Addr} {l : L}
    {k : K} {v : V} (reach : Reach heap a b) (leaf : heap.node b = some (.leaf l))
    (member : (k, v) ∈ RadixLeaf.pairs l) :
    Path heap k a b := by
  induction reach with
  | refl => exact .refl _
  | @step a c b p byteval here inside child rest ih =>
      have tail := ih leaf
      obtain ⟨node, there, fits⟩ := sound.edge a p byteval c here inside child
      have same : RadixKey.byte k p.byteNum = byteval := by
        cases node with
        | leaf m =>
            have equal := tail.leaf_end there
            subst equal
            rw [there] at leaf
            cases leaf
            exact (fits.2.1 (k, v) member).2
        | inner q =>
            have apart : c ≠ b := by
              rintro rfl
              rw [there] at leaf
              cases leaf
            have belongs : Belongs heap b k := by
              simp only [Belongs, leaf]
              exact ⟨v, member⟩
            exact ((tail.belongs sound apart there belongs).1 p.byteNum fits.2.2).trans fits.2.1
      rw [← same] at child
      exact .step here child tail

section Contents

variable {heap : Heap K (Leaf K V)} {map : K → Option V}

/-- The contents of the reachable leaves are the abstract map, with no key twice, and the
search finds each of them. -/
structure Represents (heap : Heap K (Leaf K V)) (map : K → Option V) : Prop where
  stored : ∀ k v, (∃ a l, Reach heap root a ∧ heap.node a = some (.leaf l) ∧ (k, v) ∈ l.keyVals) ↔
    map k = some v
  once : ∀ k v v' a b l m, Reach heap root a → heap.node a = some (.leaf l) → (k, v) ∈ l.keyVals →
    Reach heap root b → heap.node b = some (.leaf m) → (k, v') ∈ m.keyVals → a = b
  nodup : ∀ a l, heap.node a = some (.leaf l) → (l.keyVals.map Prod.fst).Nodup
  found : ∀ k v, map k = some v → ∃ location c l, findLocation heap k = some location ∧
    location.c = some c ∧ heap.node c = some (.leaf l) ∧ (k, v) ∈ l.keyVals ∧ find l.keyVals k =
      some v

omit [RadixLeaf K V L] in
theorem Holds.represents (holds : Holds heap map) : Represents heap map := by
  obtain ⟨tree, held⟩ := holds
  refine ⟨?_, ?_, ?_, ?_⟩
  · intro k v
    rw [← held]
    constructor
    · rintro ⟨a, l, reach, leaf, member⟩
      exact ⟨a, l, reach.path tree.sound leaf member, leaf, member⟩
    · rintro ⟨a, l, path, leaf, member⟩
      exact ⟨a, l, path.reach, leaf, member⟩
  · intro k v v' a b l m first leaf member second leaf' member'
    rcases (first.path tree.sound leaf member).linear (second.path tree.sound leaf' member')
      with down | up
    · exact down.leaf_end leaf
    · exact (up.leaf_end leaf').symm
  · intro a l leaf
    refine List.pairwise_map.mpr ((tree.leaves a l leaf).sorted.imp ?_)
    exact fun less => less.ne
  · intro k v value
    obtain ⟨location, p, found, located, current, _⟩ := tree.current k
    obtain ⟨c, l, child, leaf, member⟩ :=
      (current.seen.below tree.sound current.reach current.child v).mp
      ((held k v).mpr value)
    exact ⟨location, c, l, found, child, leaf, member,
      (find_some_iff (tree.leaves c l leaf).sorted k v).mpr member⟩

/-- The representation invariant, in the words of the header fields. -/
structure Representation (heap : Heap K (Leaf K V)) : Prop where
  shared : ∀ a p b l kv, heap.node a = some (.inner p) → Reach heap a b → heap.node b =
    some (.leaf l) →
    kv ∈ l.keyVals → Agree kv.1 p.key p.byteNum
  slotByte : ∀ a p byteval c b l kv, heap.node a = some (.inner p) → byteval < 256 →
    p.child byteval = some c →
    Reach heap c b → heap.node b = some (.leaf l) → kv ∈ l.keyVals → RadixKey.byte kv.1 p.byteNum =
      byteval
  distinct : ∀ a p, heap.node a = some (.inner p) → (∀ keys, p.layout = .sparse keys → keys.Nodup) ∧
    ∀ one other index, p.layout.find one = some index → p.layout.find other = some index →
      one = other
  deeper : ∀ a p byteval c q, heap.node a = some (.inner p) → byteval < 256 → p.child byteval =
    some c →
    heap.node c = some (.inner q) → p.byteNum < q.byteNum
  leaf : ∀ a l, heap.node a = some (.leaf l) → l.keyVals ≠ [] ∧
    l.keyVals.Pairwise (fun one other => one.1 < other.1) ∧
    ∀ kv ∈ l.keyVals, Agree kv.1 l.key l.byteNum
  depth : ∀ a l, heap.node a = some (.leaf l) → (l.size = 1 → l.byteNum = RadixKey.size K) ∧
    (l.size ≠ 1 → (∀ one ∈ l.keyVals, ∀ other ∈ l.keyVals, Agree one.1 other.1 l.byteNum) ∧
      ∃ one ∈ l.keyVals, ∃ other ∈ l.keyVals, RadixKey.byte one.1 l.byteNum ≠ RadixKey.byte other.1
        l.byteNum)
  capacity : ∀ a l, heap.node a = some (.leaf l) → (l.big = false → 1 ≤ l.size ∧ l.size ≤ 2) ∧
    (l.big = true → 3 ≤ l.size ∧ l.size ≤ 14)
  sparse : ∀ a p keys, heap.node a = some (.inner p) → p.layout = .sparse keys →
    keys.length = p.size ∧ p.ptr.length = p.size ∧ 2 ≤ p.size ∧ p.size ≤ 16
  indirect : ∀ a p bitmap, heap.node a = some (.inner p) → p.layout = .indirect bitmap →
    p.size = Bitmap.totalPopcount bitmap ∧ p.ptr.length = p.size ∧ 17 ≤ p.size ∧ p.size ≤ 64
  top : ∃ p, heap.node root = some (.inner p) ∧ p.layout = .full ∧ p.byteNum = 0
  parent : ∀ k location, findLocation heap k = some location → location.cptr = none →
    ∃ g p, location.gp = some g ∧ heap.node location.p = some (.inner p) ∧ p.layout ≠ .full
  back : ∀ g gp byteval a p, heap.node g = some (.inner gp) → byteval < 256 → gp.child byteval =
    some a →
    heap.node a = some (.inner p) → ∃ index, gp.getChild p.key = some index ∧ gp.ptr[index]? =
      some (some a)

omit [RadixLeaf K V L] in
theorem Tree.reach_slot (tree : Tree heap) {a c b : Addr} {p : Inner K} {byteval : Nat}
    {l : Leaf K V} {kv : K × V} (here : heap.node a = some (.inner p)) (inside : byteval < 256)
    (child : p.child byteval = some c) (reach : Reach heap c b)
    (leaf : heap.node b = some (.leaf l)) (member : kv ∈ l.keyVals) :
    Agree kv.1 p.key p.byteNum ∧ RadixKey.byte kv.1 p.byteNum = byteval := by
  have path := reach.path tree.sound leaf (k := kv.1) (v := kv.2) member
  have fits : FitsSlot heap p byteval (some c) := by
    rintro _ ⟨⟩
    exact tree.sound.edge a p byteval c here inside child
  exact sub_fits tree.sound fits ⟨c, rfl, b, l, path, leaf, member⟩

omit [RadixLeaf K V L] in
theorem Tree.representation (tree : Tree heap) : Representation heap where
  shared := by
    intro a p b l kv here reach leaf member
    cases reach with
    | refl =>
        rw [here] at leaf
        cases leaf
    | step there inside child rest =>
        rw [here] at there
        cases there
        exact (tree.reach_slot here inside child rest leaf member).1
  slotByte := fun a p byteval c b l kv here inside child reach leaf member =>
    (tree.reach_slot here inside child reach leaf member).2
  distinct := by
    intro a p here
    have ok := (tree.sound.ok a p here).1
    refine ⟨fun keys layout => ?_, fun _ _ _ first second => find_injective first second⟩
    rw [Inner.Ok, layout] at ok
    exact ok.2.2.1
  deeper := by
    intro a p byteval c q here inside child there
    obtain ⟨node, present, fits⟩ := tree.sound.edge a p byteval c here inside child
    rw [there] at present
    cases present
    exact fits.2.2
  leaf := by
    intro a l here
    have ok := tree.leaves a l here
    refine ⟨fun empty => ?_, ok.sorted, ok.agree⟩
    obtain ⟨kv, member⟩ := ok.exists_mem
    rw [empty] at member
    cases member
  depth := by
    intro a l here
    have ok := tree.leaves a l here
    exact ⟨ok.single, fun more => ⟨(ok.differ more).agree, (ok.differ more).differ⟩⟩
  capacity := fun a l here => ⟨(tree.leaves a l here).small, (tree.leaves a l here).large⟩
  sparse := by
    intro a p keys here layout
    have ok := (tree.sound.ok a p here).1
    rw [Inner.Ok, layout] at ok
    obtain ⟨slots, length, _, _, least, most⟩ := ok
    exact ⟨length, slots, least, most⟩
  indirect := by
    intro a p bitmap here layout
    have ok := (tree.sound.ok a p here).1
    rw [Inner.Ok, layout] at ok
    obtain ⟨slots, counted, least, most⟩ := ok
    exact ⟨counted, slots, least, most⟩
  top := by
    obtain ⟨p, here, full, zero, _⟩ := tree.sound.top
    exact ⟨p, here, full, zero⟩
  parent := by
    intro k location found cptr
    obtain ⟨other, p, found', located, _⟩ := tree.current k
    rw [found] at found'
    cases found'
    obtain ⟨g, parent⟩ := located.has_parent tree.sound cptr
    refine ⟨g, p, parent, located.here, fun full => ?_⟩
    have missing := located.cptr
    rw [cptr, Inner.getChild, full] at missing
    cases missing
  back := by
    intro g gp byteval a p above inside child here
    obtain ⟨node, present, fits⟩ := tree.sound.edge g gp byteval a above inside child
    rw [here] at present
    cases present
    cases found : gp.layout.find byteval with
    | none =>
        rw [Inner.child_of_none found] at child
        cases child
    | some index =>
        refine ⟨index, by rw [Inner.getChild, fits.2.1]; exact found, ?_⟩
        rw [Inner.child_of_find found, List.getD_eq_getElem?_getD] at child
        cases slot : gp.ptr[index]? with
        | none => simp [slot] at child
        | some content => simpa [slot] using child

end Contents

/-! Runs from the empty tree. -/

variable (junk : Key) (noValue : V)

theorem emptyTree_holds : Holds (emptyTree junk : Heap Key (Leaf Key V)) fun _ => none := by
  refine ⟨⟨emptyTree_sound junk (Nat.succ_pos 7), ?_, ?_⟩, fun k v => ?_⟩
  · intro x l there
    cases (emptyTree_only junk there).2
  · intro x q there
    obtain ⟨rfl, same⟩ := emptyTree_only junk there
    cases same
    exact ⟨fun _ => .refl root, fun _ => rfl⟩
  · simp [emptyTree_below]

theorem run_holds (rounds : Nat) (ops : List (Op Key V)) :
    Holds (runOps (attempt noValue) (rounds + 1) ops (emptyTree junk)).1
      (specRun noValue ops fun _ => none).1 ∧
    (runOps (attempt noValue) (rounds + 1) ops (emptyTree junk)).2 =
      (specRun noValue ops fun _ => none).2.map some :=
  run_simulates (attempt_simulates noValue) rounds ops (emptyTree_holds junk) (along_always _ _ _)

/-- Every sequence of calls returns what the abstract map returns, whatever number of
rounds the retry loop is given, and leaves its contents in the reachable leaves. -/
theorem art_refines_map (rounds : Nat) (ops : List (Op Key V)) :
    (runOps (attempt noValue) (rounds + 1) ops (emptyTree junk)).2 =
      (specRun noValue ops fun _ => none).2.map some ∧
    Represents (runOps (attempt noValue) (rounds + 1) ops (emptyTree junk)).1
      (specRun noValue ops fun _ => none).1 :=
  ⟨(run_holds junk noValue rounds ops).2, (run_holds junk noValue rounds ops).1.represents⟩

/-- The representation invariant holds after every sequence of calls. -/
theorem art_representation (rounds : Nat) (ops : List (Op Key V)) :
    Representation (runOps (attempt noValue) (rounds + 1) ops (emptyTree junk)).1 :=
  (run_holds junk noValue rounds ops).1.1.representation

end SetBench.Art
