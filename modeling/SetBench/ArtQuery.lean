import SetBench.ArtRange

/-! The queries of art.h: find_, and the recursion of range_ over the trees that inserts and
removes build. -/
namespace SetBench.Art

open Radix KeyVals MapSpec

section Trails

variable {K V L : Type} [RadixKey K] [RadixLeaf K V L] {least maxSparse : Nat} {heap : Heap K L}
    {k : K}

omit [RadixLeaf K V L] in
theorem Trail.path {a b : Addr} (trail : Trail heap k a b) : Path heap k a b := by
  induction trail with
  | leaf _ => exact .refl _
  | step here _ child _ ih => exact .step here child ih

omit [RadixLeaf K V L] in
theorem Trail.ends {a b : Addr} (trail : Trail heap k a b) : ∃ l, heap.node b = some (.leaf l) := by
  induction trail with
  | leaf here => exact ⟨_, here⟩
  | step _ _ _ _ ih => exact ih

omit [RadixLeaf K V L] in
theorem Trail.agree {a b m : Addr} {q : Inner K} (trail : Trail heap k a b) (path : Path heap k a m)
    (here : heap.node m = some (.inner q)) : Agree k q.key q.byteNum := by
  induction trail with
  | leaf there =>
      have same := path.leaf_end there
      subst same
      rw [there] at here
      cases here
  | step there agree child _ ih =>
      cases path with
      | refl =>
          rw [there] at here
          cases here
          exact agree
      | step there' child' rest =>
          rw [there] at there'
          cases there'
          rw [child] at child'
          cases child'
          exact ih rest

theorem Path.trail (sound : Sound least maxSparse heap) {a m b : Addr} {p : Inner K} {l : L}
    (path : Path heap k a m) (here : heap.node m = some (.inner p))
    (agree : Agree k p.key p.byteNum) (child : p.child (RadixKey.byte k p.byteNum) = some b)
    (leaf : heap.node b = some (.leaf l)) : Trail heap k a b := by
  have belongs : Belongs heap m k := by
    simp only [Belongs, here]
    exact agree
  induction path with
  | refl => exact .step here agree child (.leaf leaf)
  | @step a c m q there child' rest ih =>
      have shared : Agree k q.key q.byteNum := by
        by_cases same : a = m
        · subst same
          rw [there] at here
          cases here
          exact agree
        · exact ((Path.step there child' rest).belongs sound same there belongs).1
      exact .step there shared child' (ih here belongs)

-- The path of a stored key is a trail.
theorem Path.trail_of_member (sound : Sound least maxSparse heap) {a b : Addr} {l : L} {v : V}
    (path : Path heap k a b) (leaf : heap.node b = some (.leaf l))
    (member : (k, v) ∈ RadixLeaf.pairs l) : Trail heap k a b := by
  induction path with
  | refl => exact .leaf leaf
  | @step a c b p here child rest ih =>
      have apart : a ≠ b := by
        rintro rfl
        rw [here] at leaf
        cases leaf
      have belongs : Belongs heap b k := by
        simp only [Belongs, leaf]
        exact ⟨v, member⟩
      exact .step here ((Path.step here child rest).belongs sound apart here belongs).1 child
        (ih leaf)

/-- find_location ends in the leaf of the trail. -/
theorem Located.trail_iff {location : Location} {p : Inner K} (sound : Sound least maxSparse heap)
    (located : Located heap k location p) (b : Addr) :
    Trail heap k root b ↔ location.c = some b ∧ ∃ l, heap.node b = some (.leaf l) := by
  constructor
  · intro trail
    obtain ⟨l, leaf⟩ := trail.ends
    refine ⟨?_, l, leaf⟩
    rcases located.path.linear trail.path with down | up
    · cases down with
      | refl =>
          have here := located.here
          rw [leaf] at here
          cases here
      | @step _ c _ q there child rest =>
          rw [located.here] at there
          cases there
          rw [located.child, child]
          obtain ⟨node, present, fits⟩ :=
            sound.edge _ p _ c located.here (RadixKey.byte_lt _ _) child
          cases node with
          | leaf _ => rw [rest.leaf_end present]
          | inner q =>
              have parts := located.toSeen.parts (located.child.trans child) present fits
              have agree := trail.agree (located.path.snoc located.here child) present
              exact absurd (agree _ parts.2) parts.1.2
    · have same := up.leaf_end leaf
      have here := located.here
      rw [← same, leaf] at here
      cases here
  · rintro ⟨held, l, leaf⟩
    exact located.path.trail sound located.here located.agree (located.child.symm.trans held) leaf

end Trails

variable {K V : Type} [RadixKey K] {heap : Heap K (Leaf K V)}

/-- `none` when control runs off the end of find_, which has no return statement for a cut edge. -/
def find_ (heap : Heap K (Leaf K V)) (k : K) : Option (Option V) :=
  (findLocation heap k).bind fun location =>
    match location.c with
    | none => some none
    | some l =>
        match heap.node l with
        | some (.leaf l) => some (find l.keyVals k)
        | _ => none

/-- Every inner node in the slots of `k` has a compressed prefix that `k` shares. -/
def NoCutEdge (heap : Heap K (Leaf K V)) (k : K) : Prop :=
  ∀ a q, Path heap k root a → heap.node a = some (.inner q) → Agree k q.key q.byteNum

theorem find_iff {map : K → Option V} (holds : Holds heap map) (k : K) :
    find_ heap k = some (map k) ↔ NoCutEdge heap k := by
  obtain ⟨tree, held⟩ := holds
  obtain ⟨location, p, found, located, current, _⟩ := tree.current k
  have stored (v : V) : map k = some v ↔ leafFind heap location.c k = some v := by
    rw [← held, current.below]
  have same : map k = leafFind heap location.c k := Option.ext stored
  simp only [find_, found, Option.bind_some, same]
  constructor
  · intro returned a q path here
    rcases path.linear located.path with before | after
    · by_cases equal : a = location.p
      · rw [equal, located.here] at here
        cases here
        exact located.agree
      · refine (before.belongs tree.sound equal here ?_).1
        simp only [Belongs, located.here]
        exact located.agree
    · cases after with
      | refl =>
          rw [located.here] at here
          cases here
          exact located.agree
      | @step _ c _ r there child rest =>
          rw [located.here] at there
          cases there
          rw [← located.child] at child
          rw [child] at returned
          cases present : heap.node c with
          | none => simp [present] at returned
          | some node =>
              cases node with
              | inner _ => simp [present] at returned
              | leaf _ =>
                  rw [← rest.leaf_end present, present] at here
                  cases here
  · intro shared
    cases child : location.c with
    | none => rfl
    | some c =>
        obtain ⟨node, present, fits⟩ := tree.sound.edge _ p _ c located.here (RadixKey.byte_lt _ _)
          (located.child.symm.trans child)
        cases node with
        | leaf l => simp [leafFind, present]
        | inner q =>
            have parts := located.toSeen.parts child present fits
            have agree := shared c q (located.path.snoc located.here
              (located.child.symm.trans child)) present
            exact absurd (agree _ parts.2) parts.1.2

section Runs

variable (junk : Key) (noValue : V)

/-- find_ returns, and with the value of the map, exactly for the keys that leave no compressed
prefix on their way. -/
theorem lookup_iff_no_cut_edge (rounds : Nat) (ops : List (Op Key V)) (k : Key) :
    find_ (runOps (attempt noValue) (rounds + 1) ops (emptyTree junk)).1 k =
      some ((specRun noValue ops fun _ => none).1 k) ↔
      NoCutEdge (runOps (attempt noValue) (rounds + 1) ops (emptyTree junk)).1 k :=
  find_iff (run_holds junk noValue rounds ops).1 k

-- The fifteenth key splits the leaf by the last byte; 65536 differs from the node it makes earlier.
def fifteenKeys : List (Op Key Nat) :=
  (List.range 15).map fun i => .insert (Fin.ofNat (2 ^ 64) (i + 1)) (i + 1)

theorem cut_edge_without_return : ¬ ∀ (ops : List (Op Key Nat)) (k : Key),
    find_ (runOps (attempt 0) 1 ops (emptyTree 0)).1 k =
      some ((specRun 0 ops fun _ => none).1 k) := by
  intro always
  have returned := always fifteenKeys 65536
  have missing : find_ (runOps (attempt 0) 1 fifteenKeys (emptyTree 0)).1 65536 = none := by
    decide +kernel
  rw [missing] at returned
  cases returned

/-- The recursion reaches every leaf with a key in the range once, no leaf twice, and the bounds
that are left at a leaf decide about its keys as the range does. -/
theorem range_pruning_exact (rounds : Nat) (ops : List (Op Key V)) (lo hi : Key) :
    ∃ visits, range_ (runOps (attempt noValue) (rounds + 1) ops (emptyTree junk)).1 lo hi =
      some visits ∧
      (visits.map Visit.leaf).Nodup ∧
      (∀ b l, Reach (runOps (attempt noValue) (rounds + 1) ops (emptyTree junk)).1 root b →
        (runOps (attempt noValue) (rounds + 1) ops (emptyTree junk)).1.node b = some (.leaf l) →
        (∃ kv ∈ l.keyVals, lo ≤ kv.1 ∧ kv.1 ≤ hi) → (visits.map Visit.leaf).count b = 1) ∧
      ∀ v ∈ visits, Reach (runOps (attempt noValue) (rounds + 1) ops (emptyTree junk)).1 root
        v.leaf ∧
        ∃ l, (runOps (attempt noValue) (rounds + 1) ops (emptyTree junk)).1.node v.leaf =
          some (.leaf l) ∧
          ∀ kv ∈ l.keyVals, (lo ≤ kv.1 ∧ kv.1 ≤ hi) ↔ (∀ s ∈ v.start, s ≤ kv.1) ∧
            ∀ e ∈ v.stop, kv.1 ≤ e := by
  generalize same : (runOps (attempt noValue) (rounds + 1) ops (emptyTree junk)).1 = heap
  have tree : Tree heap := by
    rw [← same]
    exact (run_holds junk noValue rounds ops).1.1
  obtain ⟨visits, returned, visited⟩ := range_visited tree.sound lo hi
  refine ⟨visits, returned, visited.once, ?_, ?_⟩
  · rintro b l reach leaf ⟨kv, member, low, high⟩
    have path := reach.path tree.sound leaf (k := kv.1) (v := kv.2) member
    obtain ⟨v, listed, rfl, _⟩ :=
      visited.trail kv.1 b low high (path.trail_of_member tree.sound leaf member)
    exact List.count_eq_one_of_mem visited.once (List.mem_map_of_mem listed)
  · intro v listed
    obtain ⟨reach, l, leaf, marks⟩ := visited.leaf v listed
    refine ⟨reach, l, leaf, fun kv member => ?_⟩
    obtain ⟨n, bounds⟩ := marks kv.1 (Or.inr ⟨kv.2, member⟩)
    rw [bounds.low.low_iff, bounds.high.high_iff]

end Runs

end SetBench.Art
