import SetBench.ArtEvery
import SetBench.DoubleLogMap

/-! The fixed arrays of art_double_log_leaves.h. Whether every node fits them is a
property of single nodes: it does not need the tree to be one that searches find their
way in. -/
namespace SetBench.DoubleLog

open Radix KeyVals Art MapSpec

variable {K V : Type} [RadixKey K]

/-- The two arrays of a sparse node hold `size` entries each. -/
def Sized (p : Inner K) : Prop :=
  ∀ keys, p.layout = .sparse keys → keys.length = p.size ∧ p.ptr.length = p.size ∧
    p.size ≤ maxSparseSize

def Fitting : Node K (Leaf K V) → Prop
  | .inner p => Sized p
  | .leaf l => Leaf.Ok l

def AllFit (heap : Heap K (Leaf K V)) : Prop := ∀ a node, heap.node a = some node → Fitting node

/-- A split divides by a byte of the key, and no fifteen neighbours share it. Capacity rests on
the second; without the first get_byte would shift by a negative number. -/
def Roomy (heap : Heap K (Leaf K V)) (op : Op K V) : Prop :=
  ∀ bytePos pairs, handed heap op = some (bytePos, pairs) → bytePos < RadixKey.size K ∧
    Leaf.Thin bytePos pairs

theorem roomy_iff (heap : Heap K (Leaf K V)) (op : Op K V) : Roomy heap op ↔
    ∀ found ∈ handed heap op, found.1 < RadixKey.size K ∧ Leaf.Thin found.1 found.2 := by
  constructor
  · intro roomy found held
    exact roomy found.1 found.2 held
  · intro all bytePos pairs held
    exact all (bytePos, pairs) held

instance (heap : Heap K (Leaf K V)) (op : Op K V) : Decidable (Roomy heap op) :=
  decidable_of_iff _ (roomy_iff heap op).symm

variable {heap : Heap K (Leaf K V)} {k : K} {v : V} {location : Location} {index : Nat}

/-! What each change of the heap builds. -/

theorem steady_fitting : Steady (Fitting : Node K (Leaf K V) → Prop) where
  child := fun p index child sized keys layout => by
    obtain ⟨slots, length, most⟩ := sized keys layout
    exact ⟨slots, by rw [Inner.setChild, List.length_set]; exact length, most⟩
  removed := fun _ sized => sized

-- The copy of a node gets one more slot, and only when it has room.
theorem copyNode_sized {p : Inner K} (sized : Sized p) (k : K) (c : Addr) :
    Sized (copyNode maxSparseSize p p.ptr k c) := by
  intro keys layout
  cases kind : p.layout with
  | full =>
      simp only [copyNode, kind] at layout
      cases layout
  | indirect bitmap =>
      simp only [copyNode, kind] at layout
      split at layout <;> cases layout
  | sparse old =>
      obtain ⟨length, slots, most⟩ := sized old kind
      simp only [copyNode, kind] at layout ⊢
      split at layout
      · cases layout
      · rename_i room
        cases layout
        rw [if_neg room]
        have room : p.size ≠ maxSparseSize := by simpa [Inner.isFull, kind] using room
        refine ⟨?_, ?_, ?_⟩
        · rw [List.length_append, length]
          rfl
        · simp only [sparseToSparse, List.length_append, slots]
          rfl
        · exact Nat.lt_of_le_of_ne most room

section Steps

variable (fit : AllFit heap)
include fit

theorem store_fit (a : Addr) (index : Nat) (child : Option Addr) :
    AllFit (heap.store a index child) :=
  Every.store fit steady_fitting a index child

theorem linkLeaf_fit {a : Addr} {index : Nat} {l : Leaf K V} (ok : Leaf.Ok l) :
    AllFit (link a index (heap.alloc (.leaf l))) := by
  have leaf : Fitting (.leaf l) := ok
  exact store_fit (Every.alloc fit leaf) _ _ _

theorem putLeaf_fit {c : Addr} {l : Leaf K V} (ok : Leaf.Ok l) : AllFit (heap.putLeaf c l) := by
  intro x node there
  rw [putLeaf_node] at there
  split at there
  · cases there
    exact ok
  · exact fit x node there

theorem retire_fit (a : Addr) : AllFit (heap.retire a) := by
  intro x node there
  rw [retire_node] at there
  split at there
  · cases there
  · exact fit x node there

theorem cutEdge_fit (c : Addr) (key : K) (bytePos : Nat) (k : K) (v : V) :
    AllFit (cutEdge heap c key bytePos (Leaf.single k v) k).1 := by
  have leaf : Fitting (.leaf (.single k v)) := Leaf.single_ok k v
  refine Every.cutEdge fit leaf ?_
  rintro _ ⟨⟩
  exact ⟨rfl, rfl, show 2 ≤ maxSparseSize by decide⟩

theorem splitLeaf_fit (bytePos : Nat) (key : K) {leaves : List (Leaf K V)}
    (ok : ∀ l ∈ leaves, Leaf.Ok l) (most : leaves.length ≤ maxSparseSize) :
    AllFit (splitLeaf heap bytePos key leaves).1 := by
  refine Every.splitLeaf fit ok ?_
  rintro _ ⟨⟩
  simp only [sparseMany, List.length_map, allocLeaves_length, true_and]
  exact most

theorem addChild_fit {g a : Addr} {after : Heap K (Leaf K V)}
    (done : addChild maxSparseSize heap g a k (Leaf.single k v) = some after) : AllFit after := by
  have leaf : Fitting (.leaf (.single k v)) := Leaf.single_ok k v
  exact Every.addChild fit steady_fitting leaf (fun p c sized => copyNode_sized sized k c) done

-- Both split paths: sorted pairs, at most seventeen of them.
theorem splitPairs_fit {bytePos : Nat} {pairs : List (K × V)} {built : Heap K (Leaf K V) × Addr}
    (made : splitPairs heap bytePos pairs = some built) (sorted : Sorted pairs)
    (most : pairs.length ≤ maxSparseSize) (thin : Leaf.Thin bytePos pairs) : AllFit built.1 := by
  match pairs, made with
  | start :: rest, made =>
      cases made
      exact splitLeaf_fit fit bytePos start.1 (Leaf.divide_ok sorted thin)
        ((Leaf.divide_length bytePos start rest).2.trans most)

end Steps

/-! The bodies, the attempts and the runs. -/

section Body

variable (fit : AllFit heap) (found : findLocation heap k = some location)
include fit found

theorem insertBody_fit (missing : leafFind heap location.c k = none)
    (roomy : Roomy heap (.insert k v)) {after : Heap K (Leaf K V)}
    (done : insertBody heap location index k v = some after) : AllFit after := by
  unfold insertBody at done
  cases held : location.c with
  | none =>
      simp only [held, Option.some.injEq] at done
      subst done
      exact linkLeaf_fit fit (Leaf.single_ok k v)
  | some c =>
      cases there : heap.node c with
      | none => simp [held, there] at done
      | some node =>
          cases node with
          | inner q =>
              simp only [held, there, Option.some.injEq] at done
              subst done
              exact store_fit (cutEdge_fit fit c q.key location.bytePos k v) _ _ _
          | leaf l =>
              have ok : Leaf.Ok l := fit c _ there
              have absent : l.find k = none := by
                simpa [leafFind, leafAt, held, there] using missing
              simp only [held, there] at done
              cases kind : l.isLog with
              | false =>
                  simp only [kind, Bool.false_eq_true, if_false] at done
                  split at done
                  · rename_i room
                    cases done
                    exact linkLeaf_fit fit (Leaf.add_spec ok kind absent v false
                      (fun _ => room) _).1
                  · cases done
                    exact linkLeaf_fit fit (Leaf.add_spec ok kind absent v true
                      (fun small => by cases small) _).1
              | true =>
                  have consistent : (⟨false, k, v⟩ : LogEntry K V).Consistent l.contents := by
                    refine ⟨(fun deletes => by cases deletes), ?_⟩
                    rintro ⟨v, member⟩
                    exact absurd member (ok.find_none k absent v)
                  have append (free : l.isAppendable = true) :
                    AllFit (heap.putLeaf c (l.append ⟨false, k, v⟩)) :=
                    putLeaf_fit fit (ok.append kind free consistent).1
                  simp only [kind, if_true] at done
                  cases one : l.log with
                  | none =>
                      simp only [one, Option.some.injEq] at done
                      subst done
                      exact append (by simp [Leaf.isAppendable, one])
                  | some log =>
                      cases two : l.secondLog with
                      | none =>
                          simp only [one, two, Option.some.injEq] at done
                          subst done
                          exact append (by simp [Leaf.isAppendable, two])
                      | some secondLog =>
                          simp only [one, two] at done
                          by_cases room : l.realSize < maxBigLeafSize
                          · rw [if_pos room] at done
                            cases done
                            exact linkLeaf_fit fit (Leaf.addLogged_spec ok one two absent v
                              room _).1
                          · rw [if_neg room, Option.map_eq_some_iff] at done
                            obtain ⟨built, made, rfl⟩ := done
                            have handed_ : handed heap (.insert k v) =
                              some (location.bytePos, l.pairsWith k v) := by
                              simp [handed, found, held, leafAt_leaf there, kind, Leaf.isAppendable,
                                one, two, absent, room]
                            have length := Leaf.pairsWith_length ok k v
                            have size := ok.large kind
                            have real := l.realSize_le
                            have bound : maxBigLeafSize = 14 := rfl
                            have bound' : maxSparseSize = 17 := rfl
                            exact store_fit (splitPairs_fit fit made
                              (Leaf.pairsWith_sorted ok absent v) (by omega)
                              (roomy _ _ handed_).2) _ _ _

theorem removeBody_fit {noValue value : V} {c : Addr} {l : Leaf K V} (held : location.c = some c)
    (there : heap.node c = some (.leaf l)) (here : l.find k = some value)
    (roomy : Roomy heap (.remove k)) {after : Heap K (Leaf K V)}
    (done : removeBody noValue heap location index c l k = some after) : AllFit after := by
  have ok : Leaf.Ok l := fit c _ there
  have member := (ok.find_iff k value).mp here
  have bound : maxBigLeafSize = 14 := rfl
  have bound' : maxSparseSize = 17 := rfl
  have bound'' : maxSmallLeafSize = 2 := rfl
  unfold removeBody at done
  cases kind : l.isLog with
  | false =>
      simp only [kind, Bool.false_eq_true, if_false] at done
      obtain ⟨empty, few⟩ := ok.small kind
      have plain := Leaf.contents_plain empty (ok.second_none empty)
      rw [plain] at member
      have length : (without [k] l.keyVals).length + 1 = l.size := length_without ok.sorted member
      split at done
      · cases done
        exact store_fit fit _ _ _
      · cases done
        exact linkLeaf_fit fit (Leaf.rebuilt_ok (without_sorted ok.sorted [k]) (fun _ => by omega)
          (by omega) (by omega))
  | true =>
      have consistent : (⟨true, k, noValue⟩ : LogEntry K V).Consistent l.contents :=
        ⟨fun _ => ⟨value, member⟩, fun _ => rfl⟩
      have append (free : l.isAppendable = true) :
        AllFit (heap.putLeaf c (l.append ⟨true, k, noValue⟩)) :=
        putLeaf_fit fit (ok.append kind free consistent).1
      simp only [kind, if_true] at done
      cases one : l.log with
      | none =>
          simp only [one, Option.some.injEq] at done
          subst done
          exact append (by simp [Leaf.isAppendable, one])
      | some log =>
          cases two : l.secondLog with
          | none =>
              simp only [one, two, Option.some.injEq] at done
              subst done
              exact append (by simp [Leaf.isAppendable, two])
          | some secondLog =>
              have present : ∃ v, (k, v) ∈ secondLog.applyTo (log.applyTo l.keyVals) :=
                ⟨value, by rw [← Leaf.contents_logged one two]; exact member⟩
              have lists {built : List (K × V)}
                (made : built = cowRemove l.keyVals log secondLog k ∨
                  built = cowRemoveSmall l.keyVals log secondLog k) :
                  Lists built fun entry => entry ∈ l.contents ∧ entry.1 ≠ k := by
                rw [Leaf.contents_logged one two]
                exact removed_lists (ok.logged one two) present made
              have length := Leaf.removed_length ok here (lists (Or.inl rfl))
              have length' := Leaf.removed_length ok here (lists (Or.inr rfl))
              simp only [one, two] at done
              split at done
              · split at done
                · cases done
                  exact store_fit fit _ _ _
                · cases done
                  exact linkLeaf_fit fit (Leaf.rebuilt_ok (lists (Or.inr rfl)).1 (fun _ => by omega)
                    (by omega) (by omega))
              · split at done
                · cases done
                  exact linkLeaf_fit fit (Leaf.rebuilt_ok (lists (Or.inl rfl)).1 (by simp)
                    (by omega) (by omega))
                · rename_i full
                  rw [Option.map_eq_some_iff] at done
                  obtain ⟨built, made, rfl⟩ := done
                  have handed_ : handed heap (.remove k) =
                    some (location.bytePos, l.pairsWithout k) := by
                    simp [handed, found, held, leafAt_leaf there, kind, Leaf.isAppendable, one, two,
                      here, full]
                  have length := Leaf.pairsWithout_length ok here
                  have size := ok.large kind
                  have real := l.realSize_le
                  exact store_fit (splitPairs_fit fit made (Leaf.pairsWithout_sorted ok k)
                    (by omega)
                    (roomy _ _ handed_).2) _ _ _

end Body

theorem attempt_fit (noValue : V) (heap : Heap K (Leaf K V)) (op : Op K V) (fit : AllFit heap)
    (roomy : Roomy heap op) :
    AllFit (attempt noValue op heap).1 := by
  cases op with
  | insert k v =>
      simp only [attempt, tryInsert]
      split
      · exact fit
      · rename_i location found
        split
        · split <;> exact fit
        · rename_i missing
          split
          · split
            · split
              · rename_i after done
                exact insertBody_fit fit found missing roomy done
              · exact fit
            · exact fit
          · split
            · exact fit
            · split
              · rename_i after done
                exact retire_fit (addChild_fit fit done) _
              · exact fit
  | remove k =>
      simp only [attempt, tryRemove]
      split
      · exact fit
      · rename_i location found
        split
        · exact fit
        · split
          · split <;> exact fit
          · rename_i value here
            split
            · split
              · rename_i after done
                obtain ⟨leaf, held, done⟩ := Option.bind_eq_some_iff.mp done
                obtain ⟨same, there⟩ := leafAt_some held
                have answer : leaf.2.find k = some value := by
                  simpa [leafFind, held] using here
                exact removeBody_fit fit found same there answer roomy done
              · exact fit
            · exact fit

-- A retry leaves the tree as it is.
theorem attempt_retry (noValue : V) (heap : Heap K (Leaf K V)) (op : Op K V)
    (again : (attempt noValue op heap).2 = none) : (attempt noValue op heap).1 = heap := by
  cases op with
  | insert k v =>
      simp only [attempt, tryInsert] at again ⊢
      repeat' split
      all_goals simp_all
  | remove k =>
      simp only [attempt, tryRemove] at again ⊢
      repeat' split
      all_goals simp_all

/-! Runs from the empty tree. -/

/-- Every node fits its fixed arrays. -/
structure Capacity (heap : Heap K (Leaf K V)) : Prop where
  logLeaf : ∀ a l, heap.node a = some (.leaf l) → l.isLog = true → l.keyVals.length ≤ maxBigLeafSize
  smallLeaf : ∀ a l, heap.node a = some (.leaf l) → l.isLog = false →
    l.keyVals.length ≤ maxSmallLeafSize
  sparse : ∀ a p keys, heap.node a = some (.inner p) → p.layout = .sparse keys →
    p.size ≤ maxSparseSize ∧ keys.length ≤ maxSparseSize ∧ p.ptr.length ≤ maxSparseSize

theorem AllFit.capacity (fit : AllFit heap) : Capacity heap := by
  refine ⟨fun a l here log => ?_, fun a l here small => ?_, fun a p keys here layout => ?_⟩
  · have ok : Leaf.Ok l := fit a _ here
    exact ok.large log
  · have ok : Leaf.Ok l := fit a _ here
    exact (ok.small small).2
  · obtain ⟨length, slots, most⟩ := fit a _ here keys layout
    exact ⟨most, length.le.trans most, slots.le.trans most⟩

variable (junk : Key) (noValue : V)

theorem emptyTree_fit : AllFit (emptyTree junk : Heap Key (Leaf Key V)) := by
  intro a node here
  obtain ⟨_, same⟩ := emptyTree_only junk here
  subst same
  rintro _ ⟨⟩

/-- In a run all of whose splits are roomy, every node fits its arrays after every
prefix of the run. -/
theorem capacity_kept (rounds : Nat) (ops : List (Op Key V))
    (roomy : Along (attempt noValue) Roomy rounds ops (emptyTree junk)) :
    ∀ done, done <+: ops → Capacity (runOps (attempt noValue) rounds done (emptyTree junk)).1 := by
  rintro done ⟨rest, rfl⟩
  exact (run_keeps (attempt_fit noValue) (attempt_retry noValue) rounds done (emptyTree_fit junk)
    (along_append roomy)).capacity

theorem close_keys_fit : Along (attempt 0) Roomy 1 closeKeys (emptyTree (0 : Key)) ∧
    Capacity (runOps (attempt 0) 1 closeKeys (emptyTree (0 : Key))).1 := by
  have roomy : Along (attempt 0) Roomy 1 closeKeys (emptyTree (0 : Key)) := by decide +kernel
  exact ⟨roomy, capacity_kept 0 0 1 closeKeys roomy closeKeys List.prefix_rfl⟩

-- Two removals that are logged and undone leave room for fourteen base pairs and two
-- logged inserts; 0 then splits the leaf by the seventh byte, which the other sixteen share.
def crowdedByte : List (Op Key Nat) :=
  ((List.range 12).map fun i => .insert (Fin.ofNat (2 ^ 64) (256 + i)) 1) ++
    [.remove 256, .insert 256 1, .insert 268 1, .remove 256, .insert 256 1, .insert 269 1,
      .insert 270 1, .insert 271 1, .insert 0 1]

theorem crowded_byte_overflows :
    ¬ Capacity (runOps (attempt 0) 1 crowdedByte (emptyTree (0 : Key))).1 := by
  intro capacity
  have crowded : ∃ a < 100,
    ∃ l ∈ leafAt (runOps (attempt 0) 1 crowdedByte (emptyTree (0 : Key))).1 (some a),
      l.2.isLog = true ∧ maxBigLeafSize < l.2.keyVals.length := by decide +kernel
  obtain ⟨a, _, l, held, log, many⟩ := crowded
  exact absurd (capacity.logLeaf l.1 l.2 (leafAt_some held).2 log) (Nat.not_le.mpr many)

end SetBench.DoubleLog
