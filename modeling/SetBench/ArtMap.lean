import SetBench.ArtUpdate
import SetBench.MapSpec

/-! art.h as a sequential map: try_insert and try_remove, one attempt at a time, and
the representation invariant of the tree they keep. -/
namespace SetBench.Art

open Radix KeyVals MapSpec

variable {K V : Type} [RadixKey K]

/-- One attempt of an insert; no value is a retry. -/
def tryInsert (noValue : V) (k : K) (v : V) (heap : Heap K (Leaf K V)) :
    Heap K (Leaf K V) × Option V :=
  match findLocation heap k with
  | none => (heap, none)
  | some location =>
      match leafFind heap location.c k with
      | some value => if unchanged heap location then (heap, some value) else (heap, none)
      | none =>
          match location.cptr with
          | some index =>
              if unchanged heap location then
                match insertChild heap location.c location.bytePos k v with
                | some (mid, new) => (mid.store location.p index (some new), some noValue)
                | none => (heap, none)
              else (heap, none)
          | none =>
              match location.gp with
              | none => (heap, none)
              | some gp =>
                  match addChild maxSparseSize heap gp location.p k (Leaf.single k v) with
                  | some after => (after, some noValue)
                  | none => (heap, none)

/-- One attempt of a remove. -/
def tryRemove (noValue : V) (k : K) (heap : Heap K (Leaf K V)) : Heap K (Leaf K V) × Option V :=
  match findLocation heap k with
  | none => (heap, none)
  | some location =>
      match location.cptr with
      | none => (heap, some noValue)
      | some index =>
          match leafFind heap location.c k with
          | none => if unchanged heap location then (heap, some noValue) else (heap, none)
          | some value =>
              if unchanged heap location then
                match location.c.bind heap.node with
                | some (.leaf l) =>
                    let (mid, new) := removeChild heap l k
                    (mid.store location.p index new, some value)
                | _ => (heap, none)
              else (heap, none)

def attempt (noValue : V) : Op K V → Heap K (Leaf K V) → Heap K (Leaf K V) × Option V
  | .insert k v => tryInsert noValue k v
  | .remove k => tryRemove noValue k

structure Tree (heap : Heap K (Leaf K V)) : Prop where
  sound : Sound 2 maxSparseSize heap
  leaves : Leaves Leaf.Ok heap
  marked : Marked heap

variable {heap after : Heap K (Leaf K V)} {k : K} {v : V}

theorem Tree.current (tree : Tree heap) (k : K) :
    ∃ location p, findLocation heap k = some location ∧
    Located heap k location p ∧ Current heap k location p ∧ p.removed = false := by
  obtain ⟨location, p, found, located⟩ := findLocation_located tree.sound k
  have reach := located.reach tree.sound
  exact ⟨location, p, found, located, ⟨located.placed tree.sound, tree.leaves⟩,
    (tree.marked _ p located.here).mpr reach⟩

theorem Tree.rewrite {a : Addr} (tree : Tree heap)
    (rewrite : Rewrite 2 maxSparseSize heap after a none Leaf.Ok) :
    Tree after :=
  ⟨rewrite.sound, rewrite.leaves tree.leaves,
    rewrite.marked (fun x q there _ => tree.marked x q there)
    fun _ _ _ absurd_ => nomatch absurd_⟩

theorem Tree.addChild {g : Addr} {location : Location} {p : Inner K} (tree : Tree heap)
    (located : Located heap k location p) (cptr : location.cptr = none)
    (parent : location.gp = some g) (v : V) :
    ∃ after, Art.addChild maxSparseSize heap g location.p k (Leaf.single k v) = some after ∧
      Tree after ∧
      Inserted heap after k v := by
  obtain ⟨after, done, rewrite, inserted, _⟩ := located.addChild tree.sound cptr parent (by decide)
    (Leaf.single_one k v (tree.sound.ok _ _ located.here).2) fun gp above reach =>
    (tree.marked g gp above).mpr reach
  refine ⟨after, done, ⟨rewrite.sound, ?_, rewrite.marked ?_ ?_⟩, inserted⟩
  · refine (rewrite.mono fun l same => same ▸ Leaf.single_ok k v).leaves fun x l there => ?_
    exact tree.leaves x l ((setRemoved_leaf located.here x l).mp there)
  · intro x q there other
    rw [setRemoved_path located.here]
    have apart : x ≠ location.p := fun same => other (by rw [same])
    rw [setRemoved_node located.here, if_neg apart] at there
    exact tree.marked x q there
  · rintro x q there ⟨⟩
    rw [setRemoved_node located.here, if_pos rfl] at there
    cases there
    rfl

/-- The tree and the pairs it holds. -/
def Holds (heap : Heap K (Leaf K V)) (map : K → Option V) : Prop :=
  Tree heap ∧ ∀ k v, Below heap root k v ↔ map k = some v

theorem tryInsert_simulates (noValue : V) {map : K → Option V} (holds : Holds heap map) (k : K)
    (v : V) :
    ∃ next, tryInsert noValue k v heap = (next, some (specStep noValue map (.insert k v)).2) ∧
      Holds next (specStep noValue map (.insert k v)).1 := by
  obtain ⟨tree, held⟩ := holds
  obtain ⟨location, p, found, located, current, live⟩ := tree.current k
  have stored (value : V) : map k = some value ↔ leafFind heap location.c k = some value := by
    rw [← held, current.below]
  cases here : leafFind heap location.c k with
  | some value =>
      have index : ∃ index, location.cptr = some index := by
        refine Option.ne_none_iff_exists'.mp fun missing => ?_
        rw [located.empty missing] at here
        cases here
      obtain ⟨index, cptr⟩ := index
      have same := (stored value).mpr here
      refine ⟨heap, ?_, ?_⟩
      · simp only [tryInsert, found, here, current.unchanged live cptr, if_true, specStep, same]
      · simp only [specStep, same]
        exact ⟨tree, held⟩
  | none =>
      have absent : map k = none := by
        cases value : map k with
        | none => rfl
        | some old =>
            rw [(stored old).mp value] at here
            cases here
      simp only [specStep, absent]
      cases cptr : location.cptr with
      | some index =>
          obtain ⟨mid, new, made, rewrite, inserted⟩ := current.insertChild_spec cptr here v
          refine ⟨mid.store location.p index (some new), ?_, tree.rewrite rewrite,
            inserted.holds absent held⟩
          simp only [tryInsert, found, here, cptr, current.unchanged live cptr, if_true, made]
      | none =>
          obtain ⟨g, parent⟩ := located.has_parent tree.sound cptr
          obtain ⟨after, done, kept, inserted⟩ := tree.addChild located cptr parent v
          refine ⟨after, ?_, kept, inserted.holds absent held⟩
          simp only [tryInsert, found, here, cptr, parent, done]

theorem tryRemove_simulates (noValue : V) {map : K → Option V} (holds : Holds heap map) (k : K) :
    ∃ next, tryRemove noValue k heap = (next, some (specStep noValue map (.remove k)).2) ∧
      Holds next (specStep noValue map (.remove k)).1 := by
  obtain ⟨tree, held⟩ := holds
  obtain ⟨location, p, found, located, current, live⟩ := tree.current k
  have stored (value : V) : map k = some value ↔ leafFind heap location.c k = some value := by
    rw [← held, current.below]
  cases here : leafFind heap location.c k with
  | none =>
      have absent : map k = none := by
        cases value : map k with
        | none => rfl
        | some old =>
            rw [(stored old).mp value] at here
            cases here
      simp only [specStep, absent]
      refine ⟨heap, ?_, tree, held⟩
      cases cptr : location.cptr with
      | none => simp only [tryRemove, found, cptr]
      | some index => simp only [tryRemove, found, cptr, here, current.unchanged live cptr, if_true]
  | some value =>
      have same := (stored value).mpr here
      obtain ⟨c, l, child, there, member⟩ := (leafFind_iff tree.leaves location.c k value).mp here
      obtain ⟨index, cptr⟩ : ∃ index, location.cptr = some index := by
        refine Option.ne_none_iff_exists'.mp fun missing => ?_
        rw [located.empty missing] at child
        cases child
      have answer := (find_some_iff (tree.leaves c l there).sorted k value).mpr member
      obtain ⟨rewrite, deleted⟩ := current.removeChild_spec cptr child there answer
      simp only [specStep, same]
      refine ⟨_, ?_, tree.rewrite rewrite, deleted.holds held⟩
      simp only [tryRemove, found, cptr, here, current.unchanged live cptr, if_true]
      simp only [child, Option.bind_some, there]

theorem attempt_simulates (noValue : V) :
    Simulates (attempt (K := K) noValue) noValue Holds fun _ _ => True := by
  intro heap map op holds _
  cases op with
  | insert k v => exact tryInsert_simulates noValue holds k v
  | remove k => exact tryRemove_simulates noValue holds k

end SetBench.Art
