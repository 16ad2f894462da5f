import SetBench.ArtEvery
import SetBench.MediumLeaf

/-! Whether a use of a leaf takes it for one from its own pool. The inserts and the
flushes of a split tell two pools apart by the size, the removes and new_leaf three, so
they disagree about the leaves of 3 to 6 pairs and about no others. -/
namespace SetBench.MediumLeaf

open Radix KeyVals Art MapSpec

variable {K V : Type} [RadixKey K]

/-- The sizes that the medium pool is for. -/
def Middle (n : Nat) : Prop := maxSmallLeafSize < n ∧ n ≤ maxMediumLeafSize

instance (n : Nat) : Decidable (Middle n) := inferInstanceAs (Decidable (_ ∧ _))

/-- Every use takes the leaf for one from its own pool. -/
def Agreed (uses : List Use) : Prop := ∀ use ∈ uses, use.taken = use.allocated

instance (uses : List Use) : Decidable (Agreed uses) :=
  inferInstanceAs (Decidable (∀ use ∈ uses, _))

theorem agreed_append (uses more : List Use) : Agreed (uses ++ more) ↔ Agreed uses ∧ Agreed more :=
  List.forall_mem_append

theorem agreed_cons (use : Use) (uses : List Use) :
    Agreed (use :: uses) ↔ use.taken = use.allocated ∧ Agreed uses :=
  List.forall_mem_cons

theorem agreed_one (use : Use) : Agreed [use] ↔ use.taken = use.allocated :=
  List.forall_mem_singleton

namespace Leaf

-- The two pools of try_insert, and of the flushes of its split.
def insertPool (n : Nat) : Pool := if maxSmallLeafSize < n then .big else .small

/-- The pool that a leaf of `n` pairs comes from, by the call that built it. -/
def builtIn (n : Nat) : Maker → Pool
  | .insert => insertPool n
  | .remove => poolOf n
  | .split => poolOf n

structure Ok (l : Leaf K V) : Prop where
  sorted : Sorted l.keyVals
  pool : l.pool = builtIn l.size l.maker

omit [RadixKey K] in
theorem size_eq (l : Leaf K V) : l.size = l.keyVals.length := rfl

theorem pools_agree (n : Nat) : insertPool n = poolOf n ↔ ¬ Middle n := by
  have order : maxSmallLeafSize < maxMediumLeafSize := by decide
  unfold insertPool poolOf Middle
  split <;> split <;> simp <;> omega

variable {l : Leaf K V} {k : K} {v : V}

theorem Ok.insert_agrees (ok : Ok l) :
    insertPool l.size = l.pool ↔ (Middle l.size → l.maker = .insert) := by
  rw [ok.pool]
  cases l.maker with
  | insert => simp [builtIn]
  | remove => simpa [builtIn] using pools_agree l.size
  | split => simpa [builtIn] using pools_agree l.size

theorem Ok.remove_agrees (ok : Ok l) :
    poolOf l.size = l.pool ↔ (Middle l.size → l.maker ≠ .insert) := by
  rw [ok.pool]
  cases l.maker with
  | insert => simpa [builtIn, eq_comm] using pools_agree l.size
  | remove => simp [builtIn]
  | split => simp [builtIn]

theorem single_ok (k : K) (v : V) : Ok (single k v) := ⟨List.pairwise_singleton _ _, rfl⟩

theorem add_ok (ok : Ok l) (absent : find l.keyVals k = none) {pool : Pool} (bytePos : Nat)
    (right : pool = insertPool (l.size + 1)) : Ok (add pool bytePos l k v) := by
  have fresh := (find_none_iff ok.sorted k).mp absent
  have length : (add pool bytePos l k v).size = l.size + 1 := length_insert _ _ _
  exact ⟨insert_sorted ok.sorted v fresh, by rw [length]; exact right⟩

theorem remove_keyVals (pool : Pool) (l : Leaf K V) (k : K) :
    (remove pool l k).keyVals = l.keyVals.filter fun kv => kv.1 ≠ k := by
  unfold remove
  split
  · rename_i empty
    exact empty.symm
  · rename_i start rest kept
    exact kept.symm

theorem remove_header (pool : Pool) (l : Leaf K V) (k : K) :
    (remove pool l k).pool = pool ∧ (remove pool l k).maker = .remove := by
  unfold remove
  split <;> exact ⟨rfl, rfl⟩

theorem remove_size (ok : Ok l) (found : find l.keyVals k = some v) (pool : Pool) :
    (remove pool l k).size = l.size - 1 := by
  have member := (find_some_iff ok.sorted k v).mp found
  rw [size_eq, remove_keyVals]
  exact Nat.eq_sub_of_add_eq (length_filter_ne ok.sorted.distinct member)

theorem remove_ok (ok : Ok l) (found : find l.keyVals k = some v) {pool : Pool}
    (right : pool = poolOf (l.size - 1)) : Ok (remove pool l k) := by
  obtain ⟨same, maker⟩ := remove_header pool l k
  refine ⟨?_, ?_⟩
  · rw [remove_keyVals]
    exact ok.sorted.filter _
  · rw [same, maker, remove_size ok found, right]
    rfl

theorem divide_ok {start : K × V} {rest : List (K × V)} (sorted : Sorted (start :: rest))
    (bytePos : Nat) :
    ∀ piece ∈ divide bytePos start rest, Ok piece := by
  intro piece member
  obtain ⟨group, held, rfl⟩ := List.mem_map.mp member
  exact ⟨sorted.sublist (splitLoop_sublist held), rfl⟩

end Leaf

/-! The calls. -/

/-- The leaf at the place where a call for `k` stores, as long as its slot is unchanged. -/
def target (heap : Heap K (Leaf K V)) (k : K) : Option (Location × Leaf K V) :=
  match findLocation heap k with
  | none => none
  | some location =>
      match location.c.bind heap.node with
      | some (.leaf l) => if unchanged heap location then some (location, l) else none
      | _ => none

/-- An insert into the leaf `l`: a leaf of middle size was built by an insert, and the
runs of a full one, divided by the byte at `bytePos`, are not of middle size. -/
structure GoodInsert (bytePos : Nat) (l : Leaf K V) (k : K) (v : V) : Prop where
  built : Middle l.size → l.maker = .insert
  divided : maxBigLeafSize ≤ l.size → ∀ start rest, insert l.keyVals k v = start :: rest →
    ∀ run ∈ splitLoop bytePos start [] rest, ¬ Middle (whole run).length

/-- What decides whether a call treats every leaf by its own pool. -/
def Fine (heap : Heap K (Leaf K V)) : Op K V → Prop
  | .insert k v =>
      ∀ found ∈ target heap k, find found.2.keyVals k = none →
        GoodInsert found.1.bytePos found.2 k v
  | .remove k => ∀ found ∈ target heap k, find found.2.keyVals k ≠ none →
      Middle found.2.size → found.2.maker ≠ .insert

variable {heap : Heap K (Leaf K V)} {k : K} {v : V} {change : Change K V}

omit [RadixKey K] in
theorem replace_agreed (heap : Heap K (Leaf K V)) (taken : Pool) (l new : Leaf K V) :
    Agreed (replace heap taken l new).uses ↔ taken = l.pool := by
  simp [replace, Agreed]

theorem pieces_agreed {start : K × V} {rest : List (K × V)} (bytePos : Nat) :
    Agreed ((Leaf.divide bytePos start rest).map flushPiece) ↔
      ∀ run ∈ splitLoop bytePos start [] rest, ¬ Middle (whole run).length := by
  have piece (run : (K × V) × List (K × V)) :
    (flushPiece (Leaf.newLeaf (bytePos + 1) run.1 run.2)).taken =
      (flushPiece (Leaf.newLeaf (bytePos + 1) run.1 run.2)).allocated ↔
      ¬ Middle (whole run).length :=
    Leaf.pools_agree (whole run).length
  simp only [Agreed, Leaf.divide, List.map_map, List.forall_mem_map, Function.comp, piece]

section Child

variable (leaves : Leaves Leaf.Ok heap)
include leaves

theorem insertChild_leaves {c : Option Addr} {bytePos : Nat} (absent : leafFind heap c k = none)
    (made : insertChild heap c bytePos k v = some change) : Leaves Leaf.Ok change.heap := by
  cases c with
  | none =>
      cases made
      exact leaves.alloc (Leaf.single_ok k v)
  | some c =>
      cases there : heap.node c with
      | none => simp [insertChild, there] at made
      | some node =>
          cases node with
          | inner q =>
              simp only [insertChild, there, Option.some.injEq] at made
              subst made
              exact leaves.cutEdge (Leaf.single_ok k v) c q.key bytePos k
          | leaf l =>
              have ok : Leaf.Ok l := leaves c l there
              have missing : find l.keyVals k = none := by simpa [leafFind, there] using absent
              simp only [insertChild, there] at made
              split at made
              · rename_i room
                cases made
                exact leaves.alloc (Leaf.add_ok ok missing bytePos
                  (if_neg (Nat.not_lt.mpr room)).symm)
              · split at made
                · rename_i exact_
                  cases made
                  exact leaves.alloc (Leaf.add_ok ok missing bytePos (if_pos (by omega)).symm)
                · split at made
                  · rename_i least _ _
                    cases made
                    exact leaves.alloc (Leaf.add_ok ok missing bytePos (if_pos (by omega)).symm)
                  · split at made
                    · cases made
                    · rename_i start rest sum
                      cases made
                      have sorted : Sorted (start :: rest) := by
                        rw [← sum]
                        exact insert_sorted ok.sorted v ((find_none_iff ok.sorted k).mp missing)
                      exact leaves.splitLeaf (Leaf.divide_ok sorted bytePos) bytePos start.1

theorem insertChild_agreed {c : Option Addr} {bytePos : Nat}
    (made : insertChild heap c bytePos k v = some change) :
    Agreed change.uses ↔ ∀ l, c.bind heap.node = some (.leaf l) → GoodInsert bytePos l k v := by
  cases c with
  | none =>
      cases made
      simp [agreed_one, Leaf.single]
  | some c =>
      cases there : heap.node c with
      | none => simp [insertChild, there] at made
      | some node =>
          cases node with
          | inner q =>
              simp only [insertChild, there, Option.some.injEq] at made
              subst made
              simp [there, agreed_one, Leaf.single]
          | leaf l =>
              have ok : Leaf.Ok l := leaves c l there
              have order : maxSmallLeafSize < maxBigLeafSize := by decide
              -- Below the split only the pool of `l` is in question.
              have good (room : l.size < maxBigLeafSize) : GoodInsert bytePos l k v ↔
                Leaf.insertPool l.size = l.pool := by
                rw [ok.insert_agrees]
                exact ⟨GoodInsert.built, fun built =>
                  ⟨built, fun full => absurd room (Nat.not_lt.mpr full)⟩⟩
              have one : (∀ m, (some c).bind heap.node = some (.leaf m) →
                GoodInsert bytePos m k v) ↔
                  GoodInsert bytePos l k v := by
                simp [there]
              rw [one]
              simp only [insertChild, there] at made
              split at made
              · rename_i room
                cases made
                rw [replace_agreed, good (room.trans order), Leaf.insertPool,
                  if_neg (Nat.not_lt.mpr room.le)]
              · split at made
                · rename_i exact_
                  cases made
                  rw [replace_agreed, good (exact_ ▸ order), Leaf.insertPool,
                    if_neg (Nat.not_lt.mpr exact_.le)]
                · split at made
                  · rename_i least other room
                    cases made
                    rw [replace_agreed, good room, Leaf.insertPool, if_pos (by omega)]
                  · split at made
                    · cases made
                    · rename_i full _ start rest sum
                      cases made
                      have large : Leaf.insertPool l.size = .big :=
                        if_pos (order.trans_le (Nat.le_of_not_lt full))
                      rw [agreed_append, agreed_cons, pieces_agreed, agreed_one, ← large,
                        ok.insert_agrees]
                      constructor
                      · rintro ⟨⟨built, runs⟩, _⟩
                        refine ⟨built, fun _ start' rest' same => ?_⟩
                        rw [sum] at same
                        cases same
                        exact runs
                      · intro good
                        exact ⟨⟨good.built, good.divided (Nat.le_of_not_lt full) start rest sum⟩,
                          good.built⟩

theorem removeChild_leaves {c : Addr} {l : Leaf K V} (there : heap.node c = some (.leaf l))
    (found : find l.keyVals k = some v) : Leaves Leaf.Ok (removeChild heap l k).heap := by
  have ok := leaves c l there
  have small : maxSmallLeafSize = 2 := rfl
  have medium : maxMediumLeafSize = 6 := rfl
  have put {pool : Pool} (taken : Pool) (right : pool = Leaf.poolOf (l.size - 1)) :
      Leaves Leaf.Ok (replace heap taken l (.remove pool l k)).heap :=
    leaves.alloc (Leaf.remove_ok ok found right)
  unfold removeChild
  split
  · exact leaves
  · split
    · exact put _ (by rw [Leaf.poolOf, if_pos (by omega)])
    · split
      · exact put _ (by rw [Leaf.poolOf, if_neg (by omega), if_pos (by omega)])
      · split
        · exact put _ (by rw [Leaf.poolOf, if_neg (by omega), if_pos (by omega)])
        · split
          · exact put _ (by rw [Leaf.poolOf, if_neg (by omega), if_neg (by omega)])
          · exact put _ (by rw [Leaf.poolOf, if_neg (by omega), if_neg (by omega)])

-- The branches of a remove assume the pool of new_leaf.
theorem removeChild_agreed {c : Addr} {l : Leaf K V} (there : heap.node c = some (.leaf l)) :
    Agreed (removeChild heap l k).uses ↔ (Middle l.size → l.maker ≠ .insert) := by
  have small : maxSmallLeafSize = 2 := rfl
  have medium : maxMediumLeafSize = 6 := rfl
  rw [← (leaves c l there).remove_agrees]
  unfold removeChild
  split
  · rename_i one
    rw [agreed_cons, agreed_one, and_self, one]
    rfl
  · split
    · rw [replace_agreed, Leaf.poolOf, if_pos (by omega)]
    · split
      · rw [replace_agreed, Leaf.poolOf, if_pos (by omega)]
      · split
        · rw [replace_agreed, Leaf.poolOf, if_neg (by omega), if_pos (by omega)]
        · split
          · rw [replace_agreed, Leaf.poolOf, if_neg (by omega), if_pos (by omega)]
          · rw [replace_agreed, Leaf.poolOf, if_neg (by omega), if_neg (by omega)]

end Child

/-! The attempts and the runs. -/

theorem attempt_leaves (noValue : V) (s : Memory K V) (op : Op K V)
    (leaves : Leaves Leaf.Ok s.heap) :
    Leaves Leaf.Ok (attempt noValue op s).1.heap := by
  cases op with
  | insert k v =>
      simp only [attempt, tryInsert]
      split
      · exact leaves
      · rename_i location found
        split
        · split <;> exact leaves
        · rename_i absent
          split
          · split
            · split
              · rename_i change made
                exact (insertChild_leaves leaves absent made).store _ _ _
              · exact leaves
            · exact leaves
          · split
            · exact leaves
            · split
              · rename_i after done
                exact leaves.addChild (Leaf.single_ok k v) done
              · exact leaves
  | remove k =>
      simp only [attempt, tryRemove]
      split
      · exact leaves
      · rename_i location found
        split
        · exact leaves
        · split
          · split <;> exact leaves
          · rename_i value here
            split
            · split
              · rename_i l there
                obtain ⟨c, _, held⟩ := Option.bind_eq_some_iff.mp there
                have answer : find l.keyVals k = some value := by simpa [leafFind, there] using here
                exact (removeChild_leaves leaves held answer).store _ _ _
              · exact leaves
            · exact leaves

theorem mem_target (heap : Heap K (Leaf K V)) (k : K) (found : Location × Leaf K V) :
    found ∈ target heap k ↔
    findLocation heap k = some found.1 ∧ found.1.c.bind heap.node = some (.leaf found.2) ∧
      unchanged heap found.1 = true := by
  unfold target
  cases findLocation heap k with
  | none => simp
  | some location =>
      obtain ⟨place, m⟩ := found
      cases there : location.c.bind heap.node with
      | none =>
          simp only [there, Option.mem_def, reduceCtorEq, Option.some.injEq, false_iff]
          rintro ⟨rfl, held, _⟩
          rw [there] at held
          cases held
      | some node =>
          cases node with
          | inner q =>
              simp only [there, Option.mem_def, reduceCtorEq, Option.some.injEq, false_iff]
              rintro ⟨rfl, held, _⟩
              rw [there] at held
              cases held
          | leaf l =>
              simp only [there, Option.mem_def, Option.ite_none_right_eq_some, Option.some.injEq,
                Prod.mk.injEq]
              constructor
              · rintro ⟨same, rfl, rfl⟩
                exact ⟨rfl, there, same⟩
              · rintro ⟨rfl, held, same⟩
                rw [there] at held
                cases held
                exact ⟨same, rfl, rfl⟩

theorem leafFind_leaf {c : Option Addr} {l : Leaf K V} (there : c.bind heap.node = some (.leaf l))
    (k : K) :
    leafFind heap c k = find l.keyVals k := by
  simp only [leafFind, there]

theorem leafFind_some {c : Option Addr} (found : leafFind heap c k = some v) :
    ∃ l, c.bind heap.node = some (.leaf l) := by
  unfold leafFind at found
  split at found
  · exact ⟨_, ‹_›⟩
  · cases found

theorem insertChild_leaf {c : Option Addr} {l : Leaf K V}
    (there : c.bind heap.node = some (.leaf l)) (bytePos : Nat) (k : K) (v : V) :
    insertChild heap c bytePos k v ≠ none := by
  obtain ⟨a, rfl, held⟩ := Option.bind_eq_some_iff.mp there
  simp only [insertChild, held]
  split
  · simp
  · split
    · simp
    · split
      · simp
      · split
        · rename_i empty
          have length := length_insert l.keyVals k v
          rw [empty] at length
          cases length
        · simp

theorem fine_insert {location : Location} (found : findLocation heap k = some location) (v : V) :
    Fine heap (.insert k v) ↔ (unchanged heap location = true → leafFind heap location.c k = none →
      ∀ l, location.c.bind heap.node = some (.leaf l) → GoodInsert location.bytePos l k v) := by
  constructor
  · intro fine same absent l there
    have held := (mem_target heap k (location, l)).mpr ⟨found, there, same⟩
    exact fine (location, l) held ((leafFind_leaf there k).symm.trans absent)
  · rintro good ⟨place, l⟩ held missing
    obtain ⟨here, there, same⟩ := (mem_target heap k _).mp held
    cases found.symm.trans here
    exact good same ((leafFind_leaf there k).trans missing) l there

theorem fine_remove {location : Location} (found : findLocation heap k = some location) :
    Fine heap (.remove k) ↔ (unchanged heap location = true → leafFind heap location.c k ≠ none →
      ∀ l, location.c.bind heap.node = some (.leaf l) → Middle l.size → l.maker ≠ .insert) := by
  constructor
  · intro fine same here l there
    have held := (mem_target heap k (location, l)).mpr ⟨found, there, same⟩
    exact fine (location, l) held ((leafFind_leaf there k).symm.trans_ne here)
  · rintro good ⟨place, l⟩ held present
    obtain ⟨here, there, same⟩ := (mem_target heap k _).mp held
    cases found.symm.trans here
    exact good same ((leafFind_leaf there k).trans_ne present) l there

theorem fine_lost (lost : findLocation heap k = none) :
    Fine heap (.insert k v) ∧ Fine heap (.remove k) := by
  have missed : target heap k = none := by rw [target, lost]
  constructor
  · intro found held
    rw [missed] at held
    cases held
  · intro found held
    rw [missed] at held
    cases held

omit [RadixKey K] in
-- Without a slot the place of the search is never the one of a store.
theorem unchanged_slot {location : Location} (missing : location.cptr = none) :
    unchanged heap location = false := by
  unfold unchanged
  rw [missing]
  split <;> simp_all

theorem tryInsert_agreed (noValue : V) (s : Memory K V) (leaves : Leaves Leaf.Ok s.heap) :
    Agreed (tryInsert noValue k v s).1.uses ↔ Agreed s.uses ∧ Fine s.heap (.insert k v) := by
  cases found : findLocation s.heap k with
  | none => simp only [tryInsert, found, (fine_lost found).1, and_true]
  | some location =>
      rw [fine_insert found]
      cases here : leafFind s.heap location.c k with
      | some value => cases same : unchanged s.heap location <;> simp [tryInsert, found, here, same]
      | none =>
          cases cptr : location.cptr with
          | some index =>
              cases same : unchanged s.heap location with
              | false => simp [tryInsert, found, here, cptr, same]
              | true =>
                  cases made : insertChild s.heap location.c location.bytePos k v with
                  | none =>
                      have none_ (l : Leaf K V) : location.c.bind s.heap.node ≠ some (.leaf l) :=
                        fun there =>
                        insertChild_leaf there location.bytePos k v made
                      simp [tryInsert, found, here, cptr, same, made, none_]
                  | some change =>
                      simp only [tryInsert, found, here, cptr, same, made, if_true, Memory.link,
                        agreed_append,
                        insertChild_agreed leaves made, forall_const]
          | none =>
              have fine : Agreed [⟨.flush, (Leaf.single k v).pool, .small⟩] :=
                (agreed_one _).mpr rfl
              simp only [tryInsert, found, here, cptr, unchanged_slot cptr, Bool.false_eq_true,
                false_implies, and_true]
              split
              · rfl
              · split
                · simp only [agreed_append, fine, and_true]
                · rfl

theorem tryRemove_agreed (noValue : V) (s : Memory K V) (leaves : Leaves Leaf.Ok s.heap) :
    Agreed (tryRemove noValue k s).1.uses ↔ Agreed s.uses ∧ Fine s.heap (.remove k) := by
  cases found : findLocation s.heap k with
  | none => simp only [tryRemove, found, (fine_lost (v := noValue) found).2, and_true]
  | some location =>
      rw [fine_remove found]
      cases cptr : location.cptr with
      | none => simp [tryRemove, found, cptr, unchanged_slot cptr]
      | some index =>
          cases here : leafFind s.heap location.c k with
          | none =>
              cases same : unchanged s.heap location <;> simp [tryRemove, found, cptr, here, same]
          | some value =>
              cases same : unchanged s.heap location with
              | false => simp [tryRemove, found, cptr, here, same]
              | true =>
                  obtain ⟨l, there⟩ := leafFind_some here
                  obtain ⟨c, _, held⟩ := Option.bind_eq_some_iff.mp there
                  simp only [tryRemove, found, cptr, here, same, there, if_true, Memory.link,
                    agreed_append,
                    removeChild_agreed leaves held]
                  simp

/-- One attempt agrees with the pools exactly when the call is fine. -/
theorem attempt_agreed (noValue : V) (s : Memory K V) (op : Op K V)
    (leaves : Leaves Leaf.Ok s.heap) :
    Agreed (attempt noValue op s).1.uses ↔ Agreed s.uses ∧ Fine s.heap op := by
  cases op with
  | insert k v => exact tryInsert_agreed noValue s leaves
  | remove k => exact tryRemove_agreed noValue s leaves

-- A retry leaves the tree and the uses as they are.
theorem attempt_retry (noValue : V) (s : Memory K V) (op : Op K V)
    (again : (attempt noValue op s).2 = none) :
    (attempt noValue op s).1 = s := by
  cases op with
  | insert k v =>
      simp only [attempt, tryInsert] at again ⊢
      repeat' split
      all_goals simp_all
  | remove k =>
      simp only [attempt, tryRemove] at again ⊢
      repeat' split
      all_goals simp_all

theorem empty_leaves (junk : K) : Leaves Leaf.Ok (empty junk : Memory K V).heap := by
  intro x l there
  cases (emptyTree_only junk there).2

/-- In a run from the empty tree every flush, every capacity decision and every retire
takes its leaf for one from the pool it came from exactly when every call is fine. -/
theorem pools_kept_iff (junk : K) (noValue : V) (rounds : Nat) (ops : List (Op K V)) :
    Agreed (runOps (attempt noValue) (rounds + 1) ops (empty junk)).1.uses ↔
      Along (attempt noValue) (fun s op => Fine s.heap op) (rounds + 1) ops (empty junk) := by
  have exact_ := @run_keeps_iff _ _ _ (attempt noValue) _ (fun s : Memory K V => Agreed s.uses) _
    (attempt_leaves noValue) (attempt_agreed noValue) (attempt_retry noValue) rounds ops _
    (empty_leaves junk)
  have start : Agreed (empty junk : Memory K V).uses := List.forall_mem_nil _
  rw [exact_, and_iff_right start]

-- Three inserts build a big leaf, which the remove retires as a medium one.
def shrunkLeaf : List (Op Key Nat) := [.insert 1 1, .insert 2 1, .insert 3 1, .remove 3]

theorem shrunk_leaf_disagrees :
    ¬ Agreed (runOps (attempt 0) 1 shrunkLeaf (empty (0 : Key))).1.uses := by
  decide +kernel

-- A leaf that grows past the middle sizes before it shrinks meets only its own pools.
example : Agreed (runOps (attempt 0) 1
    (((List.range 8).map fun i => .insert (Fin.ofNat (2 ^ 64) i) 1) ++
    (List.range 8).map fun i => .remove (Fin.ofNat (2 ^ 64) i)) (empty (0 : Key))).1.uses := by
  decide +kernel

end SetBench.MediumLeaf
