import SetBench.DoubleLogMap
import SetBench.SingleLogTree

/-! The shape of the single-log tree: whatever the values, every attempt whose split is
separable keeps the tree one that searches and range queries find their way in. -/
namespace SetBench.SingleLog

open Radix KeyVals Art MapSpec

variable {K V : Type} [RadixKey K]

/-- How many pairs the array of a leaf has, by its kind. -/
def Sized (l : Leaf K V) : Prop :=
  if l.isLog then maxSmallLeafSize < l.size ∧ l.size ≤ maxBigLeafSize
  else 0 < l.size ∧ l.size ≤ maxSmallLeafSize

def Built (m : TreeLeaf K V) : Prop := Leaf.Ok m.leaf ∧ Sized m.leaf

structure Tree (heap : Heap K (TreeLeaf K V)) : Prop where
  sound : Sound 1 maxSparseSize heap
  leaves : Leaves Built heap
  linked : Linked heap

/-! The sizes of the copies. -/

section Sizes

variable {l copy : Leaf K V} {k : K} (ok : Leaf.Ok l) (sized : Sized l)
include ok sized

theorem insertBody_sized (absent : ¬ Has l.contents k) {bytePos : Nat} {v : V}
    (made : insertBody bytePos (some l) k v = .copy copy) : Sized copy := by
  have small : maxSmallLeafSize = 2 := rfl
  have big : maxBigLeafSize = 14 := rfl
  simp only [insertBody] at made
  cases kind : l.isLog with
  | false =>
      rw [Sized, kind, if_neg Bool.false_ne_true] at sized
      simp only [kind, Bool.false_eq_true, if_false, Outcome.copy.injEq] at made
      subst made
      have length := length_insert l.keyVals k v
      have size : l.keyVals.length = l.size := rfl
      by_cases room : l.size < maxSmallLeafSize
      · have plain : decide (¬ l.size < maxSmallLeafSize) = false := by simpa using room
        rw [plain, Sized, if_neg Bool.false_ne_true, Leaf.size, length]
        omega
      · have log : decide (¬ l.size < maxSmallLeafSize) = true := by simpa using room
        rw [log, Sized, if_pos rfl, Leaf.size, length]
        omega
  | true =>
      rw [Sized, kind, if_pos rfl] at sized
      cases held : l.log with
      | none => simp [kind, held] at made
      | some log =>
          simp only [kind, held, if_true] at made
          rw [Leaf.contents_some held] at absent
          have length := (insertLogged_lists ok.sorted (ok.logged log held) absent v).2
          have eq := cowAdd_eq ok.sorted (ok.logged log held) absent v
          split at made
          · rename_i room
            cases made
            have size : l.keyVals.length = l.size := rfl
            simp only [Sized, Leaf.size, if_true, eq]
            simp only [Leaf.realSize] at room
            split
            · exact sized
            · cases deletes : log.isDelete <;> simp only [deletes, if_true, Bool.false_eq_true,
                if_false] at length room <;> omega
          · cases made

theorem removeBody_sized (present : Has l.contents k) {noValue : V}
    (made : removeBody noValue l k = .copy copy) : Sized copy := by
  have small : maxSmallLeafSize = 2 := rfl
  have big : maxBigLeafSize = 14 := rfl
  have size : l.keyVals.length = l.size := rfl
  simp only [removeBody] at made
  cases kind : l.isLog with
  | false =>
      rw [Sized, kind, if_neg Bool.false_ne_true] at sized
      rw [Leaf.contents_none (ok.small kind)] at present
      obtain ⟨v, member⟩ := present
      have length := length_without ok.sorted member
      simp only [kind, Bool.false_eq_true, if_false] at made
      split at made
      · cases made
      · cases made
        simp only [Sized, Leaf.size, Bool.false_eq_true, if_false, List.length_take]
        omega
  | true =>
      rw [Sized, kind, if_pos rfl] at sized
      cases held : l.log with
      | none => simp [kind, held] at made
      | some log =>
          simp only [kind, held, if_true, Outcome.copy.injEq] at made
          subst made
          rw [Leaf.contents_some held] at present
          have length := (cowRemove_lists ok.sorted (ok.logged log held) present).2
          have shorter : (cowRemove l.keyVals log k).length = l.realSize log - 1 := by
            simp only [Leaf.realSize]
            split at length <;> rename_i deletes <;> simp only [deletes, if_true,
              Bool.false_eq_true, if_false] <;> omega
          have least : maxSmallLeafSize ≤ l.realSize log ∧ l.realSize log ≤ maxBigLeafSize + 1 := by
            simp only [Leaf.realSize]
            split <;> omega
          change if _ then maxSmallLeafSize < (cowRemove l.keyVals log k).length ∧
            _ else 0 < (cowRemove l.keyVals log k).length ∧ _
          rw [Leaf.size, shorter]
          split <;> rename_i newSize <;> simp only [decide_eq_true_eq, not_not] at newSize <;> omega

end Sizes

/-! What each outcome says about the leaf. -/

section Outcomes

variable {l : Leaf K V} {k : K} {v noValue : V} {bytePos : Nat}

theorem insertBody_append {e : LogEntry K V} (made : insertBody bytePos (some l) k v = .append e) :
    l.log = none ∧ e.key = k := by
  simp only [insertBody] at made
  split at made
  · split at made
    · rename_i empty
      cases made
      exact ⟨empty, rfl⟩
    · split at made <;> cases made
  · cases made

theorem insertBody_divide {leaves : List (Leaf K V)}
    (made : insertBody bytePos (some l) k v = .divide leaves) :
    ∃ log, l.isLog = true ∧ l.log = some log ∧ ¬ l.realSize log < maxBigLeafSize ∧
      leaves = divide bytePos (insertLogged l.keyVals log k v) := by
  simp only [insertBody] at made
  split at made
  · rename_i kind
    split at made
    · cases made
    · rename_i log logged
      split at made
      · cases made
      · rename_i full
        cases made
        exact ⟨log, kind, logged, full, rfl⟩
  · cases made

theorem removeBody_append {e : LogEntry K V} (made : removeBody noValue l k = .append e) :
    l.log = none ∧ e.key = k := by
  simp only [removeBody] at made
  split at made
  · split at made
    · rename_i empty
      cases made
      exact ⟨empty, rfl⟩
    · cases made
  · split at made <;> cases made

theorem removeBody_copy {copy : Leaf K V} (made : removeBody noValue l k = .copy copy) :
    copy.log = none := by
  simp only [removeBody] at made
  split at made
  · split at made
    · cases made
    · cases made
      rfl
  · split at made
    · cases made
    · cases made
      rfl

theorem headed_spec (key : K) (empty : l.log = none) (sized : Sized l) {pos : Nat}
    (below : pos < bytePos) (inside : pos < RadixKey.size K) :
    (TreeLeaf.headed bytePos key l).leaf = l ∧ Has l.contents (TreeLeaf.headed bytePos key l).key ∧
      pos < (TreeLeaf.headed bytePos key l).byteNum := by
  rw [Leaf.contents_none empty]
  unfold TreeLeaf.headed
  cases pairs : l.keyVals with
  | nil =>
      have none_ : l.size = 0 := by rw [Leaf.size, pairs]; rfl
      simp only [Sized, none_] at sized
      split at sized <;> omega
  | cons start rest => exact ⟨rfl, ⟨start.2, .head _⟩, firstDiff_deep start rest below inside⟩

end Outcomes

-- The keys of a copy are those that the outcome holds.
theorem Holds.copy {c : Option (Leaf K V)} {copy : Leaf K V} {P : K → Prop}
    {outcome : Outcome K V} (holds : Holds (outcome.leaves c) P) (made : outcome = .copy copy) :
    Leaf.Ok copy ∧ ∀ k, Has copy.contents k ↔ P k := by
  subst made
  have same : together [copy] = copy.contents := by simp [together]
  exact ⟨holds.ok copy (.head _), fun k => by rw [← same]; exact holds.has k⟩

variable {heap after : Heap K (TreeLeaf K V)} {k : K} {v : V} {location : Location} {p : Inner K}
    {index : Nat}

theorem Tree.rewrite {a : Addr} (tree : Tree heap)
    (rewrite : Rewrite 1 maxSparseSize heap after a none Built) : Tree after :=
  ⟨rewrite.sound, rewrite.leaves tree.leaves,
    fun _ _ there => rewrite.linked (fun x q was _ => tree.linked x q was) there (by simp)⟩

omit [RadixKey K] in
theorem leafAt_some {c : Option Addr} {found : Addr × TreeLeaf K V} :
    leafAt heap c = some found ↔ c = some found.1 ∧ heap.node found.1 = some (.leaf found.2) := by
  unfold leafAt
  cases c with
  | none => simp
  | some c =>
      simp only [Option.some.injEq]
      constructor
      · intro held
        split at held
        · rename_i m there
          cases held
          exact ⟨rfl, there⟩
        · cases held
      · rintro ⟨rfl, there⟩
        simp only [there]

theorem leafFind_iff (leaves : Leaves Built heap) (c : Option Addr) (k : K) (v : V) :
    leafFind heap c k = some v ↔
      ∃ c' m, c = some c' ∧ heap.node c' = some (.leaf m) ∧ (k, v) ∈ RadixLeaf.pairs m := by
  rw [leafFind, Option.bind_eq_some_iff]
  constructor
  · rintro ⟨found, held, answer⟩
    obtain ⟨same, there⟩ := leafAt_some.mp held
    exact ⟨found.1, found.2, same, there, ((leaves _ _ there).1.find_iff k v).mp answer⟩
  · rintro ⟨c', m, rfl, there, member⟩
    exact ⟨(c', m), leafAt_some.mpr ⟨rfl, there⟩, ((leaves _ _ there).1.find_iff k v).mpr member⟩

/-! The writes, at the place of a search. -/

section Body

variable (tree : Tree heap) (placed : Placed 1 maxSparseSize heap k location p)
include tree placed

section Leaf

variable {c : Addr} {m : TreeLeaf K V} (held : location.c = some c)
    (there : heap.node c = some (.leaf m))
include held there

omit tree in
theorem keys_fit {entries : List (K × V)}
    (keys : ∀ k', Has entries k' → k' = k ∨ Has m.leaf.contents k') :
    ∀ entry ∈ entries, Agree entry.1 p.key p.byteNum ∧ RadixKey.byte entry.1 p.byteNum =
      RadixKey.byte k p.byteNum := by
  intro entry member
  rcases keys entry.1 ⟨entry.2, member⟩ with same | ⟨v, old⟩
  · exact placed.pair_fits held there entry (.inr same)
  · exact placed.pair_fits held there (entry.1, v) (.inl old)

theorem append_tree {e : LogEntry K V} (mine : e.key = k) (free : m.leaf.log = none)
    (ok : Leaf.Ok (m.append e).leaf) :
    Tree (heap.putLeaf c (m.append e)) := by
  have sound : Sound 1 maxSparseSize (heap.putLeaf c (m.append e)) := by
    refine placed.append_sound held there tree.linked rfl rfl fun entry member => ?_
    have member : entry ∈ e.applyTo m.leaf.keyVals := member
    change entry ∈ m.leaf.contents ∨ _
    rw [Leaf.contents_none free]
    cases deletes : e.isDelete with
    | true => exact .inl ((LogEntry.mem_delete deletes entry).mp member).1
    | false =>
        refine ((LogEntry.mem_insert deletes entry).mp member).imp id fun same => ?_
        rw [same]
        exact mine
  refine ⟨sound, fun x m' here => ?_, putLeaf_linked there tree.linked⟩
  rw [putLeaf_node] at here
  split at here
  · cases here
    exact ⟨ok, (tree.leaves c m there).2⟩
  · exact tree.leaves x m' here

variable (cptr : location.cptr = some index)
include cptr

theorem swap_tree {m' : TreeLeaf K V} (built : Built m') (deep : p.byteNum < m'.byteNum)
    (header : m'.key = m.key ∨ Has m'.leaf.contents m'.key)
    (keys : ∀ k', Has m'.leaf.contents k' → k' = k ∨ Has m.leaf.contents k') :
    Tree (link location.p index (heap.alloc (.leaf m'))) := by
  have fit := keys_fit placed held there keys
  have fits : Fits p (RadixKey.byte k p.byteNum) (.leaf m' : Node K (TreeLeaf K V)) := by
    refine ⟨deep, fit, ?_⟩
    rcases header with same | ⟨v, member⟩
    · change Agree m'.key _ _ ∧ RadixKey.byte m'.key _ = _
      rw [same]
      exact (placed.fits held there).2.2
    · exact fit _ member
  obtain ⟨rewrite, _⟩ := (placed.slot cptr).put_leaf fits fun _ => placed.only_leaf held there
  exact tree.rewrite (rewrite.mono fun _ same => same ▸ built)

theorem split_tree {pairs : List (K × V)} (sorted : Sorted pairs) (two : 2 ≤ pairs.length)
    (most : pairs.length ≤ maxSparseSize)
    (keys : ∀ k', Has pairs k' → k' = k ∨ Has m.leaf.contents k')
    (agree : ∀ one ∈ pairs, ∀ other ∈ pairs, Agree one.1 other.1 location.bytePos)
    (thin : DoubleLog.Leaf.Thin location.bytePos pairs) {built : Heap K (TreeLeaf K V) × Addr}
    (made : sparseOver heap location.bytePos
      ((divide location.bytePos pairs).map fun l => TreeLeaf.headed (location.bytePos + 1) m.key
      l) = some built) :
    Tree (link location.p index built) := by
  have inside := DoubleLog.inside_of_agree sorted two agree
  match pairs, two with
  | start :: rest, _ =>
      have whole_ : (divide location.bytePos (start :: rest)).map
        (fun l => TreeLeaf.headed (location.bytePos + 1) m.key l) =
          (splitLoop location.bytePos start [] rest).map fun group =>
          TreeLeaf.headed (location.bytePos + 1) m.key (newLeaf group) := by
        rw [divide, List.map_map]
        rfl
      rw [whole_] at made
      have divided : Divided location.bytePos start.1
        ((splitLoop location.bytePos start [] rest).map fun group =>
          TreeLeaf.headed (location.bytePos + 1) m.key (newLeaf group)) := by
        refine runs_divided (fun _ => rfl) (fun _ => rfl) sorted
          (fun kv listed => agree kv listed start (.head _)) fun group _ => ?_
        exact firstDiff_deep group.1 group.2 (Nat.lt_succ_self _) inside
      have length := splitLoop_length location.bytePos start [] rest
      obtain ⟨tail, others, front⟩ := splitLoop_head location.bytePos start [] rest
      have first := keys_fit placed held there keys start (.head _)
      have new : ∀ m' ∈ (splitLoop location.bytePos start [] rest).map fun group =>
          TreeLeaf.headed (location.bytePos + 1) m.key (newLeaf group), Built m' := by
        intro m' member
        obtain ⟨group, listed, rfl⟩ := List.mem_map.mp member
        have few := DoubleLog.Leaf.group_length thin listed
        have big : DoubleLog.maxBigLeafSize = maxBigLeafSize := rfl
        refine ⟨Leaf.plain_ok (List.Pairwise.sublist (splitLoop_sublist listed) sorted), ?_⟩
        change Sized (newLeaf group)
        simp only [Sized, newLeaf, Leaf.size, decide_eq_true_eq]
        split
        · rename_i log
          exact ⟨log, by omega⟩
        · rename_i plain
          exact ⟨Nat.succ_pos _, by omega⟩
      obtain ⟨rewrite, _⟩ := (placed.slot cptr).split divided inside
        (by rw [List.length_map, front]; exact Nat.succ_pos _)
        (by rw [List.length_map]; simp only [List.length_cons] at most; omega)
        (placed.leaf_deep held there) first.1 first.2
        fun _ => placed.only_leaf held there
      have kept := tree.rewrite (rewrite.mono new)
      rw [front] at made kept
      cases made
      exact kept

end Leaf

variable (cptr : location.cptr = some index)
include cptr

theorem writeInsert_tree (found : findLocation heap k = some location)
    (missing : leafFind heap location.c k = none) (separable : Separable heap (.insert k v))
    (done : writeInsert heap location index k v = some after) : Tree after := by
  have new : Built (TreeLeaf.single k v) :=
    ⟨Leaf.plain_ok (List.pairwise_singleton _ _), Nat.one_pos, Nat.le_succ 1⟩
  have one : OneKey (TreeLeaf.single k v) k v p.byteNum :=
    ⟨rfl, rfl, (placed.sound.ok _ _ placed.seen.here).2⟩
  unfold writeInsert at done
  cases held : location.c with
  | none =>
      simp only [held, Option.some.injEq] at done
      subst done
      obtain ⟨rewrite, _⟩ := placed.insert_null cptr held one
      exact tree.rewrite (rewrite.mono fun _ same => same ▸ new)
  | some c =>
      obtain ⟨node, there, _⟩ := placed.seen.stop c held
      cases node with
      | inner q =>
          simp only [held, there, Option.some.injEq] at done
          subst done
          obtain ⟨parts, early⟩ := placed.seen.parts held there (placed.fits held there)
          obtain ⟨rewrite, _⟩ := (placed.slot cptr).cut (by decide) (by decide) (placed.edge held)
            there parts early (⟨rfl, rfl, parts.lt_size⟩ : OneKey (TreeLeaf.single k v) k v
              location.bytePos)
          exact tree.rewrite (rewrite.mono fun _ same => same ▸ new)
      | leaf m =>
          obtain ⟨ok, sized⟩ := tree.leaves c m there
          have absent : ¬ Has m.leaf.contents k := by
            rintro ⟨v', member⟩
            rw [held, (leafFind_iff tree.leaves (some c) k v').mpr
              ⟨c, m, rfl, there, member⟩] at missing
            cases missing
          have holds := insertBody_holds (c := some m.leaf) location.bytePos v
            (by rintro _ ⟨⟩; exact ok) (by rintro _ ⟨⟩; exact absent)
          have before : together (some m.leaf).toList = m.leaf.contents := by simp [together]
          rw [before] at holds
          simp only [held, there] at done
          cases outcome : insertBody location.bytePos (some m.leaf) k v with
          | append e =>
              obtain ⟨free, mine⟩ := insertBody_append outcome
              rw [outcome] at holds
              simp only [outcome, Option.some.injEq] at done
              subst done
              exact append_tree tree placed held there mine free (holds.ok _ (.head _))
          | copy l =>
              obtain ⟨ok', keys⟩ := holds.copy outcome
              simp only [outcome, Option.some.injEq] at done
              subst done
              exact swap_tree tree placed held there cptr
                ⟨ok', insertBody_sized ok sized absent outcome⟩ (placed.leaf_deep held there)
                (.inl rfl) fun k' => (keys k').mp
          | divide leaves =>
              obtain ⟨log, kind, logged, full, rfl⟩ := insertBody_divide outcome
              have answer : m.leaf.find k = none := by
                cases value : m.leaf.find k with
                | none => rfl
                | some v' => exact absurd ⟨v', (ok.find_iff k v').mp value⟩ absent
              have handed_ : handed heap (.insert k v) =
                some (location.bytePos, insertLogged m.leaf.keyVals log k v) := by
                simp [handed, found, held, leafAt, there, logged, kind, answer, full]
              obtain ⟨agree, thin⟩ := separable _ handed_
              rw [Leaf.contents_some logged] at absent
              obtain ⟨sorted, keys⟩ := insertLogged_spec ok.sorted (ok.logged log logged) absent v
              have length := (insertLogged_lists ok.sorted (ok.logged log logged) absent v).2
              rw [Sized, kind, if_pos rfl] at sized
              have small : maxSmallLeafSize = 2 := rfl
              have big : maxBigLeafSize = 14 := rfl
              have sparse : maxSparseSize = 16 := rfl
              have size : m.leaf.keyVals.length = m.leaf.size := rfl
              simp only [outcome, Option.map_eq_some_iff] at done
              obtain ⟨built, made, rfl⟩ := done
              refine split_tree tree placed held there cptr sorted ?_ ?_ ?_ agree thin made
              · split at length <;> omega
              · split at length <;> omega
              · intro k' has
                rw [Leaf.contents_some logged]
                exact (keys k').mp has
          | clear => simp [outcome] at done

theorem writeRemove_tree {noValue value : V} {c : Addr} {m : TreeLeaf K V}
    (held : location.c = some c) (there : heap.node c = some (.leaf m))
    (here : m.leaf.find k = some value)
    (done : writeRemove noValue heap location index c m k = some after) : Tree after := by
  obtain ⟨ok, sized⟩ := tree.leaves c m there
  have present : Has m.leaf.contents k := ⟨value, (ok.find_iff k value).mp here⟩
  have holds := removeBody_holds noValue ok present
  unfold writeRemove at done
  cases outcome : removeBody noValue m.leaf k with
  | append e =>
      obtain ⟨free, mine⟩ := removeBody_append outcome
      rw [outcome] at holds
      simp only [outcome, Option.some.injEq] at done
      subst done
      exact append_tree tree placed held there mine free (holds.ok _ (.head _))
  | copy l =>
      obtain ⟨ok', keys⟩ := holds.copy outcome
      have sized' := removeBody_sized ok sized present outcome
      simp only [outcome, Option.some.injEq] at done
      subst done
      have below : p.byteNum < m.byteNum := (placed.fits held there).1
      obtain ⟨same, key, deep⟩ := headed_spec m.key (removeBody_copy outcome) sized' below
        (placed.sound.ok _ _ placed.seen.here).2
      refine swap_tree tree placed held there cptr ?_ deep (.inr ?_) ?_
      · rw [Built, same]
        exact ⟨ok', sized'⟩
      · rw [same]
        exact key
      · intro k' has
        rw [same] at has
        exact .inr ((keys k').mp has).2
  | divide leaves => simp [outcome] at done
  | clear =>
      simp only [outcome, Option.some.injEq] at done
      subst done
      obtain ⟨rewrite, _⟩ := (placed.slot cptr).clear fun _ => placed.only_leaf held there
      exact tree.rewrite (rewrite.mono fun _ => False.elim)

end Body

/-! Whole calls and runs. -/

theorem Tree.placed (tree : Tree heap) (k : K) : ∃ location p, findLocation heap k = some location ∧
    Located heap k location p ∧ Placed 1 maxSparseSize heap k location p := by
  obtain ⟨location, p, found, located⟩ := findLocation_located tree.sound k
  exact ⟨location, p, found, located, located.placed tree.sound⟩

theorem tryInsert_tree (noValue : V) (tree : Tree heap) (separable : Separable heap (.insert k v)) :
    Tree (tryInsert noValue k v heap).1 := by
  obtain ⟨location, p, found, located, placed⟩ := tree.placed k
  simp only [tryInsert, found]
  cases here : leafFind heap location.c k with
  | some value =>
      simp only
      split <;> exact tree
  | none =>
      simp only
      cases cptr : location.cptr with
      | some index =>
          simp only
          split
          · cases done : writeInsert heap location index k v with
            | none => exact tree
            | some after => exact writeInsert_tree tree placed cptr found here separable done
          · exact tree
      | none =>
          simp only
          cases parent : location.gp with
          | none => exact tree
          | some gp =>
              have new : Built (TreeLeaf.single k v) :=
                ⟨Leaf.plain_ok (List.pairwise_singleton _ _), Nat.one_pos, Nat.le_succ 1⟩
              obtain ⟨after, done, sound, leaves, linked, _⟩ :=
                located.addChild_retired tree.sound tree.linked cptr parent (by decide)
                (⟨rfl, rfl, (placed.sound.ok _ _ placed.seen.here).2⟩ : OneKey (TreeLeaf.single k v)
                  k v p.byteNum) tree.leaves new
              simp only [done]
              exact ⟨sound, leaves, linked⟩

theorem tryRemove_tree (noValue : V) (tree : Tree heap) : Tree (tryRemove noValue k heap).1 := by
  obtain ⟨location, p, found, located, placed⟩ := tree.placed k
  simp only [tryRemove, found]
  cases cptr : location.cptr with
  | none => exact tree
  | some index =>
      simp only
      cases here : leafFind heap location.c k with
      | none =>
          simp only
          split <;> exact tree
      | some value =>
          obtain ⟨c, m, held, there, member⟩ :=
            (leafFind_iff tree.leaves location.c k value).mp here
          have answer := ((tree.leaves c m there).1.find_iff k value).mpr member
          simp only
          split
          · have found_ : leafAt heap (some c) = some (c, m) := leafAt_some.mpr ⟨rfl, there⟩
            rw [held, found_, Option.bind_some]
            cases done : writeRemove noValue heap location index c m k with
            | none => exact tree
            | some after => exact writeRemove_tree tree placed cptr held there answer done
          · exact tree

theorem attempt_tree (noValue : V) (heap : Heap K (TreeLeaf K V)) (op : Op K V) (tree : Tree heap)
    (separable : Separable heap op) :
    Tree (attempt noValue op heap).1 := by
  cases op with
  | insert k v => exact tryInsert_tree noValue tree separable
  | remove k => exact tryRemove_tree noValue tree

theorem attempt_retry (noValue : V) (heap : Heap K (TreeLeaf K V)) (op : Op K V)
    (retry : (attempt noValue op heap).2 = none) :
    (attempt noValue op heap).1 = heap := by
  cases op with
  | insert k v =>
      simp only [attempt, tryInsert] at retry ⊢
      repeat' split at retry
      all_goals first
        | rfl
        | (rename_i changed; rw [if_neg changed])
        | (cases retry; split <;> rfl)
        | cases retry
  | remove k =>
      simp only [attempt, tryRemove] at retry ⊢
      repeat' split at retry
      all_goals first
        | rfl
        | (rename_i changed; rw [if_neg changed])
        | (cases retry; split <;> rfl)
        | cases retry

theorem emptyTree_tree (junk : Key) : Tree (emptyTree junk : Heap Key (TreeLeaf Key V)) := by
  refine ⟨emptyTree_sound junk (Nat.succ_pos 7), ?_, ?_⟩
  · intro x m there
    cases (emptyTree_only junk there).2
  · intro x q there
    obtain ⟨rfl, same⟩ := emptyTree_only junk there
    cases same
    exact ⟨rfl, .refl root⟩

/-- Every tree of a run whose splits are separable. -/
theorem run_tree (junk : Key) (noValue : V) (rounds : Nat) (ops : List (Op Key V))
    (separable : Along (attempt noValue) Separable rounds ops (emptyTree junk)) :
    Tree (runOps (attempt noValue) rounds ops (emptyTree junk)).1 :=
  run_keeps (attempt_tree noValue) (attempt_retry noValue) rounds ops (emptyTree_tree junk)
    separable

end SetBench.SingleLog
