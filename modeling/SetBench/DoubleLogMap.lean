import SetBench.DoubleLogTree

/-! art_double_log_leaves.h as a sequential map. As long as every split is separable the
tree answers like the map; one that is not leaves a key behind. -/
namespace SetBench.DoubleLog

open Radix KeyVals Art MapSpec

variable {K V : Type} [RadixKey K]

structure Tree (heap : Heap K (Leaf K V)) : Prop where
  sound : Sound 1 maxSparseSize heap
  leaves : Leaves Leaf.Ok heap
  linked : Linked heap

variable {heap after : Heap K (Leaf K V)} {k : K} {v : V} {location : Location} {p : Inner K}
    {index : Nat}

theorem Tree.rewrite {a : Addr} (tree : Tree heap)
    (rewrite : Rewrite 1 maxSparseSize heap after a none Leaf.Ok) :
    Tree after :=
  ⟨rewrite.sound, rewrite.leaves tree.leaves,
    fun _ _ there => rewrite.linked (fun x q was _ => tree.linked x q was) there (by simp)⟩

theorem Tree.putLeaf (tree : Tree heap) {c : Addr} {l l' : Leaf K V}
    (there : heap.node c = some (.leaf l)) (sound : Sound 1 maxSparseSize (heap.putLeaf c l'))
    (ok : Leaf.Ok l') : Tree (heap.putLeaf c l') := by
  refine ⟨sound, fun x m here => ?_, putLeaf_linked there tree.linked⟩
  rw [putLeaf_node] at here
  split at here
  · cases here
    exact ok
  · exact tree.leaves x m here

omit [RadixKey K] in
theorem leafAt_some {c : Option Addr} {found : Addr × Leaf K V}
    (held : leafAt heap c = some found) :
    c = some found.1 ∧ heap.node found.1 = some (.leaf found.2) := by
  unfold leafAt at held
  cases c with
  | none => cases held
  | some c =>
      cases there : heap.node c with
      | none => simp [there] at held
      | some node =>
          cases node with
          | inner q => simp [there] at held
          | leaf l =>
              simp only [there, Option.some.injEq] at held
              subst held
              exact ⟨rfl, there⟩

omit [RadixKey K] in
theorem leafAt_leaf {c : Addr} {l : Leaf K V} (there : heap.node c = some (.leaf l)) :
    leafAt heap (some c) = some (c, l) := by
  simp [leafAt, there]

theorem leafFind_iff (leaves : Leaves Leaf.Ok heap) (c : Option Addr) (k : K) (v : V) :
    leafFind heap c k = some v ↔
      ∃ c' l, c = some c' ∧ heap.node c' = some (.leaf l) ∧ (k, v) ∈ RadixLeaf.pairs l := by
  rw [leafFind, Option.bind_eq_some_iff]
  constructor
  · rintro ⟨found, held, answer⟩
    obtain ⟨same, there⟩ := leafAt_some held
    exact ⟨found.1, found.2, same, there, ((leaves _ _ there).find_iff k v).mp answer⟩
  · rintro ⟨c', l, rfl, there, member⟩
    exact ⟨(c', l), leafAt_leaf there, ((leaves _ _ there).find_iff k v).mpr member⟩

/-! The split of a separable array. -/

theorem inside_of_agree {pairs : List (K × V)} {bytePos : Nat} (sorted : Sorted pairs)
    (two : 2 ≤ pairs.length) (agree : ∀ one ∈ pairs, ∀ other ∈ pairs, Agree one.1 other.1 bytePos) :
    bytePos < RadixKey.size K := by
  match pairs, two with
  | one :: other :: rest, _ =>
      obtain ⟨before, _⟩ := List.pairwise_cons.mp sorted
      have less := before other (.head _)
      by_contra deep
      have same := agree_size ((agree one (.head _) other (.tail _ (.head _))).mono
        (Nat.le_of_not_lt deep))
      exact absurd same less.ne

/-- Everything the split needs to know about the leaves it builds. -/
structure Split (bytePos : Nat) (pairs : List (K × V)) (start : K × V) (rest : List (K × V)) :
    Prop where
  whole : pairs = start :: rest
  divided : Divided bytePos start.1 (Leaf.divide bytePos start rest)
  inside : bytePos < RadixKey.size K
  least : 1 ≤ (Leaf.divide bytePos start rest).length
  most : (Leaf.divide bytePos start rest).length ≤ maxSparseSize
  ok : ∀ l ∈ Leaf.divide bytePos start rest, Leaf.Ok l
  header : ∃ l ∈ Leaf.divide bytePos start rest, ∃ v, (start.1, v) ∈ RadixLeaf.pairs l
  mem : ∀ entry, (∃ l ∈ Leaf.divide bytePos start rest, entry ∈ RadixLeaf.pairs l) ↔ entry ∈ pairs

theorem exists_split {pairs : List (K × V)} {bytePos : Nat} (sorted : Sorted pairs)
    (two : 2 ≤ pairs.length) (most : pairs.length ≤ maxSparseSize)
    (agree : ∀ one ∈ pairs, ∀ other ∈ pairs, Agree one.1 other.1 bytePos)
    (thin : Leaf.Thin bytePos pairs) : ∃ start rest, Split bytePos pairs start rest := by
  have inside := inside_of_agree sorted two agree
  match pairs, two with
  | start :: rest, _ =>
      obtain ⟨least, few⟩ := Leaf.divide_length bytePos start rest
      obtain ⟨l, member, pair⟩ := (Leaf.divide_mem bytePos start rest start).mpr (.head _)
      exact ⟨start, rest, rfl, Leaf.divide_divided sorted
        (fun kv held => agree kv held start (.head _)) inside, inside,
        least, few.trans most, Leaf.divide_ok sorted thin, ⟨l, member, start.2, pair⟩,
          Leaf.divide_mem bytePos start rest⟩

namespace Leaf

variable {l : Leaf K V}

omit [RadixKey K] in
theorem realSize_le (l : Leaf K V) : l.realSize ≤ l.size + 2 := by
  have step (n : Nat) (e : Option (LogEntry K V)) : sizeAfter n e ≤ n + 1 := by
    cases e with
    | none => exact Nat.le_succ n
    | some e =>
        simp only [sizeAfter]
        split <;> omega
  have first := step l.size l.log
  have second := step (sizeAfter l.size l.log) l.secondLog
  simp only [realSize]
  omega

theorem pairsWith_sorted (ok : Ok l) (missing : l.find k = none) (v : V) :
    Sorted (l.pairsWith k v) := by
  refine sort_sorted (List.pairwise_append.mpr ⟨ok.distinct, List.pairwise_singleton _ _, ?_⟩)
  intro one member other last same
  rw [List.mem_singleton.mp last] at same
  have same : one.1 = k := same
  exact ok.find_none k missing one.2 (by rw [← same]; exact member)

theorem mem_pairsWith (l : Leaf K V) (k : K) (v : V) (entry : K × V) :
    entry ∈ l.pairsWith k v ↔ entry ∈ l.contents ∨ entry = (k, v) := by
  rw [pairsWith, mem_sort, List.mem_append, List.mem_singleton]

theorem pairsWith_length (ok : Ok l) (k : K) (v : V) :
    (l.pairsWith k v).length = l.realSize + 1 := by
  rw [pairsWith, length_sort, List.length_append, ok.realSize_eq]
  rfl

theorem pairsWithout_sorted (ok : Ok l) (k : K) : Sorted (l.pairsWithout k) :=
  sort_sorted (ok.distinct.filter _)

theorem mem_pairsWithout (l : Leaf K V) (k : K) (entry : K × V) :
    entry ∈ l.pairsWithout k ↔ entry ∈ l.contents ∧ entry.1 ≠ k := by
  rw [pairsWithout, mem_sort, List.mem_filter]
  simp

theorem pairsWithout_length (ok : Ok l) (found : l.find k = some v) :
    (l.pairsWithout k).length + 1 = l.realSize :=
  removed_length ok found ⟨pairsWithout_sorted ok k, mem_pairsWithout l k⟩

end Leaf

omit [RadixKey K] in
theorem Leaf.append_header (l : Leaf K V) (e : LogEntry K V) :
    (l.append e).key = l.key ∧ (l.append e).byteNum = l.byteNum := by
  unfold Leaf.append
  split <;> exact ⟨rfl, rfl⟩

/-! The two bodies, at the place of a search. -/

section Body

variable (tree : Tree heap) (placed : Placed 1 maxSparseSize heap k location p)
    (cptr : location.cptr = some index)
include tree placed

section Leaf

variable {c : Addr} {l : Leaf K V} (held : location.c = some c)
    (there : heap.node c = some (.leaf l))
include held there

theorem append_tree (kind : l.isLog = true) (free : l.isAppendable = true) {e : LogEntry K V}
    (mine : e.key = k) (consistent : e.Consistent l.contents) :
    Tree (heap.putLeaf c (l.append e)) := by
  obtain ⟨ok, contents⟩ := (tree.leaves c l there).append kind free consistent
  obtain ⟨key, byteNum⟩ := l.append_header e
  refine tree.putLeaf there
    (placed.append_sound held there tree.linked key byteNum fun entry member => ?_) ok
  have member : entry ∈ (l.append e).contents := member
  rw [contents] at member
  cases deletes : e.isDelete with
  | true => exact Or.inl ((LogEntry.mem_delete deletes entry).mp member).1
  | false =>
      refine ((LogEntry.mem_insert deletes entry).mp member).imp id fun same => ?_
      rw [same]
      exact mine

theorem insert_append (kind : l.isLog = true) (free : l.isAppendable = true)
    (missing : l.find k = none) (v : V) :
    Tree (heap.putLeaf c (l.append ⟨false, k, v⟩)) ∧
      Inserted heap (heap.putLeaf c (l.append ⟨false, k, v⟩)) k v := by
  have ok := tree.leaves c l there
  have consistent : (⟨false, k, v⟩ : LogEntry K V).Consistent l.contents :=
    ⟨(fun deletes => nomatch deletes), fun ⟨v, member⟩ => absurd member (ok.find_none k missing v)⟩
  refine ⟨append_tree tree placed held there kind free rfl consistent,
    placed.append_insert held there fun entry => ?_⟩
  change entry ∈ (l.append ⟨false, k, v⟩).contents ↔ _
  rw [(ok.append kind free consistent).2, LogEntry.mem_insert rfl]
  rfl

theorem remove_append (kind : l.isLog = true) (free : l.isAppendable = true)
    (here : l.find k = some v) (null : V) :
    Tree (heap.putLeaf c (l.append ⟨true, k, null⟩)) ∧
      Deleted heap (heap.putLeaf c (l.append ⟨true, k, null⟩)) k := by
  have ok := tree.leaves c l there
  have consistent : (⟨true, k, null⟩ : LogEntry K V).Consistent l.contents :=
    ⟨fun _ => ⟨v, (ok.find_iff k v).mp here⟩, fun _ => rfl⟩
  refine ⟨append_tree tree placed held there kind free rfl consistent,
    placed.append_delete held there fun entry => ?_⟩
  change entry ∈ (l.append ⟨true, k, null⟩).contents ↔ _
  rw [(ok.append kind free consistent).2, LogEntry.mem_delete rfl]
  rfl

include cptr

/-- A new leaf with one pair more. -/
theorem insert_swap {l' : Leaf K V} (key : l'.key = l.key) (byteNum : l'.byteNum = location.bytePos)
    (spec : Leaf.Ok l' ∧ ∀ entry, entry ∈ l'.contents ↔ entry ∈ l.contents ∨ entry = (k, v)) :
    Tree (link location.p index (heap.alloc (.leaf l'))) ∧
    Inserted heap (link location.p index (heap.alloc (.leaf l'))) k v := by
  have deep : p.byteNum < RadixLeaf.byteNum l' := by
    change p.byteNum < l'.byteNum
    rw [byteNum]
    exact placed.leaf_deep held there
  obtain ⟨rewrite, inserted⟩ := placed.swap_insert held there l' cptr deep (Or.inl key) spec.2
  exact ⟨tree.rewrite (rewrite.mono fun _ same => same ▸ spec.1), inserted⟩

/-- A new leaf of the pairs other than that of `k`. -/
theorem remove_swap {isLog : Bool} {entries : List (K × V)} (nonempty : entries ≠ [])
    (lists : Lists entries fun entry => entry ∈ l.contents ∧ entry.1 ≠ k)
    (small : isLog = false → entries.length ≤ maxSmallLeafSize)
    (large : entries.length ≤ maxBigLeafSize) :
    Tree (link location.p index (heap.alloc (.leaf (.rebuilt isLog l entries)))) ∧
    Deleted heap (link location.p index (heap.alloc (.leaf (.rebuilt isLog l entries)))) k := by
  obtain ⟨⟨v, member⟩, deep⟩ :=
    Leaf.rebuilt_header isLog (l := l) nonempty (placed.fits held there).1
    (placed.sound.ok _ _ placed.seen.here).2
  have contents (entry : K × V) : entry ∈ RadixLeaf.pairs (Leaf.rebuilt isLog l entries) ↔
    entry ∈ entries := by
    change entry ∈ (Leaf.rebuilt isLog l entries).contents ↔ _
    rw [Leaf.rebuilt_contents]
  obtain ⟨rewrite, deleted⟩ :=
    placed.swap_delete held there _ cptr deep (Or.inr ⟨v, (contents _).mpr member⟩)
    fun entry => (contents entry).trans (lists.2 entry)
  exact ⟨tree.rewrite (rewrite.mono fun _ same => same ▸ Leaf.rebuilt_ok lists.1 small large
    (List.length_pos_of_ne_nil nonempty)), deleted⟩

theorem remove_clear (only : ∀ entry ∈ l.contents, entry.1 = k) :
    Tree (heap.store location.p index none) ∧ Deleted heap (heap.store location.p index none)
      k := by
  obtain ⟨rewrite, deleted⟩ := placed.clear_delete held there cptr only
  exact ⟨tree.rewrite (rewrite.mono fun _ => False.elim), deleted⟩

theorem insert_split {start : K × V} {rest : List (K × V)}
    (split : Split location.bytePos (l.pairsWith k v) start rest) :
    ∃ built, splitPairs heap location.bytePos (l.pairsWith k v) = some built ∧
      Tree (link location.p index built) ∧ Inserted heap (link location.p index built) k v := by
  obtain ⟨rewrite, inserted⟩ :=
    placed.split_insert held there split.divided split.inside split.least split.most cptr
    split.header fun entry => (split.mem entry).trans (l.mem_pairsWith k v entry)
  exact ⟨_, by rw [split.whole, splitPairs], tree.rewrite (rewrite.mono split.ok), inserted⟩

theorem remove_split {start : K × V} {rest : List (K × V)}
    (split : Split location.bytePos (l.pairsWithout k) start rest) :
    ∃ built, splitPairs heap location.bytePos (l.pairsWithout k) = some built ∧
      Tree (link location.p index built) ∧ Deleted heap (link location.p index built) k := by
  obtain ⟨rewrite, deleted⟩ := placed.split_delete held there split.divided split.inside split.least
    split.most cptr
    split.header fun entry => (split.mem entry).trans (l.mem_pairsWithout k entry)
  exact ⟨_, by rw [split.whole, splitPairs], tree.rewrite (rewrite.mono split.ok), deleted⟩

end Leaf

include cptr

/-- The store of an insert that finds a slot. -/
theorem insertBody_spec (found : findLocation heap k = some location)
    (missing : leafFind heap location.c k = none) (v : V)
    (separable : Separable heap (.insert k v)) :
    ∃ after, insertBody heap location index k v = some after ∧ Tree after ∧
      Inserted heap after k v := by
  have one : OneKey (Leaf.single k v) k v p.byteNum :=
    Leaf.single_one k v (placed.sound.ok _ _ placed.seen.here).2
  cases held : location.c with
  | none =>
      obtain ⟨rewrite, inserted⟩ := placed.insert_null cptr held one
      refine ⟨link location.p index (heap.alloc (.leaf (.single k v))), by
        simp only [insertBody, held], ?_, inserted⟩
      exact tree.rewrite (rewrite.mono fun _ same => same ▸ Leaf.single_ok k v)
  | some c =>
      obtain ⟨node, there, _⟩ := placed.seen.stop c held
      cases node with
      | inner q =>
          obtain ⟨parts, early⟩ := placed.seen.parts held there (placed.fits held there)
          obtain ⟨rewrite, inserted⟩ :=
            (placed.slot cptr).cut (by decide) (by decide) (placed.edge held)
            there parts early (Leaf.single_one k v parts.lt_size)
          refine ⟨link location.p index (cutEdge heap c q.key location.bytePos (.single k v) k),
            by simp only [insertBody, held, there], ?_, inserted⟩
          exact tree.rewrite (rewrite.mono fun _ same => same ▸ Leaf.single_ok k v)
      | leaf l =>
          have ok := tree.leaves c l there
          have absent : l.find k = none := by
            simpa [leafFind, leafAt, held, there] using missing
          simp only [insertBody, held, there]
          cases kind : l.isLog with
          | false =>
              simp only [Bool.false_eq_true, if_false]
              split
              · rename_i room
                exact ⟨_, rfl, insert_swap tree placed cptr held there rfl rfl
                  (Leaf.add_spec ok kind absent v false (fun _ => room) location.bytePos)⟩
              · exact ⟨_, rfl, insert_swap tree placed cptr held there rfl rfl
                  (Leaf.add_spec ok kind absent v true (fun small => nomatch small)
                    location.bytePos)⟩
          | true =>
              simp only [if_true]
              cases one : l.log with
              | none =>
                  exact ⟨_, rfl, insert_append tree placed held there kind
                    (by simp [Leaf.isAppendable, one]) absent v⟩
              | some log =>
                  cases two : l.secondLog with
                  | none =>
                      exact ⟨_, rfl, insert_append tree placed held there kind
                        (by simp [Leaf.isAppendable, two]) absent v⟩
                  | some secondLog =>
                      simp only
                      by_cases room : l.realSize < maxBigLeafSize
                      · rw [if_pos room]
                        exact ⟨_, rfl, insert_swap tree placed cptr held there rfl rfl
                          (Leaf.addLogged_spec ok one two absent v room location.bytePos)⟩
                      · rw [if_neg room]
                        have handed_ : handed heap (.insert k v) =
                          some (location.bytePos, l.pairsWith k v) := by
                          simp [handed, found, held, leafAt_leaf there, kind, Leaf.isAppendable,
                            one, two, absent, room]
                        obtain ⟨agree, thin⟩ := separable _ _ handed_
                        have length := Leaf.pairsWith_length ok k v
                        have size := ok.large kind
                        have real := l.realSize_le
                        have bound : maxBigLeafSize = 14 := rfl
                        have bound' : maxSparseSize = 17 := rfl
                        obtain ⟨start, rest, split⟩ :=
                          exists_split (Leaf.pairsWith_sorted ok absent v) (by omega)
                          (by omega) agree thin
                        obtain ⟨built, made, kept, inserted⟩ :=
                          insert_split tree placed cptr held there split
                        exact ⟨_, by rw [made]; rfl, kept, inserted⟩

/-- The store of a remove. -/
theorem removeBody_spec (found : findLocation heap k = some location) {c : Addr} {l : Leaf K V}
    (held : location.c = some c) (there : heap.node c = some (.leaf l)) (here : l.find k = some v)
    (noValue : V) (separable : Separable heap (.remove k)) :
    ∃ after, removeBody noValue heap location index c l k = some after ∧ Tree after ∧
      Deleted heap after k := by
  have ok := tree.leaves c l there
  have member := (ok.find_iff k v).mp here
  have without_length {built : List (K × V)} (lists : Lists built fun entry => entry ∈ l.contents ∧
    entry.1 ≠ k) :
      built.length + 1 = l.realSize := Leaf.removed_length ok here lists
  have only {built : List (K × V)} (lists : Lists built fun entry => entry ∈ l.contents ∧
    entry.1 ≠ k)
      (last : built.length = 0) : ∀ entry ∈ l.contents, entry.1 = k := by
    intro entry inside
    by_contra other
    have := (lists.2 entry).mpr ⟨inside, other⟩
    rw [List.length_eq_zero_iff.mp last] at this
    cases this
  have bound : maxBigLeafSize = 14 := rfl
  have bound' : maxSparseSize = 17 := rfl
  have bound'' : maxSmallLeafSize = 2 := rfl
  unfold removeBody
  cases kind : l.isLog with
  | false =>
      simp only [Bool.false_eq_true, if_false]
      obtain ⟨empty, few⟩ := ok.small kind
      have plain := Leaf.contents_plain empty (ok.second_none empty)
      have lists : Lists (without [k] l.keyVals) fun entry => entry ∈ l.contents ∧ entry.1 ≠ k := by
        refine (without_lists ok.sorted [k]).of_iff fun k' v' => ?_
        rw [plain]
        simp
      have length := without_length lists
      have size : l.realSize = l.size := by rw [ok.realSize_eq, plain]; rfl
      split
      · exact ⟨_, rfl, remove_clear tree placed cptr held there (only lists (by omega))⟩
      · refine ⟨_, rfl, remove_swap tree placed cptr held there ?_ lists (fun _ => by omega)
          (by omega)⟩
        intro nil
        rw [nil] at length
        simp only [List.length_nil] at length
        omega
  | true =>
      simp only [if_true]
      cases one : l.log with
      | none =>
          exact ⟨_, rfl, remove_append tree placed held there kind
            (by simp [Leaf.isAppendable, one]) here noValue⟩
      | some log =>
          cases two : l.secondLog with
          | none =>
              exact ⟨_, rfl, remove_append tree placed held there kind
                (by simp [Leaf.isAppendable, two]) here noValue⟩
          | some secondLog =>
              have logged := ok.logged one two
              have present : ∃ v, (k, v) ∈ secondLog.applyTo (log.applyTo l.keyVals) :=
                ⟨v, by rw [← Leaf.contents_logged one two]; exact member⟩
              have lists {built : List (K × V)}
                (made : built = cowRemove l.keyVals log secondLog k ∨
                  built = cowRemoveSmall l.keyVals log secondLog k) :
                  Lists built fun entry => entry ∈ l.contents ∧ entry.1 ≠ k := by
                rw [Leaf.contents_logged one two]
                exact removed_lists logged present made
              have length := without_length (lists (Or.inl rfl))
              have length' := without_length (lists (Or.inr rfl))
              have nonempty {built : List (K × V)} (more : built.length ≠ 0) : built ≠ [] :=
                fun nil => more (by rw [nil]; rfl)
              simp only
              split
              · split
                · exact ⟨_, rfl, remove_clear tree placed cptr held there
                    (only (lists (Or.inl rfl)) (by omega))⟩
                · exact ⟨_, rfl, remove_swap tree placed cptr held there (nonempty (by omega))
                    (lists (Or.inr rfl))
                    (fun _ => by omega) (by omega)⟩
              · split
                · exact ⟨_, rfl, remove_swap tree placed cptr held there (nonempty (by omega))
                    (lists (Or.inl rfl))
                    (fun small => by cases small) (by omega)⟩
                · rename_i full
                  have handed_ : handed heap (.remove k) =
                    some (location.bytePos, l.pairsWithout k) := by
                    simp [handed, found, held, leafAt_leaf there, kind, Leaf.isAppendable, one, two,
                      here, full]
                  obtain ⟨agree, thin⟩ := separable _ _ handed_
                  have length := Leaf.pairsWithout_length ok here
                  have size := ok.large kind
                  have real := l.realSize_le
                  obtain ⟨start, rest, split⟩ :=
                    exists_split (Leaf.pairsWithout_sorted ok k) (by omega) (by omega) agree thin
                  obtain ⟨built, made, kept, deleted⟩ :=
                    remove_split tree placed cptr held there split
                  exact ⟨_, by rw [made]; rfl, kept, deleted⟩

end Body

/-! Whole calls. -/

theorem Tree.addChild {g : Addr} (tree : Tree heap) (located : Located heap k location p)
    (cptr : location.cptr = none) (parent : location.gp = some g) (v : V) :
    ∃ after, Art.addChild maxSparseSize heap g location.p k (Leaf.single k v) = some after ∧
      Tree (after.retire location.p) ∧ Inserted heap (after.retire location.p) k v := by
  obtain ⟨after, done, sound, leaves, linked, inserted⟩ :=
    located.addChild_retired tree.sound tree.linked cptr parent (by decide)
    (Leaf.single_one k v (tree.sound.ok _ _ located.here).2) tree.leaves (Leaf.single_ok k v)
  exact ⟨after, done, ⟨sound, leaves, linked⟩, inserted⟩

theorem Tree.placed (tree : Tree heap) (k : K) : ∃ location p, findLocation heap k = some location ∧
    Located heap k location p ∧ Placed 1 maxSparseSize heap k location p ∧ p.removed = false := by
  obtain ⟨location, p, found, located⟩ := findLocation_located tree.sound k
  exact ⟨location, p, found, located, located.placed tree.sound, (tree.linked _ p located.here).1⟩

/-- The tree and the pairs it holds. -/
def Holds (heap : Heap K (Leaf K V)) (map : K → Option V) : Prop :=
  Tree heap ∧ ∀ k v, Below heap root k v ↔ map k = some v

theorem stored_iff {map : K → Option V} (holds : Holds heap map)
    (placed : Placed 1 maxSparseSize heap k location p) (value : V) :
    map k = some value ↔ leafFind heap location.c k = some value := by
  rw [← holds.2, placed.seen.below placed.sound placed.reach placed.child,
    leafFind_iff holds.1.leaves]

theorem absent_of_missing {map : K → Option V} (holds : Holds heap map)
    (placed : Placed 1 maxSparseSize heap k location p)
    (missing : leafFind heap location.c k = none) : map k = none := by
  cases value : map k with
  | none => rfl
  | some old =>
      rw [(stored_iff holds placed old).mp value] at missing
      cases missing

theorem tryInsert_simulates (noValue : V) {map : K → Option V} (holds : Holds heap map) (k : K)
    (v : V) (separable : Separable heap (.insert k v)) :
    ∃ next, tryInsert noValue k v heap = (next, some (specStep noValue map (.insert k v)).2) ∧
      Holds next (specStep noValue map (.insert k v)).1 := by
  obtain ⟨location, p, found, located, placed, live⟩ := holds.1.placed k
  cases here : leafFind heap location.c k with
  | some value =>
      have same := (stored_iff holds placed value).mpr here
      obtain ⟨index, cptr⟩ : ∃ index, location.cptr = some index := by
        refine Option.ne_none_iff_exists'.mp fun missing => ?_
        rw [located.empty missing] at here
        cases here
      refine ⟨heap, ?_, ?_⟩
      · simp only [tryInsert, found, here, placed.unchanged live cptr, if_true, specStep, same]
      · simp only [specStep, same]
        exact holds
  | none =>
      have absent := absent_of_missing holds placed here
      simp only [specStep, absent]
      cases cptr : location.cptr with
      | some index =>
          obtain ⟨after, made, kept, inserted⟩ :=
            insertBody_spec holds.1 placed cptr found here v separable
          refine ⟨after, ?_, kept, inserted.holds absent holds.2⟩
          simp only [tryInsert, found, here, cptr, placed.unchanged live cptr, if_true, made]
      | none =>
          obtain ⟨g, parent⟩ := located.has_parent holds.1.sound cptr
          obtain ⟨after, done, kept, inserted⟩ := holds.1.addChild located cptr parent v
          refine ⟨after.retire location.p, ?_, kept, inserted.holds absent holds.2⟩
          simp only [tryInsert, found, here, cptr, parent, done]

theorem tryRemove_simulates (noValue : V) {map : K → Option V} (holds : Holds heap map) (k : K)
    (separable : Separable heap (.remove k)) :
    ∃ next, tryRemove noValue k heap = (next, some (specStep noValue map (.remove k)).2) ∧
      Holds next (specStep noValue map (.remove k)).1 := by
  obtain ⟨location, p, found, located, placed, live⟩ := holds.1.placed k
  cases here : leafFind heap location.c k with
  | none =>
      simp only [specStep, absent_of_missing holds placed here]
      refine ⟨heap, ?_, holds⟩
      cases cptr : location.cptr with
      | none => simp only [tryRemove, found, cptr]
      | some index => simp only [tryRemove, found, cptr, here, placed.unchanged live cptr, if_true]
  | some value =>
      have same := (stored_iff holds placed value).mpr here
      obtain ⟨c, l, child, there, member⟩ :=
        (leafFind_iff holds.1.leaves location.c k value).mp here
      obtain ⟨index, cptr⟩ : ∃ index, location.cptr = some index := by
        refine Option.ne_none_iff_exists'.mp fun missing => ?_
        rw [located.empty missing] at child
        cases child
      have answer := ((holds.1.leaves c l there).find_iff k value).mpr member
      obtain ⟨after, made, kept, deleted⟩ :=
        removeBody_spec holds.1 placed cptr found child there answer noValue separable
      simp only [specStep, same]
      refine ⟨after, ?_, kept, deleted.holds holds.2⟩
      simp only [tryRemove, found, cptr, here, placed.unchanged live cptr, if_true]
      simp only [child, leafAt_leaf there, Option.bind_some, made]

theorem attempt_simulates (noValue : V) :
    Simulates (attempt (K := K) noValue) noValue Holds Separable := by
  intro heap map op holds separable
  cases op with
  | insert k v => exact tryInsert_simulates noValue holds k v separable
  | remove k => exact tryRemove_simulates noValue holds k separable

/-! Runs from the empty tree. -/

/-- find_location leads each stored key to a leaf that answers its value, and no other
key to a leaf that answers one. -/
structure Finds (heap : Heap K (Leaf K V)) (map : K → Option V) : Prop where
  stored : ∀ k v, map k = some v → ∃ location c l, findLocation heap k = some location ∧
    location.c = some c ∧ heap.node c = some (.leaf l) ∧ l.find k = some v
  absent : ∀ k location c l, map k = none → findLocation heap k = some location →
    location.c = some c → heap.node c = some (.leaf l) → l.find k = none

theorem Holds.finds {map : K → Option V} (holds : Holds heap map) : Finds heap map := by
  refine ⟨fun k v value => ?_, fun k location c l none_ found held there => ?_⟩
  · obtain ⟨location, p, found, _, placed, _⟩ := holds.1.placed k
    obtain ⟨c, l, child, there, member⟩ :=
      (leafFind_iff holds.1.leaves location.c k v).mp ((stored_iff holds placed v).mp value)
    exact ⟨location, c, l, found, child, there, ((holds.1.leaves c l there).find_iff k v).mpr
      member⟩
  · obtain ⟨location', p, found', _, placed, _⟩ := holds.1.placed k
    rw [found] at found'
    cases found'
    cases answer : l.find k with
    | none => rfl
    | some v =>
        have value := (stored_iff holds placed v).mpr
          (by simp [leafFind, leafAt, held, there, answer])
        rw [none_] at value
        cases value

variable (junk : Key) (noValue : V)

theorem emptyTree_holds : Holds (emptyTree junk : Heap Key (Leaf Key V)) fun _ => none := by
  refine ⟨⟨emptyTree_sound junk (Nat.succ_pos 7), ?_, ?_⟩, fun k v => ?_⟩
  · intro x l there
    cases (emptyTree_only junk there).2
  · intro x q there
    obtain ⟨rfl, same⟩ := emptyTree_only junk there
    cases same
    exact ⟨rfl, .refl root⟩
  · simp [emptyTree_below]

/-- In a run all of whose splits are separable, every call returns what the abstract map
returns, and after every prefix of the run the search finds the map's pairs and no
others. -/
theorem double_log_refines_map (rounds : Nat) (ops : List (Op Key V))
    (separable : Along (attempt noValue) Separable (rounds + 1) ops (emptyTree junk)) :
    (runOps (attempt noValue) (rounds + 1) ops (emptyTree junk)).2 =
      (specRun noValue ops fun _ => none).2.map some ∧
    ∀ done, done <+: ops → Finds (runOps (attempt noValue) (rounds + 1) done (emptyTree junk)).1
      (specRun noValue done fun _ => none).1 := by
  refine ⟨(run_simulates (attempt_simulates noValue) rounds ops (emptyTree_holds junk) separable).2,
    ?_⟩
  rintro done ⟨rest, rfl⟩
  have first := along_append separable
  exact (run_simulates (attempt_simulates noValue) rounds done (emptyTree_holds junk) first).1.finds

-- Fifteen keys with one prefix: the last insert splits the leaf by its last byte.
def closeKeys : List (Op Key Nat) :=
  (List.range 15).map fun i => .insert (Fin.ofNat (2 ^ 64) (i + 1)) (i + 1)

theorem close_keys_found : Along (attempt 0) Separable 1 closeKeys (emptyTree (0 : Key)) ∧
    Finds (runOps (attempt 0) 1 closeKeys (emptyTree (0 : Key))).1
      (specRun 0 closeKeys fun _ => none).1 := by
  have separable : Along (attempt 0) Separable 1 closeKeys (emptyTree (0 : Key)) := by
    decide +kernel
  exact ⟨separable, (double_log_refines_map 0 0 0 closeKeys separable).2 closeKeys List.prefix_rfl⟩

-- 256 is appended to a leaf of keys below 256; the split by the last byte leaves it behind.
def strayKey : List (Op Key Nat) :=
  ((List.range 12).map fun i => .insert (Fin.ofNat (2 ^ 64) (i + 1)) (i + 1)) ++
    [.insert 256 256, .insert 13 13, .insert 14 14]

theorem stray_key_lost : ¬ Finds (runOps (attempt 0) 1 strayKey (emptyTree (0 : Key))).1
    (specRun 0 strayKey fun _ => none).1 := by
  intro finds
  have value : (specRun 0 strayKey fun _ => none).1 256 = some 256 := by decide +kernel
  obtain ⟨location, c, l, found, held, there, answer⟩ := finds.stored 256 256 value
  have missing : (findLocation (runOps (attempt 0) 1 strayKey (emptyTree (0 : Key))).1 256).map
      (fun location => leafFind (runOps (attempt 0) 1 strayKey (emptyTree (0 : Key))).1 location.c
        256) = some none := by
    decide +kernel
  rw [found, Option.map_some, held, leafFind, leafAt_leaf there, Option.bind_some,
    answer] at missing
  cases missing

end SetBench.DoubleLog
