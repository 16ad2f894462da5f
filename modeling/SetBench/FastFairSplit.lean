import Mathlib
import SetBench.FastFairChain

/-! A split, and whole runs of the chain of leaves: between any two stores a search answers as
before the operation, or as after it. -/
namespace SetBench.FastFair

variable {page : Page} {es new : List Record} {chain more : Chain} {h next key ptr : Nat}

theorem searchLeft_from (q : Page) (k i : Nat) :
    q.searchLeft k i = 0 ∨ ∃ j ≤ i, (q.records j).key = k ∧ (q.records j).ptr =
      q.searchLeft k i := by
  induction i with
  | zero =>
      rw [Page.searchLeft]
      split
      · rename_i found
        exact .inr ⟨0, Nat.le_refl 0, found, rfl⟩
      · exact .inl rfl
  | succ i ih =>
      rw [Page.searchLeft]
      split
      · rename_i found
        exact .inr ⟨i + 1, Nat.le_refl _, found.1, rfl⟩
      · rcases ih with none_ | ⟨j, le, found⟩
        · exact .inl none_
        · exact .inr ⟨j, Nat.le_succ_of_le le, found⟩

theorem searchLeft_found (q : Page) {k j : Nat} (there : (q.records j).key = k)
    (some : (q.records j).ptr ≠ 0)
    (apart : ∀ i, j = i + 1 → (q.records i).ptr ≠ (q.records j).ptr) :
    ∀ i, j ≤ i → (∀ j' ≤ i, (q.records j').key = k → j' = j) → q.searchLeft k i =
      (q.records j).ptr := by
  intro i
  induction i with
  | zero =>
      intro le _
      cases Nat.le_zero.mp le
      rw [Page.searchLeft, if_pos there]
  | succ i ih =>
      intro le only
      rw [Page.searchLeft]
      by_cases here : j = i + 1
      · subst here
        rw [if_pos ⟨there, apart i rfl, some⟩]
      · rw [if_neg fun all => here (only (i + 1) (Nat.le_refl _) all.1).symm]
        exact ih (by omega) fun j' inside => only j' (Nat.le_succ_of_le inside)

theorem lookup_congr {xs ys : List Record} (first : Sorted xs) (second : Sorted ys)
    (same : ∀ e, e ∈ xs ↔ e ∈ ys) (k : Nat) :
    lookup xs k = lookup ys k := by
  by_cases present : ∃ e ∈ xs, e.key = k
  · obtain ⟨e, member, rfl⟩ := present
    rw [first.lookup_mem member, second.lookup_mem ((same e).mp member)]
  · rw [lookup_absent fun e member at_k => present ⟨e, member, at_k⟩,
      lookup_absent fun e member at_k => present ⟨e, (same e).mpr member, at_k⟩]

theorem migrate_rest (rs : List Record) :
    ∀ (sibling : Page) (done : List Record), Rest sibling done →
    (0 :: (rs ++ done).map Record.ptr).Nodup → ((rs ++ done).map Record.key).Nodup →
    rs.length + done.length < cardinality →
    ∃ new, Rest (migrate rs done.length sibling) new ∧ (∀ e, e ∈ new ↔ e ∈ rs ∨ e ∈ done) ∧
      new.length = rs.length + done.length := by
  induction rs with
  | nil =>
      intro sibling done rest _ _ _
      exact ⟨done, rest, fun e => (or_iff_right List.not_mem_nil).symm, (Nat.zero_add _).symm⟩
  | cons r rs ih =>
      intro sibling done rest pointers keys room
      rw [List.length_cons] at room
      have front : List.Perm (r :: rs ++ done) (rs ++ r :: done) := List.perm_middle.symm
      have pointers' : (0 :: (rs ++ r :: done).map Record.ptr).Nodup :=
        ((front.map Record.ptr).cons 0).nodup_iff.mp pointers
      have keys' : ((rs ++ r :: done).map Record.key).Nodup :=
        (front.map Record.key).nodup_iff.mp keys
      have fresh : (0 :: r.ptr :: done.map Record.ptr).Nodup := by
        refine pointers'.sublist (List.Sublist.cons_cons 0 ?_)
        rw [List.map_append]
        exact List.sublist_append_right _ _
      have absent : ∀ e ∈ done, e.key ≠ r.key := by
        intro e member same
        have tail : (List.map Record.key (r :: done)).Nodup := by
          rw [List.map_append] at keys'
          exact keys'.sublist (List.sublist_append_right _ _)
        exact (List.nodup_cons.mp tail).1 (same ▸ List.mem_map_of_mem member)
      obtain ⟨new, inserted, _, rest'⟩ := rest.insert absent fresh (by omega)
      have perm : List.Perm new (r :: done) := by
        refine (List.perm_ext_iff_of_nodup ?_ ?_).mpr fun e =>
          (inserted.mem e).trans List.mem_cons.symm
        · exact List.Nodup.of_map _ (List.nodup_cons.mp inserted.distinct).2
        · exact List.Nodup.of_map Record.ptr (List.nodup_cons.mp fresh).2
      have whole : List.Perm (rs ++ new) (rs ++ r :: done) := perm.append_left rs
      rw [rest.count] at rest'
      obtain ⟨last, final, members, length⟩ :=
        ih _ new rest' (((whole.map Record.ptr).cons 0).nodup_iff.mpr pointers')
        ((whole.map Record.key).nodup_iff.mpr keys') (by rw [inserted.length]; omega)
      rw [inserted.length] at final
      refine ⟨last, final, fun e => ?_, ?_⟩
      · rw [members e, inserted.mem e, List.mem_cons]
        exact or_left_comm.trans or_assoc.symm
      · rw [length, inserted.length, List.length_cons]
        omega

/-- What a split makes of a page with the records `es`. -/
structure SplitOk (page : Page) (es : List Record) (s : Split) (moved : List Record) : Prop where
  turned : ∀ k, s.turned.linearSearch k = lookup es k
  left : Rest s.ended (es.take s.m)
  right : Rest s.sibling moved
  members : ∀ e, e ∈ moved ↔ e ∈ es.drop s.m
  low : ∀ e ∈ es.take s.m, e.key < s.splitKey
  high : ∀ e ∈ es.drop s.m, s.splitKey ≤ e.key
  at_split : ∃ e ∈ es, e.key = s.splitKey
  below_split : ∃ e ∈ es, e.key < s.splitKey
  count_left : (es.take s.m).length = s.m ∧ s.m < cardinality - 1
  count_right : moved.length = page.count - s.m ∧ moved.length < cardinality - 1
  cut : ∀ k, s.cut.linearSearch k = lookup es k ∨
    (s.cut.linearSearch k = 0 ∧ s.splitKey ≤ k ∧ lookup es k = lookup moved k)

theorem Rest.records (rest : Rest page es) {i : Nat} (inside : i < es.length) :
    page.records i = es[i] := by
  rcases rest.body with shows | ⟨rfl, _⟩
  · exact shows.holds i es[i] (List.getElem?_eq_getElem inside)
  · exact absurd inside (Nat.not_lt_zero i)

theorem Sorted.nodup_keys (sorted : Sorted es) : (es.map Record.key).Nodup :=
  List.pairwise_map.mpr (sorted.imp fun less => Nat.ne_of_lt less)

theorem nodup_index {f : Record → Nat} (nodup : (es.map f).Nodup) {i j : Nat}
    (one : i < es.length) (two : j < es.length) (same : f es[i] = f es[j]) : i = j := by
  have one' : i < (es.map f).length := by rwa [List.length_map]
  have two' : j < (es.map f).length := by rwa [List.length_map]
  have mapped : (es.map f)[i] = (es.map f)[j] := by rw [List.getElem_map, List.getElem_map, same]
  exact nodup.getElem_inj_iff.mp mapped

theorem Rest.take (rest : Rest page es) {m : Nat} (inside : m < es.length) {other : Page}
    (leaf : other.leftmost = 0) (records : ∀ i, i ≠ m → other.records i = page.records i)
    (stop : (other.records m).ptr = 0) (lastIndex : other.lastIndex = (m : Int) - 1)
    (some : 0 < m) : Rest other (es.take m) where
  leaf := leaf
  counted := by
    rw [lastIndex, List.length_take, Nat.min_eq_left inside.le]
    omega
  sorted := rest.sorted.sublist (List.take_sublist m es)
  distinct := rest.distinct.sublist (((List.take_sublist m es).map _).cons_cons 0)
  room := by
    rw [List.length_take]
    exact Nat.lt_of_le_of_lt (Nat.min_le_right _ _) rest.room
  body := by
    have full := full_of_nodup rest.distinct
    left
    constructor
    case nonempty =>
      intro empty
      have length := congrArg List.length empty
      rw [List.length_take, Nat.min_eq_left inside.le, List.length_nil] at length
      omega
    case holds =>
      intro i r here
      obtain ⟨le, same⟩ := List.getElem?_eq_some_iff.mp here
      rw [List.length_take] at le
      rw [List.getElem_take] at same
      rw [records i (by omega), rest.records (by omega), same]
    case full =>
      intro i r _ here
      exact full r (List.mem_of_mem_take (List.mem_of_getElem? here))
    case stop =>
      rw [List.length_take, Nat.min_eq_left inside.le]
      exact stop

theorem lookup_drop (sorted : Sorted es) {m k : Nat} (missing : ∀ e ∈ es.take m, e.key ≠ k) :
    lookup es k = lookup (es.drop m) k := by
  by_cases present : ∃ e ∈ es, e.key = k
  · obtain ⟨e, member, rfl⟩ := present
    rw [← List.take_append_drop m es] at member
    rcases List.mem_append.mp member with early | late
    · exact absurd rfl (missing e early)
    · have dropped : Sorted (es.drop m) := sorted.sublist (List.drop_sublist m es)
      rw [dropped.lookup_mem late, sorted.lookup_mem (List.mem_of_mem_drop late)]
  · rw [lookup_absent fun e member same => present ⟨e, member, same⟩]
    exact (lookup_absent fun e member same => present ⟨e, List.mem_of_mem_drop member, same⟩).symm

theorem Rest.cut_search (rest : Rest page es) {m : Nat} (inside : m < es.length) {q : Page}
    (others : ∀ i, i ≠ m → q.records i = page.records i)
    (here : q.records m = ⟨(page.records m).key, 0⟩) (k : Nat) :
    (es[m].key ≠ k → q.searchLeft k (es.length - 1) = lookup es k) ∧
    (es[m].key = k → q.searchLeft k (es.length - 1) = 0) := by
  have keys : ∀ i (less : i < es.length), (q.records i).key = es[i].key := by
    intro i less
    by_cases own : i = m
    · subst own
      rw [here, rest.records less]
    · rw [others i own, rest.records less]
  have only {j : Nat} (less : j < es.length) (at_k : es[j].key = k) :
    ∀ j' ≤ es.length - 1, (q.records j').key = k → j' = j := by
    intro j' le at_j'
    have less' : j' < es.length := by omega
    rw [keys j' less'] at at_j'
    exact nodup_index rest.sorted.nodup_keys less' less (at_j'.trans at_k.symm)
  constructor
  · intro other
    by_cases present : ∃ e ∈ es, e.key = k
    · obtain ⟨e, member, at_k⟩ := present
      obtain ⟨j, less, rfl⟩ := List.getElem_of_mem member
      have apart_m : j ≠ m := by
        rintro rfl
        exact other at_k
      have there : q.records j = es[j] := (others j apart_m).trans (rest.records less)
      have full := full_of_nodup rest.distinct
      have found := searchLeft_found q (there ▸ at_k) (there ▸ full es[j] member) (fun i same => ?_)
        (es.length - 1) (by omega) (only less at_k)
      · rw [found, there, ← at_k, rest.sorted.lookup_mem member]
      · subst same
        have less_i : i < es.length := by omega
        by_cases at_m : i = m
        · subst at_m
          rw [here, there]
          exact (full _ member).symm
        · rw [others i at_m, rest.records less_i, there]
          intro same
          have clash : i = i + 1 :=
            nodup_index (List.nodup_cons.mp rest.distinct).2 less_i less same
          omega
    · rw [lookup_absent fun e member same => present ⟨e, member, same⟩]
      rcases searchLeft_from q k (es.length - 1) with none_ | ⟨j, le, at_j, _⟩
      · exact none_
      · have less : j < es.length := by omega
        rw [keys j less] at at_j
        exact absurd ⟨es[j], List.getElem_mem less, at_j⟩ present
  · intro at_k
    rcases searchLeft_from q k (es.length - 1) with none_ | ⟨j, le, at_j, found⟩
    · exact none_
    · rw [only inside at_k j le at_j, here] at found
      exact found.symm

theorem Rest.split (rest : Rest page es) (full : ¬ page.count < cardinality - 1) :
    ∃ moved, SplitOk page es page.split moved := by
  rw [rest.count] at full
  have length : cardinality - 1 ≤ es.length := Nat.le_of_not_lt full
  have enough : 27 ≤ es.length := length
  have room := rest.room
  have small : es.length < 28 := room
  have inside : es.length / 2 < es.length := by omega
  have some : 0 < es.length / 2 := by omega
  have m_eq : page.split.m = es.length / 2 := congrArg (· / 2) rest.count
  have split_eq : page.split.splitKey = es[es.length / 2].key := by
    show (page.records (page.count / 2)).key = _
    rw [rest.count, rest.records inside]
  have moved : (List.range' (page.count / 2) (page.count - page.count / 2)).map page.records =
    es.drop (es.length / 2) := by
    rw [rest.count]
    refine List.ext_getElem ?_ fun i one two => ?_
    · simp only [List.length_map, List.length_range', List.length_drop]
    · rw [List.length_drop] at two
      rw [List.getElem_map, List.getElem_range', List.getElem_drop, rest.records (by omega)]
      simp only [Nat.one_mul]
  have dropped : (es.drop (es.length / 2)).Sublist es := List.drop_sublist _ es
  obtain ⟨right, rest_right, members, right_length⟩ :=
    migrate_rest (es.drop (es.length / 2)) emptyPage [] rest_empty
    (by rw [List.append_nil]; exact rest.distinct.sublist ((dropped.map _).cons_cons 0))
    (by rw [List.append_nil]; exact rest.sorted.nodup_keys.sublist (dropped.map _))
    (by rw [List.length_drop, List.length_nil]; exact Nat.lt_of_le_of_lt (by omega) room)
  have right_members : ∀ e, e ∈ right ↔ e ∈ es.drop page.split.m := by
    intro e
    rw [members e, m_eq]
    exact or_iff_left List.not_mem_nil
  have cut_other : ∀ i, i ≠ es.length / 2 → page.split.cut.records i = page.records i := by
    intro i apart
    show (page.toBackward.setPtr (page.count / 2) 0).records i = _
    rw [rest.count]
    exact setPtr_other apart
  have cut_here : page.split.cut.records (es.length / 2) = ⟨(page.records (es.length / 2)).key,
    0⟩ := by
    show (page.toBackward.setPtr (page.count / 2) 0).records _ = _
    rw [rest.count]
    exact setPtr_record page.toBackward _ _
  have sorted_split : ∀ e ∈ es.take page.split.m, e.key < page.split.splitKey := by
    intro e member
    rw [m_eq] at member
    rw [split_eq]
    have parts := rest.sorted
    rw [← List.take_append_drop (es.length / 2) es] at parts
    have cross := (List.pairwise_append.mp parts).2.2 e member
    refine cross es[es.length / 2] ?_
    rw [List.drop_eq_getElem_cons inside]
    exact List.mem_cons_self
  have split_low : ∀ e ∈ es.drop page.split.m, page.split.splitKey ≤ e.key := by
    intro e member
    rw [m_eq, List.drop_eq_getElem_cons inside] at member
    rw [split_eq]
    have tail := rest.sorted.sublist (List.drop_sublist (es.length / 2) es)
    rw [List.drop_eq_getElem_cons inside] at tail
    rcases List.mem_cons.mp member with rfl | later
    · exact Nat.le_refl _
    · exact ((List.pairwise_cons.mp tail).1 e later).le
  refine ⟨right, ?_⟩
  constructor
  case turned =>
    have seen : Seen page.split.turned es := rest.seen rfl rfl rfl
    exact seen.search rest.sorted
  case left =>
    rw [m_eq]
    apply rest.take inside
    case leaf => exact rest.leaf
    case records => exact cut_other
    case stop => exact congrArg Record.ptr cut_here
    case lastIndex =>
      show ((page.count / 2 : Nat) : Int) - 1 = _
      rw [rest.count]
    case some => exact some
  case right =>
    show Rest (migrate ((List.range' (page.count / 2) (page.count - page.count / 2)).map
      page.records) 0 emptyPage) right
    rw [moved]
    exact rest_right
  case members => exact right_members
  case low => exact sorted_split
  case high => exact split_low
  case at_split => exact ⟨es[es.length / 2], List.getElem_mem inside, split_eq.symm⟩
  case below_split =>
    refine ⟨es[0], List.getElem_mem (by omega), ?_⟩
    rw [split_eq]
    exact List.pairwise_iff_getElem.mp rest.sorted 0 (es.length / 2) (by omega) inside some
  case count_left =>
    rw [m_eq, List.length_take, Nat.min_eq_left inside.le]
    exact ⟨rfl, show es.length / 2 < 27 by omega⟩
  case count_right =>
    rw [right_length, List.length_drop, List.length_nil, m_eq, rest.count]
    exact ⟨rfl, show es.length - es.length / 2 + 0 < 27 by omega⟩
  case cut =>
    intro k
    have backward : page.split.cut.isForward = false := toBackward_backward page
    have counted : page.split.cut.count = es.length := by
      refine count_at rest.counted ?_
      rw [cut_other _ (by omega)]
      exact rest.body.stop
    have shape : page.split.cut.linearSearch k = page.split.cut.searchLeft k (es.length - 1) := by
      rw [Page.linearSearch, backward, if_neg Bool.false_ne_true, counted]
    obtain ⟨elsewhere, at_cut⟩ := rest.cut_search inside cut_other cut_here k
    by_cases own : es[es.length / 2].key = k
    · refine .inr ⟨shape.trans (at_cut own), split_eq ▸ own.le, ?_⟩
      have sorted_right := rest_right.sorted
      rw [lookup_congr sorted_right (rest.sorted.sublist dropped) fun e => (members e).trans
        (or_iff_left List.not_mem_nil)]
      refine lookup_drop rest.sorted fun e member same => ?_
      have less := sorted_split e (by rwa [m_eq])
      rw [split_eq, own, same] at less
      exact Nat.lt_irrefl _ less
    · exact .inl (shape.trans (elsewhere own))

end SetBench.FastFair
