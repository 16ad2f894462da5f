import Mathlib
import SetBench.FastFair

/-! What a search sees of a page: the records whose pointer differs from the one before. A record
with the pointer of the one before it is not there for any search. -/
namespace SetBench.FastFair

variable {page : Page} {xs ys rs : List Record} {r : Record} {prev i : Nat}

/-- The records that count, after a record (or a leftmost_ptr) with the pointer `prev`. -/
def alive (prev : Nat) : List Record → List Record
  | [] => []
  | r :: rest => if r.ptr = prev then alive r.ptr rest else r :: alive r.ptr rest

def lastPtr (prev : Nat) : List Record → Nat
  | [] => prev
  | r :: rest => lastPtr r.ptr rest

theorem lastPtr_concat (prev : Nat) (xs : List Record) (r : Record) :
    lastPtr prev (xs ++ [r]) = r.ptr := by
  induction xs generalizing prev with
  | nil => rfl
  | cons x rest ih => exact ih x.ptr

theorem alive_append (prev : Nat) (xs ys : List Record) :
    alive prev (xs ++ ys) = alive prev xs ++ alive (lastPtr prev xs) ys := by
  induction xs generalizing prev with
  | nil => rfl
  | cons x rest ih =>
      simp only [List.cons_append, alive, lastPtr, ih]
      split <;> rfl

theorem alive_hidden (hidden : r.ptr = lastPtr prev xs) (ys : List Record) :
    alive prev (xs ++ r :: ys) = alive prev (xs ++ ys) := by
  rw [alive_append, alive_append, alive, if_pos hidden, hidden]

-- Different pointers beside each other.
def Apart (prev : Nat) : List Record → Prop
  | [] => True
  | r :: rest => r.ptr ≠ prev ∧ Apart r.ptr rest

theorem Apart.alive_eq (apart : Apart prev rs) : alive prev rs = rs := by
  induction rs generalizing prev with
  | nil => rfl
  | cons x rest ih => rw [alive, if_neg apart.1, ih apart.2]

theorem apart_of_nodup (distinct : (prev :: rs.map Record.ptr).Nodup) : Apart prev rs := by
  induction rs generalizing prev with
  | nil => trivial
  | cons x rest ih =>
      rw [List.map_cons, List.nodup_cons] at distinct
      exact ⟨fun same => distinct.1 (same ▸ List.mem_cons_self), ih distinct.2⟩

/-- The page holds the records `rs` and ends behind them; the first may have no pointer. -/
structure Shows (page : Page) (rs : List Record) : Prop where
  nonempty : rs ≠ []
  holds : ∀ i r, rs[i]? = some r → page.records i = r
  full : ∀ i r, 0 < i → rs[i]? = some r → r.ptr ≠ 0
  stop : (page.records rs.length).ptr = 0

def lookup (es : List Record) (key : Nat) : Nat := ((es.find? (·.key == key)).map Record.ptr).getD 0

theorem lookup_cons (e : Record) (es : List Record) (key : Nat) :
    lookup (e :: es) key = if e.key = key then e.ptr else lookup es key := by
  unfold lookup
  by_cases same : e.key = key
  · rw [List.find?_cons_of_pos (p := fun r : Record => r.key == key) (beq_iff_eq.mpr same),
      if_pos same]
    rfl
  · rw [List.find?_cons_of_neg (p := fun r : Record => r.key == key) (by simpa using same),
      if_neg same]

theorem lookup_absent {es : List Record} {key : Nat} (absent : ∀ e ∈ es, e.key ≠ key) :
    lookup es key = 0 := by
  induction es with
  | nil => rfl
  | cons e rest ih =>
      rw [lookup_cons, if_neg (absent e List.mem_cons_self)]
      exact ih fun x member => absent x (List.mem_cons_of_mem _ member)

def Sorted (es : List Record) : Prop := es.Pairwise fun a b => a.key < b.key

theorem Sorted.lookup_mem {es : List Record} (sorted : Sorted es) {e : Record} (member : e ∈ es) :
    lookup es e.key = e.ptr := by
  induction es with
  | nil => cases member
  | cons x rest ih =>
      obtain ⟨below, later⟩ := List.pairwise_cons.mp sorted
      rw [lookup_cons]
      rcases List.mem_cons.mp member with rfl | inside
      · exact if_pos rfl
      · rw [if_neg (below e inside).ne]
        exact ih later inside

theorem searchRight_alive (shows : Shows page rs) (key : Nat) :
    ∀ (fuel : Nat) (pre suf : List Record), rs = pre ++ suf → pre ≠ [] →
    suf.length < fuel → page.searchRight key fuel pre.length = lookup (alive (lastPtr 0 pre) suf)
      key := by
  intro fuel
  induction fuel with
  | zero => intro pre suf _ _ less; exact absurd less (Nat.not_lt_zero _)
  | succ fuel ih =>
      intro pre suf split nonempty less
      have before : (page.records (pre.length - 1)).ptr = lastPtr 0 pre := by
        obtain ⟨init, last, rfl⟩ := List.eq_nil_or_concat pre |>.resolve_left nonempty
        rw [List.concat_eq_append] at split ⊢
        rw [lastPtr_concat, shows.holds _ last]
        rw [split, List.length_append, List.length_singleton, Nat.add_sub_cancel, List.append_assoc,
          List.getElem?_append_right (Nat.le_refl _), Nat.sub_self]
        rfl
      cases suf with
      | nil =>
          rw [List.append_nil] at split
          rw [Page.searchRight, ← split, if_pos shows.stop]
          rfl
      | cons r rest =>
          have here : rs[pre.length]? = some r := by
            rw [split, List.getElem?_append_right (Nat.le_refl _), Nat.sub_self]
            rfl
          have pointed := shows.full _ r (List.length_pos_iff.mpr nonempty) here
          have next := ih (pre ++ [r]) rest (by rw [split, List.append_assoc]; rfl)
            (List.append_ne_nil_of_right_ne_nil _ (List.cons_ne_nil _ _))
            (Nat.lt_of_succ_lt_succ less)
          rw [List.length_append, List.length_singleton, lastPtr_concat] at next
          rw [Page.searchRight, shows.holds _ r here, if_neg pointed, next, before, alive]
          by_cases hidden : r.ptr = lastPtr 0 pre
          · rw [if_pos hidden, if_neg fun both => both.2 hidden.symm]
          · rw [if_neg hidden, lookup_cons]
            exact if_congr (and_iff_left (Ne.symm hidden)) rfl rfl

theorem searchForward_alive (shows : Shows page rs) (forward : page.isForward = true)
    (fits : rs.length ≤ cardinality) (key : Nat) :
    page.linearSearch key = lookup (alive 0 rs) key := by
  cases rs with
  | nil => exact absurd rfl shows.nonempty
  | cons r rest =>
      have first := shows.holds 0 r rfl
      have later := searchRight_alive shows key cardinality [r] rest rfl (List.cons_ne_nil _ _) fits
      rw [Page.linearSearch, if_pos forward, first, alive]
      by_cases none_ : r.ptr = 0
      · rw [if_neg fun both => both.2 none_, if_pos none_]
        exact later
      · rw [if_neg none_, lookup_cons]
        exact if_congr (and_iff_left none_) rfl later

-- The search from the right takes the last record with the key.
theorem searchLeft_alive (shows : Shows page rs) {key : Nat} : ∀ i, i < rs.length →
    page.searchLeft key i = lookup (alive 0 (rs.take (i + 1))).reverse key := by
  intro i
  induction i with
  | zero =>
      intro inside
      cases rs with
      | nil => exact absurd rfl shows.nonempty
      | cons r rest =>
          rw [Page.searchLeft, shows.holds 0 r rfl]
          by_cases none_ : r.ptr = 0
          · rw [List.take_succ_cons, List.take_zero, alive, if_pos none_, none_, ite_self]
            rfl
          · rw [List.take_succ_cons, List.take_zero, alive, if_neg none_]
            exact (lookup_cons r [] key).symm
  | succ i ih =>
      intro inside
      have here := List.getElem?_eq_getElem inside
      have before := List.getElem?_eq_getElem (Nat.lt_of_succ_lt inside)
      have last : lastPtr 0 (rs.take (i + 1)) = (page.records i).ptr := by
        rw [List.take_succ_eq_append_getElem (Nat.lt_of_succ_lt inside), lastPtr_concat,
          shows.holds i _ before]
      rw [Page.searchLeft, ih (Nat.lt_of_succ_lt inside), List.take_succ_eq_append_getElem inside,
        alive_append, last,
        shows.holds _ _ here, alive]
      by_cases hidden : rs[i + 1].ptr = (page.records i).ptr
      · rw [if_pos hidden, if_neg fun all => all.2.1 hidden.symm]
        rw [alive, List.append_nil]
      · rw [if_neg hidden, alive, List.reverse_append, List.reverse_singleton,
          List.singleton_append, lookup_cons]
        exact if_congr (and_iff_left ⟨Ne.symm hidden, shows.full _ _ (Nat.succ_pos i) here⟩) rfl rfl

theorem lookup_reverse {es : List Record} (sorted : Sorted es) (key : Nat) :
    lookup es.reverse key = lookup es key := by
  by_cases present : ∃ e ∈ es, e.key = key
  · obtain ⟨e, member, rfl⟩ := present
    rw [sorted.lookup_mem member]
    unfold lookup
    cases found : es.reverse.find? (·.key == e.key) with
    | none => exact absurd (List.find?_eq_none.mp found e (List.mem_reverse.mpr member)) (by simp)
    | some other =>
        have inside := List.mem_reverse.mp (List.mem_of_find?_eq_some found)
        have same : other.key = e.key :=
          beq_iff_eq.mp (List.find?_some (p := fun r : Record => r.key == e.key) found)
        have ptr := sorted.lookup_mem inside
        rw [same, sorted.lookup_mem member] at ptr
        exact ptr.symm
  · have absent : ∀ e ∈ es, e.key ≠ key := fun e member same => present ⟨e, member, same⟩
    rw [lookup_absent absent, lookup_absent fun e member => absent e (List.mem_reverse.mp member)]

theorem countDown_at (stop : (page.records i).ptr = 0) : page.countDown i = some i := by
  cases i with
  | zero => rw [Page.countDown, if_pos stop]
  | succ i => rw [Page.countDown, if_pos stop]

theorem countUp_at (stop : (page.records i).ptr = 0) : page.countUp cardinality i = i := if_pos stop

theorem count_at (counted : page.lastIndex + 1 = (i : Int)) (stop : (page.records i).ptr = 0) :
    page.count = i := by
  unfold Page.count
  dsimp only
  rw [counted, Int.toNat_natCast, countUp_at stop, countDown_at stop]
  exact ite_self _

/-- A page that a search finds to hold `es`, in the middle of a shift or at rest. A search from the
right begins at the last record or at the one behind it. -/
structure Seen (page : Page) (es : List Record) : Prop where
  leaf : page.leftmost = 0
  view : ∃ rs, Shows page rs ∧ alive 0 rs = es ∧ rs.length ≤ cardinality ∧ (page.isForward = false →
    ∃ n : Nat, page.lastIndex + 1 = (n : Int) ∧ (page.records n).ptr = 0 ∧
      (n - 1 + 1 = rs.length ∨ n - 1 = rs.length))

theorem Seen.search {es : List Record} (seen : Seen page es) (sorted : Sorted es) (key : Nat) :
    page.linearSearch key = lookup es key := by
  obtain ⟨rs, shows, rfl, fits, backward⟩ := seen.view
  cases way : page.isForward with
  | true => exact searchForward_alive shows way fits key
  | false =>
      obtain ⟨n, counted, stop, start⟩ := backward way
      have inside : 0 < rs.length := List.length_pos_iff.mpr shows.nonempty
      rw [Page.linearSearch, way, if_neg Bool.false_ne_true,
        count_at counted stop, ← lookup_reverse sorted]
      have whole : page.searchLeft key (rs.length - 1) = lookup (alive 0 rs).reverse key := by
        rw [searchLeft_alive shows (rs.length - 1) (by omega), Nat.sub_add_cancel inside,
          List.take_length]
      rcases start with last | behind
      · rwa [show n - 1 = rs.length - 1 by omega]
      · rw [behind, ← whole, ← Nat.sub_add_cancel inside, Page.searchLeft,
          Nat.sub_add_cancel inside]
        exact if_neg fun all => all.2.2 shows.stop

end SetBench.FastFair
