import Mathlib
import SetBench.FastFairPage

/-! Every store of insert_key and remove_key leaves a page that shows the old records or the new
ones, and one store turns the first into the second. -/
namespace SetBench.FastFair

variable {page other : Page} {xs ys rs es new : List Record} {r : Record} {i key ptr : Nat}

@[simp] theorem setKey_record (page : Page) (i key : Nat) :
    (page.setKey i key).records i = ⟨key, (page.records i).ptr⟩ := Function.update_self ..

@[simp] theorem setPtr_record (page : Page) (i ptr : Nat) :
    (page.setPtr i ptr).records i = ⟨(page.records i).key, ptr⟩ := Function.update_self ..

theorem setKey_other {j : Nat} (apart : j ≠ i) :
    (page.setKey i key).records j = page.records j := Function.update_of_ne apart ..

theorem setPtr_other {j : Nat} (apart : j ≠ i) :
    (page.setPtr i ptr).records j = page.records j := Function.update_of_ne apart ..

/-- The stores of a shift change one slot of the page and none of its header. -/
structure SameBut (i : Nat) (page other : Page) : Prop where
  records : ∀ j, j ≠ i → other.records j = page.records j
  leftmost : other.leftmost = page.leftmost
  switchCounter : other.switchCounter = page.switchCounter
  lastIndex : other.lastIndex = page.lastIndex

theorem SameBut.setKey (page : Page) (i key : Nat) : SameBut i page (page.setKey i key) :=
  ⟨fun _ apart => setKey_other apart, rfl, rfl, rfl⟩

theorem SameBut.setPtr (page : Page) (i ptr : Nat) : SameBut i page (page.setPtr i ptr) :=
  ⟨fun _ apart => setPtr_other apart, rfl, rfl, rfl⟩

theorem SameBut.refl (page : Page) : SameBut i page page := ⟨fun _ _ => rfl, rfl, rfl, rfl⟩

theorem SameBut.trans {third : Page} (one : SameBut i page other) (two : SameBut i other third) :
    SameBut i page third :=
  ⟨fun j apart => (two.records j apart).trans (one.records j apart),
    two.leftmost.trans one.leftmost,
    two.switchCounter.trans one.switchCounter, two.lastIndex.trans one.lastIndex⟩

theorem SameBut.forward (same : SameBut i page other) : other.isForward = page.isForward := by
  unfold Page.isForward
  rw [same.switchCounter]

/-- The page holds `xs` and `ys` with one free slot between them. -/
structure Gap (page : Page) (xs ys : List Record) : Prop where
  before : ∀ i r, xs[i]? = some r → page.records i = r
  after : ∀ i r, ys[i]? = some r → page.records (xs.length + 1 + i) = r
  stop : (page.records (xs.length + 1 + ys.length)).ptr = 0

theorem Gap.store (gap : Gap page xs ys) (same : SameBut xs.length page other) :
    Gap other xs ys where
  before i r here := by
    have inside := (List.getElem?_eq_some_iff.mp here).1
    rw [same.records i (by omega), gap.before i r here]
  after i r here := by rw [same.records _ (by omega), gap.after i r here]
  stop := by rw [same.records _ (by omega), gap.stop]

theorem Gap.shows (gap : Gap page xs ys) (full : ∀ e ∈ xs ++ ys, e.ptr ≠ 0)
    (pointed : xs = [] ∨ (page.records xs.length).ptr ≠ 0) :
    Shows page (xs ++ page.records xs.length :: ys) where
  nonempty := List.append_ne_nil_of_right_ne_nil _ (List.cons_ne_nil _ _)
  holds i r here := by
    rcases Nat.lt_trichotomy i xs.length with less | same | more
    · rw [List.getElem?_append_left less] at here
      exact gap.before i r here
    · rw [same, List.getElem?_append_right (Nat.le_refl _), Nat.sub_self] at here
      rw [same]
      exact Option.some.inj here
    · obtain ⟨d, rfl⟩ : ∃ d, i = xs.length + 1 + d := ⟨i - (xs.length + 1), by omega⟩
      rw [List.getElem?_append_right (by omega), show xs.length + 1 + d - xs.length = d + 1 by
        omega, List.getElem?_cons_succ] at here
      exact gap.after d r here
  full i r positive here := by
    rcases List.mem_append.mp (List.mem_of_getElem? here) with left | right
    · exact full r (List.mem_append_left _ left)
    · rcases List.mem_cons.mp right with rfl | right
      · rcases pointed with rfl | pointed
        · cases i with
          | zero => exact absurd rfl (Nat.ne_of_gt positive)
          | succ i =>
              rw [List.nil_append, List.getElem?_cons_succ] at here
              exact full _ (List.mem_append_right _ (List.mem_of_getElem? here))
        · exact pointed
      · exact full r (List.mem_append_right _ right)
  stop := by
    rw [List.length_append, List.length_cons,
      show xs.length + (ys.length + 1) = xs.length + 1 + ys.length by omega]
    exact gap.stop

theorem lastPtr_ne (nonempty : xs ≠ []) (full : ∀ e ∈ xs, e.ptr ≠ 0) : lastPtr 0 xs ≠ 0 := by
  obtain ⟨init, last, rfl⟩ := List.eq_nil_or_concat xs |>.resolve_left nonempty
  rw [List.concat_eq_append] at full ⊢
  rw [lastPtr_concat]
  exact full last (List.mem_append_right _ (List.mem_singleton_self _))

theorem full_of_nodup (distinct : (0 :: es.map Record.ptr).Nodup) : ∀ e ∈ es, e.ptr ≠ 0 := by
  intro e member none_
  exact (List.nodup_cons.mp distinct).1 (none_ ▸ List.mem_map_of_mem member)

/-- While a slot repeats the pointer before it, the page shows the records around it. -/
theorem Gap.hidden (gap : Gap page xs ys) (distinct : (0 :: (xs ++ ys).map Record.ptr).Nodup)
    (hidden : (page.records xs.length).ptr = lastPtr 0 xs) (leaf : page.leftmost = 0)
    (fits : (xs ++ ys).length < cardinality)
    (counted : page.isForward = false → page.lastIndex + 1 = ((xs ++ ys).length + 1 : Nat)) :
    Seen page (xs ++ ys) where
  leaf := leaf
  view := by
    have full := full_of_nodup distinct
    refine ⟨_, gap.shows full ?_, ?_, ?_, fun backward => ⟨_, counted backward, ?_, .inl ?_⟩⟩
    · by_cases none_ : xs = []
      · exact .inl none_
      · rw [hidden]
        exact .inr (lastPtr_ne none_ fun e member => full e (List.mem_append_left _ member))
    · rw [alive_hidden hidden, (apart_of_nodup distinct).alive_eq]
    · simp only [List.length_append, List.length_cons] at fits ⊢
      omega
    · rw [List.length_append, show xs.length + ys.length + 1 = xs.length + 1 + ys.length by omega]
      exact gap.stop
    · simp only [List.length_append, List.length_cons]
      omega

/-- States of the first kind, then states of the second. -/
inductive Turn {α : Type} (old new : α → Prop) : List α → Prop where
  | before {a : α} {rest : List α} (seen : old a) (tail : Turn old new rest) :
    Turn old new (a :: rest)
  | after {trace : List α} (seen : ∀ a ∈ trace, new a) : Turn old new trace

theorem Turn.seen {α : Type} {old new : α → Prop} {trace : List α} (turn : Turn old new trace) :
    ∀ a ∈ trace, old a ∨ new a := by
  induction turn with
  | before seen _ ih =>
      intro a member
      rcases List.mem_cons.mp member with rfl | later
      · exact .inl seen
      · exact ih a later
  | after seen => exact fun a member => .inr (seen a member)

-- The last page of a shift, with the header of the first.
structure Ends (page : Page) (trace : List Page) (last : Page) : Prop where
  ending : trace.getLast? = some last
  leftmost : last.leftmost = page.leftmost
  switchCounter : last.switchCounter = page.switchCounter
  lastIndex : last.lastIndex = page.lastIndex

structure Inserted (es : List Record) (key ptr : Nat) (new : List Record) : Prop where
  sorted : Sorted new
  mem : ∀ e, e ∈ new ↔ e = ⟨key, ptr⟩ ∨ e ∈ es
  distinct : (0 :: new.map Record.ptr).Nodup
  length : new.length = es.length + 1

theorem inserted_between (sorted : Sorted (xs ++ ys))
    (distinct : (0 :: ptr :: (xs ++ ys).map Record.ptr).Nodup) (below : ∀ e ∈ xs, e.key < key)
    (above : ∀ e ∈ ys, key < e.key) : Inserted (xs ++ ys) key ptr (xs ++ ⟨key, ptr⟩ :: ys) where
  sorted := by
    obtain ⟨left, right, cross⟩ := List.pairwise_append.mp sorted
    refine List.pairwise_append.mpr ⟨left, List.pairwise_cons.mpr ⟨above, right⟩,
      fun a inside b member => ?_⟩
    rcases List.mem_cons.mp member with rfl | later
    · exact below a inside
    · exact cross a inside b later
  mem e := by
    simp only [List.mem_append, List.mem_cons]
    tauto
  distinct := by
    have swap : List.Perm ((xs ++ ⟨key, ptr⟩ :: ys).map Record.ptr)
      (ptr :: (xs ++ ys).map Record.ptr) := List.perm_middle.map Record.ptr
    exact (swap.cons 0).nodup_iff.mpr distinct
  length := by simp only [List.length_append, List.length_cons, Nat.add_assoc]

theorem insert_end (gap : Gap page xs ys) (leaf : page.leftmost = 0)
    (forward : page.isForward = true) (sorted : Sorted (xs ++ ys))
    (distinct : (0 :: ptr :: (xs ++ ys).map Record.ptr).Nodup) (below : ∀ e ∈ xs, e.key < key)
    (above : ∀ e ∈ ys, key < e.key) (fits : (xs ++ ys).length < cardinality) (hidden : Page)
    (store : hidden = page.setPtr xs.length (lastPtr 0 xs)) :
    ∃ new last, Inserted (xs ++ ys) key ptr new ∧
      Turn (Seen · (xs ++ ys)) (Seen · new) [hidden, hidden.setKey xs.length key,
        (hidden.setKey xs.length key).setPtr xs.length ptr] ∧
      Ends page [hidden, hidden.setKey xs.length key, (hidden.setKey xs.length key).setPtr xs.length
        ptr] last ∧ Shows last new := by
  have inserted := inserted_between sorted distinct below above
  have old : (0 :: (xs ++ ys).map Record.ptr).Nodup :=
    distinct.sublist (List.Sublist.cons_cons 0 (List.sublist_cons_self ..))
  have first : SameBut xs.length page hidden := store ▸ SameBut.setPtr page _ _
  have second := first.trans (SameBut.setKey hidden xs.length key)
  have third := second.trans (SameBut.setPtr (hidden.setKey xs.length key) xs.length ptr)
  have never {p : Page} (same : SameBut xs.length page p) : p.isForward = false → p.lastIndex + 1 =
    ((xs ++ ys).length + 1 : Nat) := by
    intro backward
    rw [same.forward, forward] at backward
    cases backward
  have slot : ((hidden.setKey xs.length key).setPtr xs.length ptr).records xs.length =
    ⟨key, ptr⟩ := by simp
  have full := full_of_nodup inserted.distinct
  have shows : Shows ((hidden.setKey xs.length key).setPtr xs.length ptr)
    (xs ++ ⟨key, ptr⟩ :: ys) := by
    have shape := (gap.store third).shows (full_of_nodup old) (.inr (by
      rw [slot]
      exact full ⟨key, ptr⟩ ((inserted.mem _).mpr (.inl rfl))))
    rwa [slot] at shape
  refine ⟨_, _, inserted, ?_, ⟨rfl, third.leftmost, third.switchCounter, third.lastIndex⟩, shows⟩
  refine .before ((gap.store first).hidden old ?_ (first.leftmost.trans leaf) fits (never first)) ?_
  · rw [store, setPtr_record]
  refine .before ((gap.store second).hidden old ?_ (second.leftmost.trans leaf) fits
    (never second)) ?_
  · rw [setKey_record, store, setPtr_record]
  refine .after fun p member => ?_
  cases List.mem_singleton.mp member
  refine ⟨third.leftmost.trans leaf, _, shows, (apart_of_nodup inserted.distinct).alive_eq, ?_,
    fun backward => ?_⟩
  · rw [inserted.length]
    exact fits
  · rw [third.forward, forward] at backward
    cases backward

theorem Ends.cons {last : Page} {trace : List Page} (ends : Ends page trace last) (first : Page)
    (same : SameBut i other page) :
    Ends other (first :: trace) last := by
  refine ⟨?_, ends.leftmost.trans same.leftmost, ends.switchCounter.trans same.switchCounter,
    ends.lastIndex.trans same.lastIndex⟩
  cases trace with
  | nil => cases ends.ending
  | cons next rest => exact ends.ending

-- The induction is on the records that are left to compare; `ys` have moved up by one.
theorem insertLoop_turns (xs : List Record) :
    ∀ (ys : List Record) (page : Page), Gap page xs ys → page.leftmost = 0 →
    page.isForward = true → Sorted (xs ++ ys) → (0 :: ptr :: (xs ++ ys).map Record.ptr).Nodup →
      (∀ e ∈ xs, e.key ≠ key) →
    (∀ e ∈ ys, key < e.key) → (xs ++ ys).length < cardinality →
    ∃ new last, Inserted (xs ++ ys) key ptr new ∧ Turn (Seen · (xs ++ ys)) (Seen · new)
      (insertLoop key ptr xs.length page) ∧
      Ends page (insertLoop key ptr xs.length page) last ∧ Shows last new := by
  induction xs using List.reverseRecOn with
  | nil =>
      intro ys page gap leaf forward sorted distinct _ above fits
      exact insert_end gap leaf forward sorted distinct nofun above fits _
        (congrArg (page.setPtr 0) leaf)
  | append_singleton init e ih =>
      intro ys page gap leaf forward sorted distinct absent above fits
      have here : page.records init.length = e :=
        gap.before _ _ (by rw [List.getElem?_append_right (Nat.le_refl _), Nat.sub_self]; rfl)
      have last : lastPtr 0 (init ++ [e]) = e.ptr := lastPtr_concat _ _ _
      have length : (init ++ [e]).length = init.length + 1 := by
        rw [List.length_append, List.length_singleton]
      rw [length, insertLoop, here]
      by_cases less : key < e.key
      · rw [if_pos less]
        have old : (0 :: (init ++ [e] ++ ys).map Record.ptr).Nodup :=
          distinct.sublist (List.Sublist.cons_cons 0 (List.sublist_cons_self ..))
        obtain ⟨hidden, at_hidden⟩ : ∃ p, p = page.setPtr (init ++ [e]).length e.ptr := ⟨_, rfl⟩
        obtain ⟨copied, at_copied⟩ : ∃ p, p = hidden.setKey (init ++ [e]).length e.key := ⟨_, rfl⟩
        have first : SameBut (init ++ [e]).length page hidden := at_hidden ▸ SameBut.setPtr page _ _
        have second : SameBut (init ++ [e]).length page copied :=
          at_copied ▸ first.trans (SameBut.setKey hidden _ _)
        have never {p : Page} (same : SameBut (init ++ [e]).length page p) :
            p.isForward = false → p.lastIndex + 1 = ((init ++ [e] ++ ys).length + 1 : Nat) := by
          intro backward
          rw [same.forward, forward] at backward
          cases backward
        have slot : copied.records (init ++ [e]).length = e := by
          rw [at_copied, setKey_record, at_hidden, setPtr_record]
        rw [← length, ← at_hidden, ← at_copied]
        have gap' : Gap copied init (e :: ys) := by
          have kept := gap.store second
          constructor
          · exact fun j r at_j => kept.before j r
              ((List.getElem?_append_left (List.getElem?_eq_some_iff.mp at_j).1).trans at_j)
          · intro j r at_j
            cases j with
            | zero =>
                rw [Nat.add_zero, ← length, slot]
                exact Option.some.inj at_j
            | succ j =>
                rw [show init.length + 1 + (j + 1) = (init ++ [e]).length + 1 + j by
                  rw [length]; omega]
                exact kept.after j r at_j
          · rw [List.length_cons,
              show init.length + 1 + (ys.length + 1) = (init ++ [e]).length + 1 + ys.length by
              rw [length]; omega]
            exact kept.stop
        have shape : init ++ [e] ++ ys = init ++ e :: ys := by rw [List.append_assoc]; rfl
        obtain ⟨new, final, inserted, turn, ends, shows⟩ :=
          ih (e :: ys) copied gap' (second.leftmost.trans leaf) (second.forward.trans forward)
          (shape ▸ sorted) (shape ▸ distinct)
          (fun x member => absent x (List.mem_append_left _ member))
          (fun x member => (List.mem_cons.mp member).elim (fun same => same ▸ less) (above x))
          (shape ▸ fits)
        refine ⟨new, final, shape ▸ inserted, ?_, (ends.cons copied second).cons hidden
          (.refl (i := 0) _), shows⟩
        refine .before ((gap.store first).hidden old ?_ (first.leftmost.trans leaf) fits
          (never first)) ?_
        · rw [at_hidden, setPtr_record, last]
        refine .before ((gap.store second).hidden old ?_ (second.leftmost.trans leaf) fits
          (never second)) ?_
        · rw [slot, last]
        · rw [shape]
          exact turn
      · rw [if_neg less]
        have below : ∀ x ∈ init ++ [e], x.key < key := by
          have small : e.key < key :=
            Nat.lt_of_le_of_ne (Nat.le_of_not_lt less)
            (absent e (List.mem_append_right _ (List.mem_singleton_self e)))
          intro x member
          rcases List.mem_append.mp member with inside | single
          · have chain := (List.pairwise_append.mp (List.pairwise_append.mp sorted).1).2.2 x inside
              e (List.mem_singleton_self e)
            exact chain.trans small
          · rwa [List.mem_singleton.mp single]
        have closing := insert_end gap leaf forward sorted distinct below above fits
          (page.setPtr (init.length + 1) e.ptr)
          (by rw [length, last])
        rwa [length] at closing

end SetBench.FastFair
