import Mathlib
import SetBench.FastFairRuns

/-! The leaves of ds/23-fastfair/btree.h along their sibling pointers, each with its hdr.highest:
page::store with its split, and page::remove. An operation is the list of the chains it goes
through, one for every store to a page that others can see. -/
namespace SetBench.FastFair

abbrev Chain := List (Nat × Page)

-- hdr.sibling_ptr && key >= hdr.sibling_ptr->hdr.highest
def further : Chain → Nat → Bool
  | [], _ => false
  | (highest, _) :: _, key => decide (highest ≤ key)

/-- btree_search from a leaf on: linear_search, and the sibling if it sends there. -/
def search : Chain → Nat → Nat
  | [], _ => 0
  | (_, page) :: more, key =>
      if page.linearSearch key ≠ 0 then page.linearSearch key
      else if further more key then search more key
      else 0

-- The loop that migrates records to the new sibling.
def migrate : List Record → Nat → Page → Page
  | [], _, sibling => sibling
  | r :: rest, cnt, sibling =>
      migrate rest (cnt + 1) ((insertKey sibling r.key r.ptr cnt).getLastD sibling)

structure Split where
  m : Nat
  splitKey : Nat
  sibling : Page
  turned : Page
  -- records[m].ptr = NULL, and then last_index = m - 1
  cut : Page
  ended : Page

def Page.split (page : Page) : Split :=
  let numEntries := page.count
  let m := numEntries / 2
  let turned := page.toBackward
  let cut := turned.setPtr m 0
  { m := m
    splitKey := (page.records m).key
    sibling := migrate ((List.range' m (numEntries - m)).map page.records) 0 emptyPage
    turned := turned
    cut := cut
    ended := { cut with lastIndex := (m : Int) - 1 } }

-- The stores of a split, and with them the chains it goes through.
def Split.chains (s : Split) (highest : Nat) (more : Chain) : List Chain :=
  let linked := (s.splitKey, s.sibling) :: more
  [(highest, s.turned) :: more, (highest, s.turned) :: linked, (highest, s.cut) :: linked,
    (highest, s.ended) :: linked]

def store (key ptr : Nat) : Chain → List Chain
  | [] => []
  | (highest, page) :: more =>
      if further more key then (store key ptr more).map ((highest, page) :: ·)
      else if page.count < cardinality - 1 then (insertKey page key ptr page.count).map fun p =>
        (highest, p) :: more
      else
        let s := page.split
        s.chains highest more ++
          if key < s.splitKey then (insertKey s.ended key ptr s.m).map fun p =>
            (highest, p) :: (s.splitKey, s.sibling) :: more
          else (insertKey s.sibling key ptr (page.count - s.m)).map fun p =>
            (highest, s.ended) :: (s.splitKey, p) :: more

/-- One round of btree_delete. A key that is in no leaf ends it at the last leaf; before that
the page is turned and the round starts again, which is a remove of its own. -/
def remove (key : Nat) : Chain → List Chain
  | [] => []
  | (highest, page) :: more =>
      if page.linearSearch key = 0 ∧ further more key then (remove key more).map
        ((highest, page) :: ·)
      else if page.linearSearch key = 0 ∧ more = [] then []
      else (removeKey page key).map fun p => (highest, p) :: more

def Op.chains (op : Op) (chain : Chain) : List Chain :=
  match op with
  | .insert key ptr => FastFair.store key ptr chain
  | .remove key => FastFair.remove key chain

def Op.after (op : Op) (chain : Chain) : Chain := (op.chains chain).getLastD chain

theorem search_cons (highest : Nat) (page : Page) (more : Chain) (key : Nat) :
    search ((highest, page) :: more) key =
    if page.linearSearch key ≠ 0 then page.linearSearch key
    else if further more key then search more key
    else 0 := rfl

/-- The leaves from one on: each holds the keys from its hdr.highest up to the one of the next. -/
inductive ChainOk : Nat → Chain → Prop where
  | last {h : Nat} {page : Page} {es : List Record} (rest : Rest page es)
    (low : ∀ e ∈ es, h ≤ e.key) : ChainOk h [(h, page)]
  | cons {h next : Nat} {page : Page} {es : List Record} {more : Chain} (rest : Rest page es)
    (low : ∀ e ∈ es, h ≤ e.key)
      (high : ∀ e ∈ es, e.key < next) (less : h < next) (tail : ChainOk next more) :
      ChainOk h ((h, page) :: more)

variable {page : Page} {es new : List Record} {chain more : Chain} {h next key ptr : Nat}

theorem Rest.search (rest : Rest page es) (key : Nat) : page.linearSearch key = lookup es key :=
  (rest.seen rfl rfl rfl).search rest.sorted key

theorem ChainOk.further (ok : ChainOk h chain) (key : Nat) :
    further chain key = decide (h ≤ key) := by
  cases ok <;> rfl

/-- What a leaf of the chain is, whatever comes behind it. -/
structure Leaf (h : Nat) (page : Page) (more : Chain) (es : List Record) : Prop where
  rest : Rest page es
  low : ∀ e ∈ es, h ≤ e.key
  high : ∀ e ∈ es, FastFair.further more e.key = false
  tail : more = [] ∨ ∃ next, h < next ∧ ChainOk next more

theorem Leaf.ok (leaf : Leaf h page more es) : ChainOk h ((h, page) :: more) := by
  rcases leaf.tail with rfl | ⟨next, less, tail⟩
  · exact .last leaf.rest leaf.low
  · refine .cons leaf.rest leaf.low (fun e member => ?_) less tail
    have here := leaf.high e member
    rw [tail.further] at here
    exact Nat.lt_of_not_le (of_decide_eq_false here)

theorem ChainOk.leaf (ok : ChainOk h ((h, page) :: more)) : ∃ es, Leaf h page more es := by
  cases ok with
  | last rest low => exact ⟨_, rest, low, fun _ _ => rfl, .inl rfl⟩
  | cons rest low high less tail =>
      refine ⟨_, rest, low, fun e member => ?_, .inr ⟨_, less, tail⟩⟩
      rw [tail.further]
      exact decide_eq_false (Nat.not_le_of_lt (high e member))

theorem ChainOk.absent (ok : ChainOk h chain) (less : key < h) : search chain key = 0 := by
  have nothing {page : Page} {es : List Record} (rest : Rest page es) (low : ∀ e ∈ es, h ≤ e.key) :
    page.linearSearch key = 0 := by
    rw [rest.search]
    exact lookup_absent fun e member same => absurd (same ▸ low e member) (Nat.not_le_of_lt less)
  cases ok with
  | last rest low =>
      rw [search_cons, nothing rest low, if_neg (not_not_intro rfl), FastFair.further,
        if_neg Bool.false_ne_true]
  | cons rest low _ above tail =>
      rw [search_cons, nothing rest low, if_neg (not_not_intro rfl), tail.further, if_neg]
      exact fun reached => absurd (of_decide_eq_true reached) (Nat.not_le_of_lt (less.trans above))

-- A key that belongs further on is not in this leaf.
theorem Leaf.passes (leaf : Leaf h page more es) (on : further more key = true) :
    page.linearSearch key = 0 := by
  rw [leaf.rest.search]
  refine lookup_absent fun e member same => ?_
  rw [← same, leaf.high e member] at on
  cases on

theorem Turn.map {α β : Type} {old new : α → Prop} {old' new' : β → Prop} {trace : List α}
    (turn : Turn old new trace) (f : α → β) (left : ∀ a, old a → old' (f a))
    (right : ∀ a, new a → new' (f a)) : Turn old' new' (trace.map f) := by
  induction turn with
  | before seen _ ih => exact .before (left _ seen) ih
  | after seen =>
      refine .after fun b member => ?_
      obtain ⟨a, inside, rfl⟩ := List.mem_map.mp member
      exact right a (seen a inside)

theorem Turn.precede {α : Type} {old new : α → Prop} {first trace : List α}
    (all : ∀ a ∈ first, old a) (turn : Turn old new trace) :
    Turn old new (first ++ trace) := by
  induction first with
  | nil => exact turn
  | cons a rest ih =>
      exact .before (all a List.mem_cons_self)
        (ih fun b member => all b (List.mem_cons_of_mem a member))

theorem getLastD_map {α β : Type} (f : α → β) (trace : List α) (a : α) :
    (trace.map f).getLastD (f a) = f (trace.getLastD a) := by
  rw [List.getLastD_eq_getLast?, List.getLastD_eq_getLast?, List.getLast?_map]
  cases trace.getLast? <;> rfl

/-- The chain answers for the keys as `map` does. -/
def Gives (map : Nat → Nat) (chain : Chain) : Prop := ∀ k, search chain k = map k

-- An operation on one leaf, seen from the start of the chain.
theorem Leaf.step (leaf : Leaf h page more es) (op : Op) (allowed : op.Allowed page (lookup es))
    {key v : Nat} (meaning : op.meaning = fun map => Function.update map key v)
    (here : further more key = false) (low : h ≤ key) :
    Turn (Gives (search ((h, page) :: more)))
      (Gives (Function.update (search ((h, page) :: more)) key v))
        ((op.stores page).map fun p => (h, p) :: more) ∧
      Gives (Function.update (search ((h, page) :: more)) key v) ((h, op.apply page) :: more) ∧
        ∃ new, Leaf h (op.apply page) more new := by
  obtain ⟨new, after, sorted, turn, final⟩ := leaf.rest.step op allowed
  have same : lookup new = Function.update (lookup es) key v := after.trans (congrFun meaning _)
  have gives {p : Page} (found : ∀ k, p.linearSearch k = lookup new k) :
      Gives (Function.update (search ((h, page) :: more)) key v) ((h, p) :: more) := by
    intro k
    rw [search_cons, found, same]
    by_cases own : k = key
    · rw [own, Function.update_self, Function.update_self, here, if_neg Bool.false_ne_true]
      split
      · rfl
      · rename_i zero
        exact (not_not.mp zero).symm
    · rw [Function.update_of_ne own, Function.update_of_ne own, search_cons, leaf.rest.search]
  refine ⟨turn.map _ (fun p seen k => ?_) fun p seen => gives fun k => seen.search sorted k,
    gives final.search, ?_⟩
  · rw [search_cons, search_cons, seen.search leaf.rest.sorted, leaf.rest.search]
  · have from_old {e : Record} (member : e ∈ new) : e.key = key ∨ ∃ o ∈ es, o.key = e.key := by
      by_cases own : e.key = key
      · exact .inl own
      · refine .inr (lookup_pos_mem ?_)
        have shown := sorted.lookup_mem member
        rw [same, Function.update_of_ne own] at shown
        rw [shown]
        exact full_of_nodup final.distinct e member
    refine ⟨new, final, fun e member => ?_, fun e member => ?_, leaf.tail⟩
    · rcases from_old member with same_key | ⟨o, inside, same_key⟩
      · exact same_key ▸ low
      · exact same_key ▸ leaf.low o inside
    · rcases from_old member with same_key | ⟨o, inside, same_key⟩
      · exact same_key ▸ here
      · exact same_key ▸ leaf.high o inside

-- The chain behind a leaf changes, and the leaf does not hold the key.
theorem Leaf.behind (leaf : Leaf h page more es) {trace : List Chain} {v : Nat}
    (on : further more key = true)
    (turn : Turn (Gives (search more)) (Gives (Function.update (search more) key v)) trace)
    (same : ∀ c ∈ trace, ∀ k, further c k = further more k) :
    Turn (Gives (search ((h, page) :: more)))
      (Gives (Function.update (search ((h, page) :: more)) key v))
      (trace.map ((h, page) :: ·)) := by
  have passes := leaf.passes on
  induction turn with
  | before seen _ ih =>
      refine .before (fun k => ?_) (ih fun c member => same c (List.mem_cons_of_mem _ member))
      rw [search_cons, search_cons, same _ List.mem_cons_self, seen k]
  | after seen =>
      refine .after fun c member k => ?_
      obtain ⟨tail, inside, rfl⟩ := List.mem_map.mp member
      rw [search_cons, same tail inside, seen tail inside k]
      by_cases own : k = key
      · rw [own, passes, if_neg (not_not_intro rfl), on, if_pos rfl, Function.update_self,
          Function.update_self]
      · rw [Function.update_of_ne own, Function.update_of_ne own, search_cons]

end SetBench.FastFair
