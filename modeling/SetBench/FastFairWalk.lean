import Mathlib
import SetBench.FastFairSplit

/-! Searches that start at a leaf in the middle, as they come from an old parent. -/
namespace SetBench.FastFair

variable {page other : Page} {es : List Record} {chain more : Chain} {h next key low : Nat}

def lows (chain : Chain) : List Nat := chain.map Prod.fst

-- The chain from the leaf with this hdr.highest on.
def fromLeaf (low : Nat) : Chain → Chain
  | [] => []
  | (highest, page) :: more => if highest = low then (highest, page) :: more else fromLeaf low more

/-- From each leaf at or before its place, a key is found as from the first. -/
def Along (chain : Chain) : Prop :=
  ∀ low key, low ∈ lows chain → low ≤ key → search (fromLeaf low chain) key = search chain key

def Ascending (chain : Chain) : Prop := (lows chain).Pairwise (· < ·)

def Grows (chain later : Chain) : Prop := ∀ low ∈ lows chain, low ∈ lows later

instance : Trans Grows Grows Grows := ⟨fun one two low there => two low (one low there)⟩

theorem Grows.of_lows {later : Chain} (same : lows later = lows chain) : Grows chain later :=
  fun _ there => same ▸ there

theorem Along.cons (along : Along more)
    (behind : ∀ low ∈ lows more, ∀ key, low ≤ key → search ((h, page) :: more) key = search
      more key) :
    Along ((h, page) :: more) := by
  intro low key there le
  rw [fromLeaf]
  by_cases own : h = low
  · rw [if_pos own]
  · rw [if_neg own]
    have later : low ∈ lows more := (List.mem_cons.mp there).resolve_left fun same => own same.symm
    exact (along low key later le).trans (behind low later key le).symm

theorem ChainOk.least (ok : ChainOk h chain) : ∀ low ∈ lows chain, h ≤ low := by
  induction ok with
  | last => exact fun low there => (List.mem_singleton.mp there).ge
  | cons _ _ _ less _ ih =>
      intro low there
      rcases List.mem_cons.mp there with same | later
      · exact same.ge
      · exact less.le.trans (ih low later)

theorem ChainOk.ascending (ok : ChainOk h chain) : Ascending chain := by
  induction ok with
  | last => exact List.pairwise_singleton _ _
  | cons _ _ _ less tail ih =>
      exact List.pairwise_cons.mpr
        ⟨fun low there => Nat.lt_of_lt_of_le less (tail.least low there), ih⟩

-- The keys from a later leaf on are not held here.
theorem Leaf.behind_search (leaf : Leaf h page more es) (there : low ∈ lows more) (le : low ≤ key) :
    further more key = true ∧ search ((h, page) :: more) key = search more key := by
  rcases leaf.tail with rfl | ⟨next, _, tail⟩
  · cases there
  · have on : further more key = true :=
      (tail.further key).trans (decide_eq_true ((tail.least low there).trans le))
    refine ⟨on, ?_⟩
    rw [search_cons, leaf.passes on, if_neg (not_not_intro rfl), if_pos on]

theorem along_nil : Along [] := fun _ _ there => absurd there List.not_mem_nil

theorem ChainOk.along (ok : ChainOk h chain) : Along chain := by
  induction ok with
  | last => exact along_nil.cons fun low there => absurd there List.not_mem_nil
  | cons rest low high less tail ih =>
      obtain ⟨es, leaf⟩ := (ChainOk.cons rest low high less tail).leaf
      exact ih.cons fun low there key le => (leaf.behind_search there le).2

-- Another page in the place of the first, with the same answers behind it.
theorem Leaf.along_like (leaf : Leaf h page more es)
    (same : ∀ k, further more k = true → search ((h, other) :: more) k = search
      ((h, page) :: more) k) : Along ((h, other) :: more) := by
  have along : Along more := by
    rcases leaf.tail with rfl | ⟨next, _, tail⟩
    · exact along_nil
    · exact tail.along
  refine along.cons fun low there key le => ?_
  obtain ⟨on, behind⟩ := leaf.behind_search there le
  exact (same key on).trans behind

/-- What a reader among the stores of an operation relies on. -/
structure Walk (h : Nat) (chain : Chain) (trace : List Chain) : Prop where
  along : ∀ c ∈ trace, Along c
  ascending : ∀ c ∈ trace, Ascending c
  least : ∀ c ∈ trace, ∀ low ∈ lows c, h ≤ low
  grows : List.IsChain Grows (chain :: trace)

theorem grows_same {trace : List Chain} (same : ∀ c ∈ trace, lows c = lows chain) :
    List.IsChain Grows (chain :: trace) := by
  induction trace generalizing chain with
  | nil => exact List.isChain_singleton _
  | cons c rest ih =>
      have first := same c List.mem_cons_self
      refine List.isChain_cons_cons.mpr ⟨.of_lows first, ih fun d member => ?_⟩
      rw [same d (List.mem_cons_of_mem c member), first]

theorem Leaf.walk (leaf : Leaf h page more es) {stores : List Page} {v : Nat}
    (here : further more key = false)
    (seen : ∀ c ∈ stores.map (fun p => (h, p) :: more), Gives (search ((h, page) :: more)) c ∨
      Gives (Function.update (search ((h, page) :: more)) key v) c) :
    Walk h ((h, page) :: more) (stores.map fun p => (h, p) :: more) := by
  constructor
  case along =>
    intro c member
    have gives := seen c member
    obtain ⟨p, _, rfl⟩ := List.mem_map.mp member
    apply leaf.along_like
    intro k on
    rcases gives with old | new
    · exact old k
    · refine (new k).trans (Function.update_of_ne ?_ _ _)
      rintro rfl
      rw [here] at on
      cases on
  case ascending =>
    intro c member
    obtain ⟨p, _, rfl⟩ := List.mem_map.mp member
    exact leaf.ok.ascending
  case least =>
    intro c member
    obtain ⟨p, _, rfl⟩ := List.mem_map.mp member
    exact leaf.ok.least
  case grows =>
    apply grows_same
    intro c member
    obtain ⟨p, _, rfl⟩ := List.mem_map.mp member
    rfl

theorem Walk.behind {trace : List Chain} (walk : Walk next more trace)
    (leaf : Leaf h page more es) (ok : ChainOk next more) (less : h < next)
    (heads : ∀ c ∈ trace, ∀ k, further c k = further more k) :
    Walk h ((h, page) :: more) (trace.map ((h, page) :: ·)) := by
  constructor
  case along =>
    intro c member
    obtain ⟨tail, inside, rfl⟩ := List.mem_map.mp member
    apply (walk.along tail inside).cons
    intro low there key le
    have on : further more key = true :=
      (ok.further key).trans (decide_eq_true ((walk.least tail inside low there).trans le))
    rw [search_cons, leaf.passes on, if_neg (not_not_intro rfl), heads tail inside, if_pos on]
  case ascending =>
    intro c member
    obtain ⟨tail, inside, rfl⟩ := List.mem_map.mp member
    exact List.pairwise_cons.mpr
      ⟨fun low there => Nat.lt_of_lt_of_le less (walk.least tail inside low there),
      walk.ascending tail inside⟩
  case least =>
    intro c member low there
    obtain ⟨tail, inside, rfl⟩ := List.mem_map.mp member
    rcases List.mem_cons.mp there with same | later
    · exact same.ge
    · exact less.le.trans (walk.least tail inside low later)
  case grows =>
    have whole : List.IsChain Grows ((more :: trace).map ((h, page) :: ·)) := by
      refine (List.isChain_map _).mpr (walk.grows.imp fun c d grows low there => ?_)
      rcases List.mem_cons.mp there with same | later
      · exact List.mem_cons.mpr (.inl same)
      · exact List.mem_cons_of_mem _ (grows low later)
    exact whole

theorem Walk.precede (first : List Chain) (last : Chain) {trace : List Chain}
    (before : Walk h chain (first ++ [last])) (after : Walk h last trace) :
    Walk h chain (first ++ [last] ++ trace) := by
  constructor
  case along =>
    exact fun c member => (List.mem_append.mp member).elim (before.along c) (after.along c)
  case ascending =>
    exact fun c member => (List.mem_append.mp member).elim (before.ascending c) (after.ascending c)
  case least =>
    exact fun c member => (List.mem_append.mp member).elim (before.least c) (after.least c)
  case grows =>
    rw [List.append_assoc]
    exact List.isChain_cons_split.mpr ⟨before.grows, after.grows⟩

end SetBench.FastFair
