import Mathlib
import SetBench.FastFairWalk

/-! Whole runs of the chain of leaves. -/
namespace SetBench.FastFair

variable {page : Page} {es new : List Record} {chain more : Chain} {h next key ptr : Nat}

-- What the callers keep: a new key with a pointer that no other key has.
def Op.Fresh (op : Op) (map : Nat → Nat) : Prop :=
  match op with
  | .insert key ptr => map key = 0 ∧ ptr ≠ 0 ∧ ∀ k, map k ≠ ptr
  | .remove _ => True

theorem Leaf.fresh (leaf : Leaf h page more es)
    (fresh : (Op.insert key ptr).Fresh (search ((h, page) :: more))) :
    lookup es key = 0 ∧ ptr ≠ 0 ∧ ∀ k, lookup es k ≠ ptr := by
  obtain ⟨absent, some, apart⟩ := fresh
  have from_page {k : Nat} (found : lookup es k ≠ 0) : search ((h, page) :: more) k =
    lookup es k := by
    rw [search_cons, leaf.rest.search, if_pos found]
  refine ⟨?_, some, fun k same => ?_⟩
  · by_contra found
    exact found ((from_page found).symm.trans absent)
  · have found : lookup es k ≠ 0 := same ▸ some
    exact apart k ((from_page found).trans same)

theorem Leaf.allowed (leaf : Leaf h page more es)
    (fresh : (Op.insert key ptr).Fresh (search ((h, page) :: more)))
    (room : es.length < cardinality - 1) : (Op.insert key ptr).Allowed page (lookup es) := by
  obtain ⟨absent, some, apart⟩ := leaf.fresh fresh
  exact ⟨absent, some, apart, leaf.rest.count.symm ▸ room⟩

theorem Leaf.fresh_behind (leaf : Leaf h page more es) (ok : ChainOk next more)
    (on : further more key = true)
    (fresh : (Op.insert key ptr).Fresh (search ((h, page) :: more))) :
    (Op.insert key ptr).Fresh (search more) := by
  obtain ⟨absent, some, apart⟩ := fresh
  have behind {k : Nat} (reached : further more k = true) : search ((h, page) :: more) k =
    search more k := by
    rw [search_cons, leaf.passes reached, if_neg (not_not_intro rfl), if_pos reached]
  refine ⟨(behind on).symm.trans absent, some, fun k => ?_⟩
  by_cases reached : further more k = true
  · exact behind reached ▸ apart k
  · rw [ok.further, decide_eq_true_eq] at reached
    rw [ok.absent (Nat.lt_of_not_le reached)]
    exact some.symm

section Split

variable {s : Split} {moved : List Record}

theorem Leaf.right (leaf : Leaf h page more es) (ok : SplitOk page es s moved) :
    Leaf s.splitKey s.sibling more moved where
  rest := ok.right
  low e member := ok.high e ((ok.members e).mp member)
  high e member := leaf.high e (List.mem_of_mem_drop ((ok.members e).mp member))
  tail := by
    rcases leaf.tail with none_ | ⟨next, _, tail⟩
    · exact .inl none_
    · obtain ⟨e, member, same⟩ := ok.at_split
      have less := leaf.high e member
      rw [tail.further, same, decide_eq_false_iff_not] at less
      exact .inr ⟨next, Nat.lt_of_not_le less, tail⟩

theorem Leaf.above (leaf : Leaf h page more es) (ok : SplitOk page es s moved) :
    h < s.splitKey := by
  obtain ⟨e, member, less⟩ := ok.below_split
  exact Nat.lt_of_le_of_lt (leaf.low e member) less

theorem Leaf.left (leaf : Leaf h page more es) (ok : SplitOk page es s moved) :
    Leaf h s.ended ((s.splitKey, s.sibling) :: more) (es.take s.m) where
  rest := ok.left
  low e member := leaf.low e (List.mem_of_mem_take member)
  high e member := decide_eq_false (Nat.not_le_of_lt (ok.low e member))
  tail := .inr ⟨s.splitKey, leaf.above ok, (leaf.right ok).ok⟩

theorem lookup_right (sorted : Sorted es) (ok : SplitOk page es s moved) (k : Nat) :
    lookup moved k = lookup (es.drop s.m) k :=
  lookup_congr ok.right.sorted (sorted.sublist (List.drop_sublist _ es)) ok.members k

-- With the sibling linked, a search that misses a key that moved finds it there.
theorem Leaf.linked (leaf : Leaf h page more es) (ok : SplitOk page es s moved) {q : Page}
    (answers : ∀ k, q.linearSearch k = lookup es k ∨
      (q.linearSearch k = 0 ∧ s.splitKey ≤ k ∧ lookup es k = lookup moved k)) :
    Gives (search ((h, page) :: more)) ((h, q) :: (s.splitKey, s.sibling) :: more) := by
  intro k
  have sibling : search ((s.splitKey, s.sibling) :: more) k =
      if lookup moved k ≠ 0 then lookup moved k
      else if further more k then search more k
      else 0 := by
    rw [search_cons, ok.right.search]
  rw [search_cons h q, search_cons h page more, leaf.rest.search]
  rcases answers k with same | ⟨zero, reached, same⟩
  · rw [same]
    by_cases found : lookup es k ≠ 0
    · rw [if_pos found, if_pos found]
    · rw [if_neg found, if_neg found, sibling]
      have unmoved : ¬ lookup moved k ≠ 0 := by
        intro there
        obtain ⟨e, member, at_k⟩ := lookup_pos_mem there
        have inside := List.mem_of_mem_drop ((ok.members e).mp member)
        rw [← at_k, leaf.rest.sorted.lookup_mem inside] at found
        exact found (full_of_nodup leaf.rest.distinct e inside)
      rw [if_neg unmoved]
      by_cases reached : s.splitKey ≤ k
      · rw [further, decide_eq_true reached, if_pos rfl]
      · rw [further, decide_eq_false reached, if_neg Bool.false_ne_true]
        have before : further more k = false := by
          rcases (leaf.right ok).tail with none_ | ⟨next, above, tail⟩
          · rw [none_, further]
          · rw [tail.further]
            exact decide_eq_false fun less => reached (above.le.trans less)
        rw [before, if_neg Bool.false_ne_true]
  · rw [zero, if_neg (not_not_intro rfl), further, decide_eq_true reached, if_pos rfl, sibling,
      same]

theorem Split.each {P : Chain → Prop} (s : Split) (turned : P ((h, s.turned) :: more))
    (linked : P ((h, s.turned) :: (s.splitKey, s.sibling) :: more))
    (cut : P ((h, s.cut) :: (s.splitKey, s.sibling) :: more))
    (ended : P ((h, s.ended) :: (s.splitKey, s.sibling) :: more)) : ∀ c ∈ s.chains h more, P c := by
  intro c member
  rw [Split.chains, List.mem_cons, List.mem_cons, List.mem_cons, List.mem_singleton] at member
  rcases member with rfl | rfl | rfl | rfl
  · exact turned
  · exact linked
  · exact cut
  · exact ended

theorem Split.chains_head (s : Split) : ∀ c ∈ s.chains h more, ∀ k, further c k = decide (h ≤ k) :=
  s.each (fun _ => rfl) (fun _ => rfl) (fun _ => rfl) fun _ => rfl

theorem Leaf.split_gives (leaf : Leaf h page more es) (ok : SplitOk page es s moved) :
    ∀ c ∈ s.chains h more, Gives (search ((h, page) :: more)) c := by
  apply s.each (P := Gives (search ((h, page) :: more)))
  case turned =>
    intro k
    rw [search_cons, search_cons, ok.turned, leaf.rest.search]
  case linked => exact leaf.linked ok fun k => .inl (ok.turned k)
  case cut => exact leaf.linked ok ok.cut
  case ended =>
    apply leaf.linked ok
    intro k
    rw [ok.left.search]
    by_cases present : ∃ e ∈ es.take s.m, e.key = k
    · obtain ⟨e, member, rfl⟩ := present
      exact .inl ((ok.left.sorted.lookup_mem member).trans
        (leaf.rest.sorted.lookup_mem (List.mem_of_mem_take member)).symm)
    · have missing : ∀ e ∈ es.take s.m, e.key ≠ k := fun e member same => present ⟨e, member, same⟩
      have behind := lookup_drop leaf.rest.sorted missing
      rw [lookup_absent missing]
      by_cases found : lookup es k = 0
      · exact .inl found.symm
      · rw [← lookup_right leaf.rest.sorted ok] at behind
        obtain ⟨e, member, at_k⟩ := lookup_pos_mem (behind ▸ found)
        exact .inr ⟨rfl, at_k ▸ ok.high e ((ok.members e).mp member), behind⟩

theorem Leaf.split_walk (leaf : Leaf h page more es) (ok : SplitOk page es s moved) :
    Walk h ((h, page) :: more) (s.chains h more) := by
  have gives := leaf.split_gives ok
  have left_leaf := leaf.left ok
  have ended := gives ((h, s.ended) :: (s.splitKey, s.sibling) :: more)
    (List.mem_append_right [_, _, _] (List.mem_singleton_self _))
  constructor
  case along =>
    have like {q : Page} (gives_q : Gives (search ((h, page) :: more))
      ((h, q) :: (s.splitKey, s.sibling) :: more)) :
        Along ((h, q) :: (s.splitKey, s.sibling) :: more) := left_leaf.along_like fun k _ =>
          (gives_q k).trans (ended k).symm
    apply s.each (P := Along)
    case turned => exact leaf.along_like fun k _ => gives _ List.mem_cons_self k
    case linked => exact like (gives _ (List.mem_cons_of_mem _ List.mem_cons_self))
    case cut =>
      exact like (gives _ (List.mem_cons_of_mem _ (List.mem_cons_of_mem _ List.mem_cons_self)))
    case ended => exact like ended
  case ascending =>
    exact s.each leaf.ok.ascending left_leaf.ok.ascending left_leaf.ok.ascending
      left_leaf.ok.ascending
  case least => exact s.each leaf.ok.least left_leaf.ok.least left_leaf.ok.least left_leaf.ok.least
  case grows =>
    have linked : Grows ((h, s.turned) :: more)
      ((h, s.turned) :: (s.splitKey, s.sibling) :: more) := by
      intro low there
      rcases List.mem_cons.mp there with same | later
      · exact List.mem_cons.mpr (.inl same)
      · exact List.mem_cons_of_mem _ (List.mem_cons_of_mem _ later)
    exact .cons_cons (.of_lows rfl)
      (.cons_cons linked (.cons_cons (.of_lows rfl) (.cons_cons (.of_lows rfl) (.singleton _))))

end Split

theorem getLastD_append {α : Type} (first second : List α) (last a : α) :
    (first ++ [last] ++ second).getLastD a = second.getLastD last := by
  rw [List.getLastD_eq_getLast?, List.getLastD_eq_getLast?, List.getLast?_append,
    List.getLast?_append]
  cases second.getLast? <;> rfl

/-- What an operation does to a chain of leaves that starts at `h`. -/
structure Done (h : Nat) (chain : Chain) (key v : Nat) (trace : List Chain) : Prop where
  turn : Turn (Gives (search chain)) (Gives (Function.update (search chain) key v)) trace
  final : Gives (Function.update (search chain) key v) (trace.getLastD chain)
  ok : ChainOk h (trace.getLastD chain)
  head : ∀ c ∈ trace, ∀ k, further c k = further chain k
  walk : Walk h chain trace

-- An operation behind a leaf.
theorem Done.behind {trace : List Chain} {v : Nat} (leaf : Leaf h page more es)
    (ok : ChainOk next more) (less : h < next) (on : further more key = true)
    (done : Done next more key v trace) :
    Done h ((h, page) :: more) key v (trace.map ((h, page) :: ·)) := by
  have last := getLastD_map (fun tail : Chain => (h, page) :: tail) trace more
  have same : ∀ k, further (trace.getLastD more) k = further more k := by
    intro k
    rw [done.ok.further, ok.further]
  constructor
  case turn => exact leaf.behind on done.turn done.head
  case final =>
    intro k
    rw [last, search_cons, same, done.final k]
    by_cases own : k = key
    · rw [own, leaf.passes on, if_neg (not_not_intro rfl), on, if_pos rfl, Function.update_self,
        Function.update_self]
    · rw [Function.update_of_ne own, Function.update_of_ne own, search_cons]
  case ok =>
    rw [last]
    have leaf' : Leaf h page (trace.getLastD more) es :=
      ⟨leaf.rest, leaf.low, fun e member => (same _).trans (leaf.high e member),
        .inr ⟨next, less, done.ok⟩⟩
    exact leaf'.ok
  case head =>
    intro c member k
    obtain ⟨tail, _, rfl⟩ := List.mem_map.mp member
    rfl
  case walk => exact done.walk.behind leaf ok less done.head

-- An operation on the first leaf.
theorem Leaf.done (leaf : Leaf h page more es) (op : Op) (allowed : op.Allowed page (lookup es))
    {v : Nat} (meaning : op.meaning = fun map => Function.update map key v)
    (here : further more key = false) (low : h ≤ key) :
    Done h ((h, page) :: more) key v ((op.stores page).map fun p => (h, p) :: more) := by
  obtain ⟨turn, final, new, leaf'⟩ := leaf.step op allowed meaning here low
  have last : ((op.stores page).map fun p => (h, p) :: more).getLastD ((h, page) :: more) =
    (h, op.apply page) :: more :=
    getLastD_map (fun p => (h, p) :: more) (op.stores page) page
  constructor
  case turn => exact turn
  case final =>
    rw [last]
    exact final
  case ok =>
    rw [last]
    exact leaf'.ok
  case head =>
    intro c member k
    obtain ⟨p, _, rfl⟩ := List.mem_map.mp member
    rfl
  case walk => exact leaf.walk here turn.seen

-- First the stores that leave every answer as it is.
theorem Done.precede (first : List Chain) (last : Chain) {trace : List Chain} {v : Nat}
    (all : ∀ c ∈ first ++ [last], Gives (search chain) c)
    (heads : ∀ c ∈ first ++ [last], ∀ k, further c k = further chain k)
    (walk : Walk h chain (first ++ [last])) (done : Done h last key v trace) :
    Done h chain key v (first ++ [last] ++ trace) := by
  have same : search last = search chain :=
    funext (all last (List.mem_append_right _ (List.mem_singleton_self last)))
  have ending : (first ++ [last] ++ trace).getLastD chain = trace.getLastD last :=
    getLastD_append first trace last chain
  constructor
  case turn => exact (same ▸ done.turn).precede all
  case final =>
    rw [ending, ← same]
    exact done.final
  case ok =>
    rw [ending]
    exact done.ok
  case head =>
    intro c member k
    rcases List.mem_append.mp member with early | late
    · exact heads c early k
    · exact (done.head c late k).trans
        (heads last (List.mem_append_right _ (List.mem_singleton_self last)) k)
  case walk => exact walk.precede first last done.walk

theorem Leaf.split_insert (leaf : Leaf h page more es) (full : ¬ page.count < cardinality - 1)
    (low : h ≤ key) (here : further more key = false)
    (fresh : (Op.insert key ptr).Fresh (search ((h, page) :: more))) :
    Done h ((h, page) :: more) key ptr (page.split.chains h more ++
      if key < page.split.splitKey then
        (insertKey page.split.ended key ptr page.split.m).map fun p =>
        (h, p) :: (page.split.splitKey, page.split.sibling) :: more
      else
        (insertKey page.split.sibling key ptr (page.count - page.split.m)).map fun p =>
        (h, page.split.ended) :: (page.split.splitKey, p) :: more) := by
  obtain ⟨moved, ok⟩ := leaf.rest.split full
  have left_leaf := leaf.left ok
  have right_leaf := leaf.right ok
  have gives := leaf.split_gives ok
  have same : search ((h, page.split.ended) :: (page.split.splitKey, page.split.sibling) :: more) =
    search ((h, page) :: more) :=
    funext (gives _ (List.mem_append_right [_, _, _] (List.mem_singleton_self _)))
  have fresh' : (Op.insert key ptr).Fresh
    (search ((h, page.split.ended) :: (page.split.splitKey, page.split.sibling) :: more)) :=
    same ▸ fresh
  have at_split : further ((page.split.splitKey, page.split.sibling) :: more) key =
    decide (page.split.splitKey ≤ key) := rfl
  refine Done.precede [_, _, _] _ gives page.split.chains_head (leaf.split_walk ok) ?_
  · by_cases side : key < page.split.splitKey
    · rw [if_pos side]
      have counted : page.split.ended.count = page.split.m :=
        left_leaf.rest.count.trans ok.count_left.1
      have allowed := left_leaf.allowed fresh' (ok.count_left.1.symm ▸ ok.count_left.2)
      have done := left_leaf.done (.insert key ptr) allowed rfl
        (at_split.trans (decide_eq_false (Nat.not_le_of_lt side))) low
      rw [Op.stores, counted] at done
      exact done
    · rw [if_neg side]
      have reached : page.split.splitKey ≤ key := Nat.le_of_not_lt side
      have on := at_split.trans (decide_eq_true reached)
      have counted : page.split.sibling.count = page.count - page.split.m :=
        right_leaf.rest.count.trans ok.count_right.1
      have allowed := right_leaf.allowed (left_leaf.fresh_behind right_leaf.ok on fresh')
        ok.count_right.2
      have done := right_leaf.done (.insert key ptr) allowed rfl here reached
      rw [Op.stores, counted] at done
      have whole := done.behind left_leaf right_leaf.ok (leaf.above ok) on
      rw [List.map_map] at whole
      exact whole

theorem ChainOk.head (ok : ChainOk h ((next, page) :: more)) : next = h := by
  cases ok <;> rfl

theorem ChainOk.store (chain : Chain) :
    ∀ {h : Nat}, ChainOk h chain → h ≤ key → (Op.insert key ptr).Fresh (search chain) →
    Done h chain key ptr (store key ptr chain) := by
  induction chain with
  | nil =>
      intro h ok
      cases ok
  | cons x more ih =>
      obtain ⟨h', page⟩ := x
      intro h ok low fresh
      cases ok.head
      obtain ⟨es, leaf⟩ := ok.leaf
      rw [FastFair.store]
      by_cases on : FastFair.further more key = true
      · rw [if_pos on]
        rcases leaf.tail with none_ | ⟨next, less, tail⟩
        · rw [none_] at on
          cases on
        · have reached : next ≤ key := of_decide_eq_true ((tail.further key).symm.trans on)
          exact (ih tail reached (leaf.fresh_behind tail on fresh)).behind leaf tail less on
      · have here : FastFair.further more key = false := Bool.eq_false_iff.mpr on
        rw [if_neg on]
        by_cases room : page.count < cardinality - 1
        · rw [if_pos room]
          exact leaf.done (.insert key ptr) (leaf.allowed fresh (leaf.rest.count ▸ room)) rfl
            here low
        · rw [if_neg room]
          exact leaf.split_insert room low here fresh

theorem Done.none_ (ok : ChainOk h chain) (absent : search chain key = 0) :
    Done h chain key 0 [] := by
  have same : Function.update (search chain) key 0 = search chain := by
    rw [← absent, Function.update_eq_self]
  have nothing {P : Chain → Prop} : ∀ c ∈ ([] : List Chain), P c := List.forall_mem_nil P
  exact ⟨.after nothing, fun k => (congrFun same k).symm, ok, nothing,
    ⟨nothing, nothing, nothing, List.isChain_singleton _⟩⟩

theorem ChainOk.remove (chain : Chain) :
    ∀ {h : Nat}, ChainOk h chain → h ≤ key → Done h chain key 0 (remove key chain) := by
  induction chain with
  | nil =>
      intro h ok
      cases ok
  | cons x more ih =>
      obtain ⟨h', page⟩ := x
      intro h ok low
      cases ok.head
      obtain ⟨es, leaf⟩ := ok.leaf
      rw [FastFair.remove]
      by_cases passed : page.linearSearch key = 0 ∧ FastFair.further more key = true
      · rw [if_pos passed]
        rcases leaf.tail with none_ | ⟨next, less, tail⟩
        · rw [none_] at passed
          cases passed.2
        · have reached : next ≤ key := of_decide_eq_true ((tail.further key).symm.trans passed.2)
          exact (ih tail reached).behind leaf tail less passed.2
      · rw [if_neg passed]
        by_cases last : page.linearSearch key = 0 ∧ more = []
        · rw [if_pos last]
          apply Done.none_ ok
          rw [last.2, search_cons, last.1, if_neg (not_not_intro rfl), FastFair.further,
            if_neg Bool.false_ne_true]
        · rw [if_neg last]
          have here : FastFair.further more key = false := by
            by_cases found : page.linearSearch key = 0
            · exact Bool.eq_false_iff.mpr fun on => passed ⟨found, on⟩
            · rw [leaf.rest.search] at found
              obtain ⟨e, member, at_e⟩ := lookup_pos_mem found
              exact at_e ▸ leaf.high e member
          exact leaf.done (.remove key) trivial rfl here low

/-- Chains of leaves between two operations, with the map each stands for. -/
inductive ChainReached : Chain → (Nat → Nat) → Prop where
  | first : ChainReached [(0, emptyPage)] fun _ => 0
  | next {chain : Chain} {map : Nat → Nat} (op : Op) (past : ChainReached chain map)
    (fresh : op.Fresh map) :
      ChainReached (op.after chain) (op.meaning map)

theorem ChainOk.done (ok : ChainOk 0 chain) (op : Op) (fresh : op.Fresh (search chain)) :
    ∃ key v, (op.meaning = fun map => Function.update map key v) ∧
      Done 0 chain key v (op.chains chain) := by
  cases op with
  | insert key ptr => exact ⟨key, ptr, rfl, ChainOk.store chain ok (Nat.zero_le key) fresh⟩
  | remove key => exact ⟨key, 0, rfl, ChainOk.remove chain ok (Nat.zero_le key)⟩

theorem ChainOk.step (ok : ChainOk 0 chain) (op : Op) (fresh : op.Fresh (search chain)) :
    Turn (Gives (search chain)) (Gives (op.meaning (search chain))) (op.chains chain) ∧
      search (op.after chain) = op.meaning (search chain) ∧
      ChainOk 0 (op.after chain) ∧ Walk 0 chain (op.chains chain) := by
  obtain ⟨key, v, meaning, done⟩ := ok.done op fresh
  rw [meaning]
  exact ⟨done.turn, funext done.final, done.ok, done.walk⟩

theorem ChainReached.ok {map : Nat → Nat} (reached : ChainReached chain map) :
    ChainOk 0 chain ∧ search chain = map := by
  induction reached with
  | first =>
      have rest := rest_empty
      refine ⟨.last rest fun _ _ => Nat.zero_le _, funext fun k => ?_⟩
      rw [search_cons, rest.search]
      rfl
  | next op _ fresh ih =>
      obtain ⟨ok, rfl⟩ := ih
      obtain ⟨_, same, ok', _⟩ := ok.step op fresh
      exact ⟨ok', same⟩

/-- Inserts with their splits and removes over the leaves: up to one of the stores of an
operation every search along the leaves answers by the map before it, and from that store on by
the map after it. -/
theorem chain_turns_once {map : Nat → Nat} (reached : ChainReached chain map) (op : Op)
    (fresh : op.Fresh map) :
    Turn (Gives map) (Gives (op.meaning map)) (op.chains chain) ∧ Gives (op.meaning map)
      (op.after chain) := by
  obtain ⟨ok, rfl⟩ := reached.ok
  obtain ⟨turn, same, _⟩ := ok.step op fresh
  exact ⟨turn, congrFun same⟩

-- The keys from 0 on, each with its successor as pointer.
def filled : Nat → Chain
  | 0 => [(0, emptyPage)]
  | n + 1 => (Op.insert n (n + 1)).after (filled n)

theorem fresh_after (n : Nat) :
    (Op.insert n (n + 1)).Fresh fun k => if k < n then k + 1 else 0 := by
  refine ⟨if_neg (Nat.lt_irrefl n), Nat.succ_ne_zero n, fun k => ?_⟩
  show (if k < n then k + 1 else 0) ≠ n + 1
  split <;> omega

theorem filled_reached (n : Nat) : ChainReached (filled n) fun k => if k < n then k + 1 else 0 := by
  induction n with
  | zero => exact .first
  | succ n ih =>
      have shape : (fun k => if k < n + 1 then k + 1 else 0) = (Op.insert n (n + 1)).meaning
        fun k => if k < n then k + 1 else 0 := by
        funext k
        show _ = Function.update (fun k => if k < n then k + 1 else 0) n (n + 1) k
        by_cases own : k = n
        · rw [own, Function.update_self, if_pos (Nat.lt_succ_self n)]
        · have same : k < n + 1 ↔ k < n := by omega
          rw [Function.update_of_ne own]
          simp only [same]
      rw [shape]
      exact .next (.insert n (n + 1)) ih (fresh_after n)

-- The leaf is full, and the insert splits it.
theorem full_leaf_turns :
    Turn (Gives fun k => if k < 27 then k + 1 else 0)
      (Gives ((Op.insert 27 28).meaning fun k => if k < 27 then k + 1 else 0))
      ((Op.insert 27 28).chains (filled 27)) ∧
    Gives ((Op.insert 27 28).meaning fun k => if k < 27 then k + 1 else 0)
      ((Op.insert 27 28).after (filled 27)) :=
  chain_turns_once (filled_reached 27) (.insert 27 28) (fresh_after 27)

end SetBench.FastFair
