import Mathlib
import SetBench.FastFairChains

/-! btree_delete run by itself, with the round that it starts again when remove_key did not find
the key. -/
namespace SetBench.FastFair

variable {page : Page} {es : List Record} {chain more : Chain} {map : Nat → Nat} {h key : Nat}

/-- Where the search of btree_delete ends; none when p is NULL. -/
def endsAt : Chain → Nat → Option Page
  | [], _ => none
  | (_, page) :: more, key =>
      if page.linearSearch key = 0 ∧ further more key then endsAt more key
      else if page.linearSearch key = 0 ∧ more = [] then none
      else some page

-- What remove_key returns.
def removed (page : Page) (key : Nat) : Bool :=
  (removeLoop key cardinality 0 false page.toBackward).2

/-- None where the rounds do not end within the fuel. -/
def btreeDelete : Nat → Nat → Chain → Option Bool
  | 0, _, _ => none
  | fuel + 1, key, chain =>
      match endsAt chain key with
      | none => some false
      | some page =>
          if removed page key then some true else btreeDelete fuel key ((Op.remove key).after chain)

theorem removeLoop_shifted (key fuel : Nat) :
    ∀ (i : Nat) (page : Page), (removeLoop key fuel i true page).2 = true := by
  induction fuel with
  | zero => exact fun _ _ => rfl
  | succ fuel ih =>
      intro i page
      rw [removeLoop]
      split
      · rfl
      · exact ih _ _

theorem removeLoop_reaches (key : Nat) {xs : List Record} {i : Nat}
    (holds : ∀ i r, xs[i]? = some r → page.records i = r) (full : ∀ e ∈ xs, e.ptr ≠ 0)
    (absent : ∀ e ∈ xs, e.key ≠ key) (at_i : xs.length = i) (enough : i < cardinality) :
    removeLoop key cardinality 0 false page = removeLoop key (cardinality - 1 - i + 1) i false
      page := by
  have passes := removeLoop_passes page key xs [] cardinality absent holds full (at_i ▸ enough)
  rw [List.length_nil, List.nil_append, at_i] at passes
  rw [passes, show cardinality - i = cardinality - 1 - i + 1 by omega]

theorem Rest.removed (rest : Rest page es) : removed page key = true ↔ lookup es key ≠ 0 := by
  have body : Body page.toBackward es := rest.body.same rfl
  have full := full_of_nodup rest.distinct
  have room := rest.room
  unfold FastFair.removed
  by_cases present : ∃ e ∈ es, e.key = key
  · obtain ⟨e, member, rfl⟩ := present
    rw [rest.sorted.lookup_mem member]
    refine iff_of_true ?_ (full e member)
    obtain ⟨xs, ys, rfl⟩ := List.append_of_mem member
    have shows : Shows page.toBackward (xs ++ e :: ys) :=
      body.resolve_right fun none_ => List.append_ne_nil_of_right_ne_nil _ (List.cons_ne_nil _ _)
        none_.1
    have here : page.toBackward.records xs.length = e :=
      shows.holds _ _ (by rw [List.getElem?_append_right (Nat.le_refl _), Nat.sub_self]; rfl)
    have before : ∀ i r, xs[i]? = some r → page.toBackward.records i = r := fun i r at_i =>
      shows.holds i r ((List.getElem?_append_left (List.getElem?_eq_some_iff.mp at_i).1).trans at_i)
    have apart : ∀ x ∈ xs, x.key ≠ e.key := fun x inside =>
      ((List.pairwise_append.mp rest.sorted).2.2 x inside e List.mem_cons_self).ne
    rw [List.length_append, List.length_cons] at room
    rw [removeLoop_reaches e.key before (fun x inside => full x (List.mem_append_left _ inside))
      apart rfl (by omega), removeLoop, here,
      if_neg (full e member), if_pos (by simp)]
    exact removeLoop_shifted _ _ _ _
  · have absent : ∀ e ∈ es, e.key ≠ key := fun e member same => present ⟨e, member, same⟩
    rw [lookup_absent absent]
    refine iff_of_false ?_ (not_not_intro rfl)
    rcases body with shows | ⟨rfl, r, none_, shows⟩
    · rw [removeLoop_reaches key shows.holds full absent rfl room, removeLoop, if_pos shows.stop]
      exact Bool.false_ne_true
    · have stop : (page.toBackward.records 0).ptr = 0 := by rw [shows.holds 0 r rfl, none_]
      rw [show cardinality = 27 + 1 from rfl, removeLoop, if_pos stop]
      exact Bool.false_ne_true

-- A missing key is looked for in the leaf it belongs to; only the last leaf has no sibling.
theorem ChainOk.ends (chain : Chain) : ∀ {h : Nat}, ChainOk h chain → h ≤ key →
    (search chain key = 0 ∧ (∀ low ∈ lows chain, low ≤ key) ∧ endsAt chain key = none) ∨
    ((search chain key ≠ 0 ∨ ∃ low ∈ lows chain, key < low) ∧
      ∃ page, endsAt chain key = some page ∧ (removed page key = true ↔ search chain key ≠ 0)) := by
  induction chain with
  | nil =>
      intro h ok
      cases ok
  | cons x more ih =>
      obtain ⟨h', page⟩ := x
      intro h ok le
      cases ok.head
      obtain ⟨es, leaf⟩ := ok.leaf
      rw [endsAt]
      by_cases passed : page.linearSearch key = 0 ∧ FastFair.further more key = true
      · rw [if_pos passed, search_cons, passed.1, if_neg (not_not_intro rfl), if_pos passed.2]
        rcases leaf.tail with none_ | ⟨next, less, tail⟩
        · rw [none_] at passed
          cases passed.2
        · have reached : next ≤ key := of_decide_eq_true ((tail.further key).symm.trans passed.2)
          rcases ih tail reached with ⟨absent, last, ends⟩ | ⟨found, ends⟩
          · exact .inl ⟨absent, fun low there => (List.mem_cons.mp there).elim
              (fun same => same ▸ le) (last low), ends⟩
          · exact .inr ⟨found.imp_right fun ⟨low, there, above⟩ =>
              ⟨low, List.mem_cons_of_mem _ there, above⟩, ends⟩
      · rw [if_neg passed]
        by_cases last : page.linearSearch key = 0 ∧ more = []
        · obtain ⟨none_, rfl⟩ := last
          rw [if_pos ⟨none_, rfl⟩, search_cons, none_, if_neg (not_not_intro rfl), FastFair.further,
            if_neg Bool.false_ne_true]
          exact .inl ⟨rfl, fun low there => List.mem_singleton.mp there ▸ le, rfl⟩
        · rw [if_neg last]
          have same : search ((h', page) :: more) key = page.linearSearch key := by
            rw [search_cons]
            by_cases found : page.linearSearch key = 0
            · have stays : ¬ FastFair.further more key = true := fun on => passed ⟨found, on⟩
              rw [found, if_neg (not_not_intro rfl), if_neg stays]
            · rw [if_pos found]
          rw [same]
          refine .inr ⟨?_, page, rfl, ?_⟩
          · by_cases found : page.linearSearch key = 0
            · cases more with
              | nil => exact absurd ⟨found, rfl⟩ last
              | cons y rest =>
                  have above : ¬ y.1 ≤ key := fun on => passed ⟨found, decide_eq_true on⟩
                  exact .inr ⟨y.1, List.mem_cons_of_mem _ List.mem_cons_self,
                    Nat.lt_of_not_le above⟩
            · exact .inl found
          · rw [leaf.rest.removed, leaf.rest.search]

theorem remove_lows (key : Nat) (chain : Chain) : ∀ c ∈ remove key chain, lows c = lows chain := by
  induction chain with
  | nil => exact fun _ member => absurd member List.not_mem_nil
  | cons x more ih =>
      intro c member
      rw [remove] at member
      split at member
      · obtain ⟨tail, inside, rfl⟩ := List.mem_map.mp member
        exact congrArg (x.1 :: ·) (ih tail inside)
      · split at member
        · cases member
        · obtain ⟨p, _, rfl⟩ := List.mem_map.mp member
          rfl

theorem after_remove_lows (key : Nat) (chain : Chain) :
    lows ((Op.remove key).after chain) = lows chain := by
  show lows ((remove key chain).getLastD chain) = lows chain
  rw [List.getLastD_eq_getLast?]
  cases last : (remove key chain).getLast? with
  | none => rfl
  | some c => exact remove_lows key chain c (List.mem_of_getLast? last)

-- The round that found nothing leaves a chain like the one it started from.
theorem btreeDelete_repeats (fuel : Nat) :
    ∀ {chain : Chain}, ChainOk 0 chain → search chain key = 0 → (∃ low ∈ lows chain, key < low) →
    btreeDelete fuel key chain = none := by
  induction fuel with
  | zero => exact fun _ _ _ => rfl
  | succ fuel ih =>
      intro chain ok absent above
      obtain ⟨_, same, after, _⟩ := ok.step (.remove key) trivial
      rcases ok.ends chain (Nat.zero_le key) with ⟨_, last, _⟩ | ⟨_, page, ends, removed⟩
      · obtain ⟨low, there, less⟩ := above
        exact absurd (last low there) (Nat.not_le_of_lt less)
      · have missed : ¬ FastFair.removed page key = true := fun found => removed.mp found absent
        rw [btreeDelete, ends]
        dsimp only
        rw [if_neg missed]
        apply ih after
        · rw [same]
          exact Function.update_self ..
        · rwa [after_remove_lows]

/-- A delete of a key that is there returns true in its first round. For one that is not there,
it returns false if the key belongs to the last leaf, and else it never returns. -/
theorem delete_returns (reached : ChainReached chain map) (key : Nat) :
    (map key ≠ 0 → ∀ fuel, btreeDelete (fuel + 1) key chain = some true) ∧
    (map key = 0 → (∀ low ∈ lows chain, low ≤ key) →
      ∀ fuel, btreeDelete (fuel + 1) key chain = some false) ∧
    (map key = 0 → (∃ low ∈ lows chain, key < low) →
      ∀ fuel, btreeDelete fuel key chain = none) := by
  obtain ⟨ok, rfl⟩ := reached.ok
  refine ⟨fun present fuel => ?_, fun absent last fuel => ?_,
    fun absent above fuel => btreeDelete_repeats fuel ok absent above⟩
  · rcases ok.ends chain (Nat.zero_le key) with ⟨absent, _, _⟩ | ⟨_, page, ends, removed⟩
    · exact absurd absent present
    · rw [btreeDelete, ends]
      exact if_pos (removed.mpr present)
  · rcases ok.ends chain (Nat.zero_le key) with ⟨_, _, ends⟩ | ⟨somewhere, _⟩
    · rw [btreeDelete, ends]
    · rcases somewhere with present | ⟨low, there, less⟩
      · exact absurd absent present
      · exact absurd (last low there) (Nat.not_le_of_lt less)

-- Key 60 belongs to the last leaf and is not there; once key 5 of the first leaf is removed, it is
-- an absent key before the last leaf.
theorem delete_from_filled :
    (∀ fuel, btreeDelete (fuel + 1) 5 (filled 40) = some true) ∧
    (∀ fuel, btreeDelete (fuel + 1) 60 (filled 40) = some false) ∧
    ∀ fuel, btreeDelete fuel 5 ((Op.remove 5).after (filled 40)) = none := by
  have leaves : lows (filled 40) = [0, 13] := by decide +kernel
  refine ⟨(delete_returns (filled_reached 40) 5).1 (show (6 : Nat) ≠ 0 by decide),
    (delete_returns (filled_reached 40) 60).2.1 rfl ?_, ?_⟩
  · rw [leaves]
    decide
  · have reached := ChainReached.next (.remove 5) (filled_reached 40) trivial
    have gone : (Op.remove 5).meaning (fun k => if k < 40 then k + 1 else 0) 5 = 0 := by
      show Function.update (fun k => if k < 40 then k + 1 else 0) 5 0 5 = 0
      exact Function.update_self ..
    refine (delete_returns reached 5).2.2 gone ⟨13, ?_, by decide⟩
    rw [after_remove_lows, leaves]
    decide

end SetBench.FastFair
