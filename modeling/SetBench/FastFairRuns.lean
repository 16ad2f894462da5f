import Mathlib
import SetBench.FastFairStores

/-! Whole runs of a leaf page: between two stores a search answers as before the operation, or as
after it. -/
namespace SetBench.FastFair

variable {page other : Page} {xs ys rs es new : List Record} {key ptr : Nat}

theorem Turn.snoc {old new : Page → Prop} {trace : List Page} (turn : Turn old new trace)
    {last : Page} (seen : new last) :
    Turn old new (trace ++ [last]) := by
  induction turn with
  | before first _ ih => exact .before first ih
  | after all =>
      refine .after fun p member => ?_
      rcases List.mem_append.mp member with early | late
      · exact all p early
      · exact List.mem_singleton.mp late ▸ seen

theorem Turn.imp {old old' new new' : Page → Prop} {trace : List Page} (turn : Turn old new trace)
    (left : ∀ p, old p → old' p) (right : ∀ p, new p → new' p) : Turn old' new' trace := by
  induction turn with
  | before seen _ ih => exact .before (left _ seen) ih
  | after seen => exact .after fun p member => right p (seen p member)

/-- The records of a page at rest; an empty page has a first record without a pointer. -/
def Body (page : Page) (es : List Record) : Prop :=
  Shows page es ∨ (es = [] ∧ ∃ r : Record, r.ptr = 0 ∧ Shows page [r])

structure Rest (page : Page) (es : List Record) : Prop where
  leaf : page.leftmost = 0
  counted : page.lastIndex + 1 = (es.length : Int)
  sorted : Sorted es
  distinct : (0 :: es.map Record.ptr).Nodup
  room : es.length < cardinality
  body : Body page es

theorem Shows.same (shows : Shows page rs) (same : other.records = page.records) :
    Shows other rs where
  nonempty := shows.nonempty
  holds i r here := by rw [same, shows.holds i r here]
  full := shows.full
  stop := by rw [same, shows.stop]

theorem Body.same (body : Body page es) (same : other.records = page.records) : Body other es :=
  body.imp (·.same same) fun ⟨empty, r, none_, shows⟩ => ⟨empty, r, none_, shows.same same⟩

theorem Body.stop (body : Body page es) : (page.records es.length).ptr = 0 := by
  rcases body with shows | ⟨rfl, r, none_, shows⟩
  · exact shows.stop
  · rw [List.length_nil, shows.holds 0 r rfl, none_]

theorem Body.seen (body : Body page es) (leaf : page.leftmost = 0)
    (distinct : (0 :: es.map Record.ptr).Nodup) (room : es.length < cardinality)
    (backward : page.isForward = false → ∃ n : Nat, page.lastIndex + 1 = (n : Int) ∧
      (page.records n).ptr = 0 ∧ (n = es.length ∨ n = es.length + 1)) : Seen page es := by
  refine ⟨leaf, ?_⟩
  rcases body with shows | ⟨rfl, r, none_, shows⟩
  · refine ⟨es, shows, (apart_of_nodup distinct).alive_eq, room.le, fun way => ?_⟩
    obtain ⟨n, counted, stop, at_n⟩ := backward way
    have some : 0 < es.length := List.length_pos_iff.mpr shows.nonempty
    exact ⟨n, counted, stop, at_n.elim (fun same => .inl (by omega)) fun more => .inr (by omega)⟩
  · refine ⟨[r], shows, by rw [alive, if_pos none_]; rfl, show 1 ≤ cardinality by decide,
      fun way => ?_⟩
    obtain ⟨n, counted, stop, at_n⟩ := backward way
    rw [List.length_nil] at at_n
    exact ⟨n, counted, stop, .inl (by rw [List.length_singleton]; omega)⟩

theorem Rest.seen (rest : Rest page es) (leaf : other.leftmost = page.leftmost)
    (records : other.records = page.records) (lastIndex : other.lastIndex = page.lastIndex) :
    Seen other es :=
  (rest.body.same records).seen (leaf.trans rest.leaf) rest.distinct rest.room fun _ =>
    ⟨es.length, lastIndex ▸ rest.counted, (rest.body.same records).stop, .inl rfl⟩

theorem Rest.count (rest : Rest page es) : page.count = es.length :=
  count_at rest.counted rest.body.stop

theorem toForward_forward (page : Page) : page.toForward.isForward = true := by
  unfold Page.toForward Page.isForward
  split
  · simp_all
  · simp_all
    omega

-- A store of the pointer that is there.
theorem setPtr_self {i : Nat} (there : (page.records i).ptr = ptr) : page.setPtr i ptr = page := by
  have same : (⟨(page.records i).key, ptr⟩ : Record) = page.records i := there ▸ rfl
  unfold Page.setPtr
  rw [same, Function.update_eq_self]

/-- A sequence that ends at rest with one more record. -/
theorem Rest.insert (rest : Rest page es) (absent : ∀ e ∈ es, e.key ≠ key)
    (fresh : (0 :: ptr :: es.map Record.ptr).Nodup) (room : es.length + 1 < cardinality) :
    ∃ new, Inserted es key ptr new ∧ Turn (Seen · es) (Seen · new)
      (insertKey page key ptr page.count) ∧
      Rest ((insertKey page key ptr page.count).getLastD page) new := by
  have forward := toForward_forward page
  have first : Seen page.toForward es := rest.seen rfl rfl rfl
  have finish {new : List Record} {stores : List Page} {last : Page}
    (inserted : Inserted es key ptr new)
      (turn : Turn (Seen · es) (Seen · new) stores) (ends : Ends page.toForward stores last)
      (shows : Shows last new) :
      Turn (Seen · es) (Seen · new)
        (page.toForward :: stores ++
          [{ stores.getLastD page.toForward with lastIndex := es.length }]) ∧
        Rest { stores.getLastD page.toForward with lastIndex := es.length } new := by
    have final : stores.getLastD page.toForward = last := by
      rw [List.getLastD_eq_getLast?, ends.ending]
      rfl
    rw [final]
    have body : Body { last with lastIndex := (es.length : Int) } new := .inl (shows.same rfl)
    have leaf : last.leftmost = 0 := ends.leftmost.trans rest.leaf
    have small : new.length < cardinality := inserted.length ▸ room
    have way : Page.isForward { last with lastIndex := (es.length : Int) } = true := by
      unfold Page.isForward at forward ⊢
      rwa [ends.switchCounter]
    refine ⟨.before first (turn.snoc (body.seen leaf inserted.distinct small fun backward => ?_)),
      ?_⟩
    · rw [way] at backward
      cases backward
    · refine ⟨leaf, ?_, inserted.sorted, inserted.distinct, small, body⟩
      rw [inserted.length]
      exact rfl
  rw [rest.count]
  by_cases empty : es = []
  · subst empty
    rcases rest.body with shows | ⟨_, r, none_, shows⟩
    · exact absurd rfl shows.nonempty
    have gap : Gap page.toForward [] [] := ⟨nofun, nofun, shows.stop⟩
    have hidden : page.toForward = page.toForward.setPtr 0 0 := by
      refine (setPtr_self ?_).symm
      rw [show page.toForward.records 0 = r from shows.holds 0 r rfl, none_]
    obtain ⟨new, last, inserted, turn, ends, shown⟩ :=
      insert_end gap rest.leaf forward rest.sorted fresh nofun nofun (by decide) _ hidden
    have kept : (((page.toForward.setKey 0 key).setPtr 0 ptr).setPtr 1 0) =
      (page.toForward.setKey 0 key).setPtr 0 ptr := by
      refine setPtr_self ?_
      rw [setPtr_other Nat.one_ne_zero, setKey_other Nat.one_ne_zero]
      exact shows.stop
    have tail : Turn (Seen · []) (Seen · new) [page.toForward.setKey 0 key,
      (page.toForward.setKey 0 key).setPtr 0 ptr,
        ((page.toForward.setKey 0 key).setPtr 0 ptr).setPtr 1 0] := by
      rw [kept]
      have shown' : Seen ((page.toForward.setKey 0 key).setPtr 0 ptr) new := by
        have at_end := ends.ending
        cases at_end
        refine Body.seen (.inl shown) rest.leaf inserted.distinct (inserted.length ▸ room)
          fun backward => ?_
        rw [show Page.isForward ((page.toForward.setKey 0 key).setPtr 0
          ptr) = page.toForward.isForward from rfl, forward] at backward
        cases backward
      refine .before (gap.store (SameBut.setKey _ 0 key) |>.hidden rest.distinct ?_ rest.leaf
        (by decide) fun backward => ?_) (.after ?_)
      · rw [List.length_nil, setKey_record, show page.toForward.records 0 = r
          from shows.holds 0 r rfl]
        exact none_
      · rw [show Page.isForward (page.toForward.setKey 0 key) = page.toForward.isForward from rfl,
          forward] at backward
        cases backward
      · intro p member
        simp only [List.mem_cons, List.not_mem_nil, or_false, or_self] at member
        exact member ▸ shown'
    have closing : Ends page.toForward [page.toForward.setKey 0 key,
      (page.toForward.setKey 0 key).setPtr 0 ptr,
        ((page.toForward.setKey 0 key).setPtr 0 ptr).setPtr 1 0] last := by
      rw [kept]
      exact ⟨ends.ending, ends.leftmost, ends.switchCounter, ends.lastIndex⟩
    obtain ⟨whole, final⟩ := finish inserted tail closing shown
    exact ⟨new, inserted, whole, final⟩
  · rcases rest.body with shows | ⟨none_, _⟩
    swap
    · exact absurd none_ empty
    have some : es.length ≠ 0 := fun zero => empty (List.length_eq_zero_iff.mp zero)
    obtain ⟨ended, at_ended⟩ : ∃ p, p = page.toForward.setPtr (es.length + 1)
      (page.toForward.records es.length).ptr := ⟨_, rfl⟩
    have same : SameBut (es.length + 1) page.toForward ended := at_ended ▸ SameBut.setPtr _ _ _
    have showing : Shows ended es := by
      refine ⟨shows.nonempty, fun i r here => ?_, shows.full, ?_⟩
      · have inside := (List.getElem?_eq_some_iff.mp here).1
        rw [same.records i (by omega)]
        exact shows.holds i r here
      · rw [same.records _ (by omega)]
        exact shows.stop
    have gap : Gap ended es [] := by
      refine ⟨showing.holds, nofun, ?_⟩
      rw [List.length_nil, Nat.add_zero, at_ended, setPtr_record]
      exact shows.stop
    have old : Seen ended es := by
      refine Body.seen (.inl showing) (same.leftmost.trans rest.leaf) rest.distinct rest.room
        fun backward => ?_
      rw [same.forward, forward] at backward
      cases backward
    obtain ⟨new, last, inserted, turn, ends, shown⟩ :=
      insertLoop_turns es [] ended gap (same.leftmost.trans rest.leaf)
      (same.forward.trans forward) ((List.append_nil es).symm ▸ rest.sorted)
      ((List.append_nil es).symm ▸ fresh) absent nofun
      ((List.append_nil es).symm ▸ rest.room)
    rw [List.append_nil] at inserted turn
    obtain ⟨whole, final⟩ := finish inserted (.before old turn) (ends.cons ended same) shown
    refine ⟨new, inserted, ?_, ?_⟩
    · rw [insertKey, if_neg some, ← at_ended]
      exact whole
    · rw [insertKey, if_neg some, ← at_ended]
      simpa only [List.getLastD_concat] using final

/-! The removal: the record is hidden first, then the ones behind it move down. -/

theorem lastPtr_before (before : ∀ i r, xs[i]? = some r → page.records i = r)
    (leaf : page.leftmost = 0) :
    (if xs.length = 0 then page.leftmost else (page.records (xs.length - 1)).ptr) =
    lastPtr 0 xs := by
  rcases List.eq_nil_or_concat xs with rfl | ⟨init, last, rfl⟩
  · exact (if_pos rfl).trans leaf
  · rw [List.concat_eq_append] at before ⊢
    have here := before init.length last
      (by rw [List.getElem?_append_right (Nat.le_refl _), Nat.sub_self]; rfl)
    rw [if_neg (by rw [List.length_append]; exact Nat.succ_ne_zero _), lastPtr_concat,
      List.length_append, List.length_singleton,
      Nat.add_sub_cancel, here]

-- What a shift to the left leaves for the rest of the loop.
structure Shifted (page : Page) (es : List Record) (result : List Page × Bool) (trace : List Page) :
    Prop where
  shift : result.2 = true
  seen : ∀ p ∈ trace, Seen p es
  last : ∃ last, Ends page trace last ∧ Body last es

theorem remove_shifts (key : Nat) (ys : List Record) :
    ∀ (xs : List Record) (page : Page) (fuel : Nat), Gap page xs ys → page.leftmost = 0 →
    page.isForward = false → page.lastIndex + 1 = ((xs ++ ys).length + 1 : Nat) →
      (0 :: (xs ++ ys).map Record.ptr).Nodup →
    (xs ++ ys).length < cardinality → (page.records xs.length).ptr = lastPtr 0 xs →
    ys.length < fuel →
    ∀ keyed moved, keyed = page.setKey xs.length (page.records (xs.length + 1)).key →
      moved = keyed.setPtr xs.length (page.records (xs.length + 1)).ptr →
      Shifted page (xs ++ ys) (removeLoop key fuel (xs.length + 1) true moved)
        (keyed :: moved :: (removeLoop key fuel (xs.length + 1) true moved).1) := by
  induction ys with
  | nil =>
      intro xs page fuel gap leaf backward counted distinct fits hidden enough keyed moved at_keyed
        at_moved
      have first : SameBut xs.length page keyed := at_keyed ▸ SameBut.setKey page _ _
      have second : SameBut xs.length page moved :=
        at_moved ▸ first.trans (SameBut.setPtr keyed _ _)
      have stop : (page.records (xs.length + 1)).ptr = 0 := gap.stop
      have slot : (moved.records xs.length).ptr = 0 := by rw [at_moved, setPtr_record, stop]
      have stop' : (moved.records (xs.length + 1)).ptr = 0 := (gap.store second).stop
      have body : Body moved xs := by
        by_cases none_ : xs = []
        · subst none_
          exact .inr ⟨rfl, moved.records 0, slot, (gap.store second).shows nofun (.inl rfl)⟩
        · refine .inl ⟨none_, (gap.store second).before, fun i r _ here => ?_, slot⟩
          exact full_of_nodup distinct r (List.mem_append_left _ (List.mem_of_getElem? here))
      have ended : removeLoop key fuel (xs.length + 1) true moved = ([], true) := by
        cases fuel with
        | zero => exact absurd enough (Nat.not_lt_zero _)
        | succ fuel => exact if_pos stop'
      rw [ended]
      refine ⟨rfl, fun p member => ?_, moved,
        ⟨rfl, second.leftmost, second.switchCounter, second.lastIndex⟩, ?_⟩
      · rcases List.mem_cons.mp member with rfl | later
        · refine (gap.store first).hidden distinct ?_ (first.leftmost.trans leaf) fits fun _ =>
            first.lastIndex ▸ counted
          rw [at_keyed, setKey_record, hidden]
        · rw [List.mem_singleton.mp later, List.append_nil]
          rw [List.append_nil] at distinct fits counted
          exact body.seen (second.leftmost.trans leaf) distinct fits fun _ =>
            ⟨xs.length + 1, second.lastIndex ▸ counted, stop', .inr rfl⟩
      · rw [List.append_nil]
        exact body
  | cons y rest ih =>
      intro xs page fuel gap leaf backward counted distinct fits hidden enough keyed moved at_keyed
        at_moved
      have first : SameBut xs.length page keyed := at_keyed ▸ SameBut.setKey page _ _
      have second : SameBut xs.length page moved :=
        at_moved ▸ first.trans (SameBut.setPtr keyed _ _)
      have next : page.records (xs.length + 1) = y := gap.after 0 y rfl
      have slot : moved.records xs.length = y := by
        rw [at_moved, setPtr_record, at_keyed, setKey_record, next]
      have shape : xs ++ [y] ++ rest = xs ++ y :: rest := by rw [List.append_assoc]; rfl
      have length : (xs ++ [y]).length = xs.length + 1 := by
        rw [List.length_append, List.length_singleton]
      have kept := gap.store second
      have gap' : Gap moved (xs ++ [y]) rest := by
        constructor
        · intro i r here
          rcases Nat.lt_or_ge i xs.length with less | more
          · exact kept.before i r ((List.getElem?_append_left less).symm.trans here)
          · have inside := (List.getElem?_eq_some_iff.mp here).1
            have same : i = xs.length := by omega
            rw [same, List.getElem?_append_right (Nat.le_refl _), Nat.sub_self] at here
            rw [same, slot]
            exact Option.some.inj here
        · intro i r here
          rw [length, show xs.length + 1 + 1 + i = xs.length + 1 + (i + 1) by omega]
          exact kept.after (i + 1) r here
        · rw [length, show xs.length + 1 + 1 + rest.length = xs.length + 1 + (rest.length + 1) by
            omega]
          exact kept.stop
      have copy : moved.records (xs ++ [y]).length = y := by rw [length]; exact kept.after 0 y rfl
      have dead : (moved.records (xs ++ [y]).length).ptr = lastPtr 0 (xs ++ [y]) := by
        rw [copy, lastPtr_concat]
      have seen : Seen keyed (xs ++ y :: rest) := by
        refine (gap.store first).hidden distinct ?_ (first.leftmost.trans leaf) fits fun _ =>
          first.lastIndex ▸ counted
        rw [at_keyed, setKey_record, hidden]
      have seen' : Seen moved (xs ++ y :: rest) := by
        rw [← shape] at distinct fits counted ⊢
        exact gap'.hidden distinct dead (second.leftmost.trans leaf) fits fun _ =>
          second.lastIndex ▸ counted
      cases fuel with
      | zero => exact absurd enough (Nat.not_lt_zero _)
      | succ fuel =>
          have some : y.ptr ≠ 0 := full_of_nodup distinct y
            (List.mem_append_right _ List.mem_cons_self)
          obtain ⟨keyed', at_keyed'⟩ : ∃ p, p = moved.setKey (xs ++ [y]).length
            (moved.records ((xs ++ [y]).length + 1)).key := ⟨_, rfl⟩
          obtain ⟨moved', at_moved'⟩ : ∃ p, p = keyed'.setPtr (xs ++ [y]).length
            (moved.records ((xs ++ [y]).length + 1)).ptr := ⟨_, rfl⟩
          have later := ih (xs ++ [y]) moved fuel gap' (second.leftmost.trans leaf)
            (second.forward.trans backward)
            (shape ▸ second.lastIndex ▸ counted) (shape ▸ distinct) (shape ▸ fits) dead
            (Nat.lt_of_succ_lt_succ enough) keyed' moved' at_keyed' at_moved'
          rw [shape] at later
          have unfolded : removeLoop key (fuel + 1) (xs.length + 1) true moved =
              (keyed' :: moved' :: (removeLoop key fuel ((xs ++ [y]).length + 1) true moved').1,
                (removeLoop key fuel ((xs ++ [y]).length + 1) true moved').2) := by
            rw [at_moved', at_keyed', length, removeLoop, ← length, copy, if_neg some, length]
            rfl
          rw [unfolded]
          obtain ⟨last, ends, body⟩ := later.last
          refine ⟨later.shift, fun p member => ?_, last, (ends.cons moved second).cons keyed
            (.refl (i := 0) _), body⟩
          rcases List.mem_cons.mp member with rfl | member
          · exact seen
          rcases List.mem_cons.mp member with rfl | member
          · exact seen'
          · exact later.seen p member

structure Removed (es : List Record) (key : Nat) (new : List Record) : Prop where
  sorted : Sorted new
  mem : ∀ e, e ∈ new ↔ e ∈ es ∧ e.key ≠ key
  distinct : (0 :: new.map Record.ptr).Nodup

-- The loop passes over the records before the one to remove.
theorem removeLoop_passes (page : Page) (key : Nat) (zs : List Record) :
    ∀ (us : List Record) (fuel : Nat), (∀ e ∈ zs, e.key ≠ key) →
    (∀ i r, (us ++ zs)[i]? = some r → page.records i = r) → (∀ e ∈ us ++ zs, e.ptr ≠ 0) →
    zs.length < fuel →
    removeLoop key fuel us.length false page = removeLoop key (fuel - zs.length) (us ++ zs).length
      false page := by
  induction zs with
  | nil =>
      intro us fuel _ _ _ _
      rw [List.append_nil]
      rfl
  | cons z rest ih =>
      intro us fuel absent holds full enough
      have here : page.records us.length = z :=
        holds _ _ (by rw [List.getElem?_append_right (Nat.le_refl _), Nat.sub_self]; rfl)
      have shape : us ++ [z] ++ rest = us ++ z :: rest := by rw [List.append_assoc]; rfl
      cases fuel with
      | zero => exact absurd enough (Nat.not_lt_zero _)
      | succ fuel =>
          have onward := ih (us ++ [z]) fuel
            (fun e member => absent e (List.mem_cons_of_mem _ member)) (shape ▸ holds)
            (shape ▸ full)
            (Nat.lt_of_succ_lt_succ enough)
          have different : ((false || z.key == key) = true) ↔ False := by
            simpa using absent z List.mem_cons_self
          rw [removeLoop, here, if_neg (full z (List.mem_append_right _ List.mem_cons_self)),
            if_neg different.mp]
          rw [List.length_append, List.length_singleton, shape] at onward
          rw [onward, List.length_cons, Nat.add_sub_add_right]

theorem toBackward_backward (page : Page) : page.toBackward.isForward = false := by
  unfold Page.toBackward Page.isForward
  split
  · simp_all
    omega
  · simp_all

theorem Rest.remove (rest : Rest page es) (key : Nat) :
    ∃ new, Removed es key new ∧ Turn (Seen · es) (Seen · new) (removeKey page key) ∧
      Rest ((removeKey page key).getLastD page) new := by
  have backward := toBackward_backward page
  have first : Seen page.toBackward es := rest.seen rfl rfl rfl
  have body : Body page.toBackward es := rest.body.same rfl
  by_cases present : ∃ e ∈ es, e.key = key
  · obtain ⟨e, member, rfl⟩ := present
    obtain ⟨xs, ys, rfl⟩ := List.append_of_mem member
    rcases body with shows | ⟨none_, _⟩
    swap
    · exact absurd none_ (List.append_ne_nil_of_right_ne_nil _ (List.cons_ne_nil _ _))
    obtain ⟨left, right, cross⟩ := List.pairwise_append.mp rest.sorted
    obtain ⟨above, right⟩ := List.pairwise_cons.mp right
    have below : ∀ x ∈ xs, x.key < e.key := fun x inside => cross x inside e List.mem_cons_self
    have full := full_of_nodup rest.distinct
    have sublist : (xs ++ ys).Sublist (xs ++ e :: ys) :=
      (List.sublist_cons_self e ys).append_left xs
    have removed : Removed (xs ++ e :: ys) e.key (xs ++ ys) := by
      refine ⟨rest.sorted.sublist sublist,
        fun x => ⟨fun inside => ⟨sublist.subset inside, ?_⟩, fun ⟨inside, other⟩ => ?_⟩,
        rest.distinct.sublist (List.Sublist.cons_cons 0 (sublist.map Record.ptr))⟩
      · rcases List.mem_append.mp inside with low | high
        · exact (below x low).ne
        · exact (above x high).ne'
      · rcases List.mem_append.mp inside with low | high
        · exact List.mem_append_left _ low
        · rcases List.mem_cons.mp high with rfl | high
          · exact absurd rfl other
          · exact List.mem_append_right _ high
    have here : page.toBackward.records xs.length = e :=
      shows.holds _ _ (by rw [List.getElem?_append_right (Nat.le_refl _), Nat.sub_self]; rfl)
    have before : ∀ i r, xs[i]? = some r → page.toBackward.records i = r := fun i r at_i =>
      shows.holds i r ((List.getElem?_append_left (List.getElem?_eq_some_iff.mp at_i).1).trans at_i)
    have gap : Gap page.toBackward xs ys := by
      refine ⟨before, fun i r at_i => shows.holds _ r ?_, ?_⟩
      · rw [List.getElem?_append_right (by omega), show xs.length + 1 + i - xs.length = i + 1 by
          omega]
        exact at_i
      · have stop := shows.stop
        rwa [List.length_append, List.length_cons,
          show xs.length + (ys.length + 1) = xs.length + 1 + ys.length by omega] at stop
    have length : (xs ++ e :: ys).length = (xs ++ ys).length + 1 := by
      simp only [List.length_append, List.length_cons, Nat.add_assoc]
    have room : (xs ++ ys).length < cardinality := by
      have := rest.room
      omega
    obtain ⟨hidden, at_hidden⟩ : ∃ p, p = page.toBackward.setPtr xs.length (lastPtr 0 xs) :=
      ⟨_, rfl⟩
    obtain ⟨keyed, at_keyed⟩ : ∃ p, p = hidden.setKey xs.length
      (hidden.records (xs.length + 1)).key := ⟨_, rfl⟩
    obtain ⟨moved, at_moved⟩ : ∃ p, p = keyed.setPtr xs.length
      (hidden.records (xs.length + 1)).ptr := ⟨_, rfl⟩
    have same : SameBut xs.length page.toBackward hidden := at_hidden ▸ SameBut.setPtr _ _ _
    have dead : (hidden.records xs.length).ptr = lastPtr 0 xs := by rw [at_hidden, setPtr_record]
    have counted : hidden.lastIndex + 1 = ((xs ++ ys).length + 1 : Nat) := by
      have known := rest.counted
      rw [length] at known
      exact same.lastIndex ▸ known
    have enough : ys.length < cardinality - 1 - xs.length := by
      have := rest.room
      rw [List.length_append, List.length_cons] at this
      omega
    have shifted := remove_shifts e.key ys xs hidden (cardinality - 1 - xs.length) (gap.store same)
      (same.leftmost.trans rest.leaf)
      (same.forward.trans backward) counted removed.distinct room dead enough keyed moved at_keyed
      at_moved
    have unfolded : removeLoop e.key cardinality 0 false page.toBackward =
        (hidden :: keyed :: moved :: (removeLoop e.key (cardinality - 1 - xs.length) (xs.length + 1)
          true moved).1,
          (removeLoop e.key (cardinality - 1 - xs.length) (xs.length + 1) true moved).2) := by
      have passes := removeLoop_passes page.toBackward e.key xs [] cardinality
        (fun x inside => (below x inside).ne) before
        (fun x inside => full x (List.mem_append_left _ inside)) (by
          have := rest.room
          rw [List.length_append, List.length_cons] at this
          omega)
      rw [List.length_nil, List.nil_append] at passes
      have split : cardinality - xs.length = cardinality - 1 - xs.length + 1 := by omega
      rw [passes, split, removeLoop, here, if_neg (full e member), if_pos (by simp),
        if_neg Bool.false_ne_true,
        lastPtr_before before rest.leaf, ← at_hidden]
      have after : page.toBackward.records (xs.length + 1) = hidden.records (xs.length + 1) :=
        (same.records _ (by omega)).symm
      dsimp only
      rw [after, ← at_keyed, ← at_moved]
      rfl
    obtain ⟨last, ends, final⟩ := shifted.last
    have whole : removeKey page e.key = page.toBackward :: hidden :: keyed :: moved ::
        ((removeLoop e.key (cardinality - 1 - xs.length) (xs.length + 1) true
          moved).1 ++ [{ last with lastIndex := page.lastIndex - 1 }]) := by
      have ending : (hidden :: keyed :: moved :: (removeLoop e.key (cardinality - 1 - xs.length)
        (xs.length + 1) true moved).1).getLastD
          page.toBackward = last := by
        rw [List.getLastD_eq_getLast?, (ends.cons hidden same).ending]
        rfl
      rw [removeKey, unfolded, if_pos shifted.shift, ending]
      rfl
    have closed : Rest { last with lastIndex := page.lastIndex - 1 } (xs ++ ys) := by
      refine ⟨ends.leftmost.trans (same.leftmost.trans rest.leaf), ?_, removed.sorted,
        removed.distinct, room, final.same rfl⟩
      have known := rest.counted
      rw [length] at known
      push_cast at known ⊢
      omega
    refine ⟨xs ++ ys, removed, ?_, ?_⟩
    · rw [whole]
      refine .before first (.after fun p inside => ?_)
      rcases List.mem_cons.mp inside with rfl | inside
      · exact (gap.store same).hidden removed.distinct dead (same.leftmost.trans rest.leaf) room
          fun _ => counted
      rw [← List.cons_append, ← List.cons_append] at inside
      rcases List.mem_append.mp inside with early | late
      · exact shifted.seen p early
      · rw [List.mem_singleton.mp late]
        exact closed.seen rfl rfl rfl
    · rw [whole]
      simpa only [← List.cons_append, List.getLastD_concat] using closed
  · have absent : ∀ e ∈ es, e.key ≠ key := fun e member same => present ⟨e, member, same⟩
    have ended : removeLoop key cardinality 0 false page.toBackward = ([], false) := by
      rcases body with shows | ⟨rfl, r, none_, shows⟩
      · have passes := removeLoop_passes page.toBackward key es [] cardinality absent shows.holds
          (full_of_nodup rest.distinct) rest.room
        rw [List.length_nil, List.nil_append] at passes
        have split : cardinality - es.length = cardinality - 1 - es.length + 1 := by
          have := rest.room
          omega
        rw [passes, split]
        exact if_pos shows.stop
      · have stop : (page.toBackward.records 0).ptr = 0 := by rw [shows.holds 0 r rfl, none_]
        exact if_pos stop
    have whole : removeKey page key = [page.toBackward] := by
      rw [removeKey, ended, if_neg Bool.false_ne_true]
      rfl
    rw [whole]
    refine ⟨es, ⟨rest.sorted, fun e => ⟨fun member => ⟨member, absent e member⟩, And.left⟩,
      rest.distinct⟩, .before first (.after nofun), ?_⟩
    exact ⟨rest.leaf, rest.counted, rest.sorted, rest.distinct, rest.room, body⟩

/-- What the callers keep: a new key with a pointer that no other key has, and the room that
store checks. -/
def Op.Allowed (op : Op) (page : Page) (map : Nat → Nat) : Prop :=
  match op with
  | .insert key ptr => map key = 0 ∧ ptr ≠ 0 ∧ (∀ k, map k ≠ ptr) ∧ page.count < cardinality - 1
  | .remove _ => True

/-- A page between two operations, with the map it stands for. -/
inductive Reached : Page → (Nat → Nat) → Prop where
  | empty : Reached emptyPage fun _ => 0
  | next {page : Page} {map : Nat → Nat} (op : Op) (past : Reached page map)
    (allowed : op.Allowed page map) :
      Reached (op.apply page) (op.meaning map)

theorem lookup_pos_mem {key : Nat} (found : lookup es key ≠ 0) : ∃ e ∈ es, e.key = key := by
  by_contra absent
  exact found (lookup_absent fun e member same => absent ⟨e, member, same⟩)

theorem Inserted.lookup (inserted : Inserted es key ptr new) (sorted : Sorted es) (k : Nat) :
    lookup new k = Function.update (FastFair.lookup es) key ptr k := by
  by_cases own : k = key
  · rw [own, Function.update_self]
    exact inserted.sorted.lookup_mem ((inserted.mem ⟨key, ptr⟩).mpr (.inl rfl))
  · rw [Function.update_of_ne own]
    by_cases present : ∃ e ∈ es, e.key = k
    · obtain ⟨e, member, rfl⟩ := present
      rw [sorted.lookup_mem member, inserted.sorted.lookup_mem ((inserted.mem e).mpr (.inr member))]
    · rw [lookup_absent fun e member same => present ⟨e, member, same⟩]
      refine lookup_absent fun e member same => ?_
      rcases (inserted.mem e).mp member with rfl | old
      · exact own same.symm
      · exact present ⟨e, old, same⟩

theorem Removed.lookup (removed : Removed es key new) (sorted : Sorted es) (k : Nat) :
    lookup new k = Function.update (FastFair.lookup es) key 0 k := by
  by_cases own : k = key
  · rw [own, Function.update_self]
    exact lookup_absent fun e member => ((removed.mem e).mp member).2
  · rw [Function.update_of_ne own]
    by_cases present : ∃ e ∈ es, e.key = k
    · obtain ⟨e, member, rfl⟩ := present
      rw [sorted.lookup_mem member, removed.sorted.lookup_mem ((removed.mem e).mpr ⟨member, own⟩)]
    · rw [lookup_absent fun e member same => present ⟨e, member, same⟩]
      exact lookup_absent fun e member same => present ⟨e, ((removed.mem e).mp member).1, same⟩

-- One operation on a page at rest, against the records and the map.
theorem Rest.step (rest : Rest page es) (op : Op) (allowed : op.Allowed page (lookup es)) :
    ∃ new, lookup new = op.meaning (lookup es) ∧ Sorted new ∧ Turn (Seen · es) (Seen · new)
      (op.stores page) ∧ Rest (op.apply page) new := by
  cases op with
  | insert key ptr =>
      obtain ⟨absent, some, fresh, room⟩ := allowed
      rw [rest.count] at room
      have missing : ∀ e ∈ es, e.key ≠ key := by
        rintro e member rfl
        rw [rest.sorted.lookup_mem member] at absent
        exact full_of_nodup rest.distinct e member absent
      have distinct : (0 :: ptr :: es.map Record.ptr).Nodup := by
        obtain ⟨zero, rest'⟩ := List.nodup_cons.mp rest.distinct
        refine List.nodup_cons.mpr ⟨?_, List.nodup_cons.mpr ⟨?_, rest'⟩⟩
        · rw [List.mem_cons, not_or]
          exact ⟨some.symm, zero⟩
        · intro member
          obtain ⟨e, inside, same⟩ := List.mem_map.mp member
          exact fresh e.key ((rest.sorted.lookup_mem inside).trans same)
      obtain ⟨new, inserted, turn, final⟩ := rest.insert missing distinct (by omega)
      exact ⟨new, funext (inserted.lookup rest.sorted), inserted.sorted, turn, final⟩
  | remove key =>
      obtain ⟨new, removed, turn, final⟩ := rest.remove key
      exact ⟨new, funext (removed.lookup rest.sorted), removed.sorted, turn, final⟩

theorem rest_empty : Rest emptyPage [] where
  leaf := rfl
  counted := rfl
  sorted := List.Pairwise.nil
  distinct := List.nodup_singleton 0
  room := by decide
  body := by
    refine .inr ⟨rfl, ⟨2 ^ 64 - 1, 0⟩, rfl, List.cons_ne_nil _ _, fun i r here => ?_,
      fun i r positive here => ?_, rfl⟩
    · exact List.mem_singleton.mp (List.mem_of_getElem? here) ▸ rfl
    · have inside := (List.getElem?_eq_some_iff.mp here).1
      rw [List.length_singleton] at inside
      omega

theorem Reached.rest {map : Nat → Nat} (reached : Reached page map) :
    ∃ es, Rest page es ∧ lookup es = map := by
  induction reached with
  | empty => exact ⟨[], rest_empty, rfl⟩
  | next op _ allowed ih =>
      obtain ⟨es, rest, rfl⟩ := ih
      obtain ⟨new, same, _, _, final⟩ := rest.step op allowed
      exact ⟨new, final, same⟩

/-- The stores of an operation: up to one of them every search of the page answers by the map before
the operation, and from it on every search answers by the map after it. -/
theorem stores_turn_once {map : Nat → Nat} (reached : Reached page map) (op : Op)
    (allowed : op.Allowed page map) :
    Turn (fun p => ∀ k, p.linearSearch k = map k)
      (fun p => ∀ k, p.linearSearch k = op.meaning map k) (op.stores page) ∧
      ∀ k, (op.apply page).linearSearch k = op.meaning map k := by
  obtain ⟨es, rest, rfl⟩ := reached.rest
  obtain ⟨new, same, sorted, turn, final⟩ := rest.step op allowed
  rw [← same]
  exact ⟨turn.imp (fun _ seen => seen.search rest.sorted) (fun _ seen => seen.search sorted),
    (final.seen rfl rfl rfl).search sorted⟩

theorem reached_one :
    Reached (Op.apply (.insert 5 50) emptyPage) (Function.update (fun _ => 0) 5 50) :=
  .next (.insert 5 50) .empty ⟨rfl, by decide, fun _ => show 0 ≠ 50 by decide, by decide⟩

-- A smaller key: the record of 5 moves up, and the front slot is filled last.
theorem insert_in_front_turns :
    Turn (fun p => ∀ k, p.linearSearch k = Function.update (fun _ => 0) 5 50 k)
      (fun p => ∀ k, p.linearSearch k = (Op.insert 3 30).meaning
        (Function.update (fun _ => 0) 5 50) k)
      ((Op.insert 3 30).stores (Op.apply (.insert 5 50) emptyPage)) ∧
    ∀ k, ((Op.insert 3 30).apply (Op.apply (.insert 5 50) emptyPage)).linearSearch k =
      (Op.insert 3 30).meaning (Function.update (fun _ => 0) 5 50) k :=
  stores_turn_once reached_one (.insert 3 30) ⟨rfl, by decide, fun k => by
    by_cases own : k = 5
    · rw [own, Function.update_self]
      decide
    · rw [Function.update_of_ne own]
      decide, by decide⟩

end SetBench.FastFair
