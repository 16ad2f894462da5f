import SetBench.AbTreeFix

/-! Every run of calls is a run of the abstract map, through strict trees. -/
namespace SetBench.AbTree

open MapSpec

variable {K V : Type} [LinearOrder K] {degree top h : Nat} {a b : Option K}

/-! The places of a leaf. -/

omit [LinearOrder K] in
theorem mem_unique {xs : List (K × V)} (once : (xs.map Prod.fst).Nodup) {k : K} {v u : V}
    (one : (k, v) ∈ xs) (two : (k, u) ∈ xs) : v = u :=
  congrArg Prod.snd (List.inj_on_of_nodup_map once one two rfl)

theorem lookup_iff {slots : List (Option (K × V))} (once : ((pairs slots).map Prod.fst).Nodup)
    {k : K} {v : V} :
    lookup k slots = some v ↔ (k, v) ∈ pairs slots := by
  unfold lookup
  constructor
  · intro found
    obtain ⟨x, first, rfl⟩ := Option.map_eq_some_iff.mp found
    have key : x.1 = k := by simpa using List.find?_some first
    rw [← key]
    exact List.mem_of_find?_eq_some first
  · intro member
    cases first : (pairs slots).find? (fun x => decide (x.1 = k)) with
    | none =>
        have differs := List.find?_eq_none.mp first (k, v) member
        simp at differs
    | some x =>
        have key : x.1 = k := by simpa using List.find?_some first
        have among : (k, x.2) ∈ pairs slots := by
          rw [← key]
          exact List.mem_of_find?_eq_some first
        exact congrArg some (mem_unique once among member)

omit [LinearOrder K] in
theorem length_put (k : K) (v : V) (slots : List (Option (K × V))) :
    (put k v slots).length = slots.length := by
  induction slots with
  | nil => rfl
  | cons x rest ih =>
      cases x with
      | none => rfl
      | some x => exact congrArg Nat.succ ih

omit [LinearOrder K] in
theorem pairs_put {k : K} {v : V} {s : List (Option (K × V))} (room : (pairs s).length < s.length) :
    (pairs (put k v s)).Perm ((k, v) :: pairs s) := by
  induction s with
  | nil => cases room
  | cons x rest ih =>
      cases x with
      | none => exact List.Perm.refl _
      | some x =>
          have room : (pairs rest).length < rest.length := Nat.lt_of_succ_lt_succ room
          exact ((ih room).cons x).trans (List.Perm.swap ..)

theorem pairs_remove (k : K) (slots : List (Option (K × V))) :
    pairs (remove k slots) = (pairs slots).filter fun x => x.1 ≠ k := by
  induction slots with
  | nil => rfl
  | cons x rest ih =>
      cases x with
      | none => exact ih
      | some x =>
          by_cases same : x.1 = k
          · have gone : pairs (remove k (some x :: rest)) = pairs (remove k rest) := by
              simp [pairs, remove, Option.filter_some, same]
            have skip : pairs (some x :: rest) = x :: pairs rest := rfl
            rw [gone, ih, skip, List.filter_cons_of_neg (by simpa using same)]
          · have stays : pairs (remove k (some x :: rest)) = x :: pairs (remove k rest) := by
              simp [pairs, remove, Option.filter_some, same]
            have skip : pairs (some x :: rest) = x :: pairs rest := rfl
            rw [stays, ih, skip, List.filter_cons_of_pos (by simpa using same)]

theorem length_filter_ne {xs : List (K × V)} (once : (xs.map Prod.fst).Nodup) {k : K} {v : V}
    (member : (k, v) ∈ xs) :
    (xs.filter fun x => x.1 ≠ k).length + 1 = xs.length := by
  induction xs with
  | nil => cases member
  | cons x xs ih =>
      have distinct := List.nodup_cons.mp once
      rcases List.mem_cons.mp member with rfl | member
      · have all : (xs.filter fun x => x.1 ≠ k) = xs := by
          refine List.filter_eq_self.mpr fun y among => ?_
          have other : y.1 ≠ k := by
            intro same
            refine distinct.1 ?_
            show k ∈ xs.map Prod.fst
            rw [← same]
            exact List.mem_map_of_mem among
          simpa using other
        rw [List.filter_cons_of_neg (by simp), all]
        rfl
      · have other : x.1 ≠ k := by
          intro same
          refine distinct.1 ?_
          rw [same]
          exact List.mem_map_of_mem (f := Prod.fst) member
        rw [List.filter_cons_of_pos (by simpa using other)]
        exact congrArg Nat.succ (ih distinct.2 member)

/-! The leaf of a key. -/

theorem search_leaf (k : K) (n : Nat) (c : List (Frame K V)) (searchKey : K) (size : Nat)
    (slots : List (Option (K × V))) :
    search k n c (.leaf searchKey size slots) = (c, .leaf searchKey size slots) := by
  cases n with
  | zero => rfl
  | succ n => rfl

theorem Ctx.height {c : List (Frame K V)} (ctx : Ctx degree top h a b c) : h + c.length = top := by
  induction c generalizing h a b with
  | nil => exact ctx.1
  | cons f c ih =>
      obtain ⟨_, _, _, _, _, _, _, _, _, rest⟩ := ctx
      have height := ih rest
      rw [List.length_cons]
      omega

theorem Ctx.finds {c : List (Frame K V)} {searchKey : K} {size : Nat}
    {slots : List (Option (K × V))} (ctx : Ctx degree top 0 a b c) {k : K} (inside : In a b k)
    {fuel : Nat} (enough : top ≤ fuel) :
    search k fuel [] (plug c (.leaf searchKey size slots)) = (c, .leaf searchKey size slots) := by
  have height := ctx.height
  obtain ⟨n, rfl⟩ : ∃ n, fuel = n + c.length := ⟨fuel - c.length, by omega⟩
  rw [search_plug ctx inside n]
  exact search_leaf ..

-- A key's pair can only be in the leaf of the key.
theorem Ctx.leaf_pairs {c : List (Frame K V)} {searchKey : K} {size : Nat}
    {slots : List (Option (K × V))} (ctx : Ctx degree top 0 a b c) {k : K} (inside : In a b k)
    (v : V) :
    (k, v) ∈ contents top (plug c (.leaf searchKey size slots)) ↔ (k, v) ∈ pairs slots := by
  rw [mem_plug ctx]
  constructor
  · rintro (member | member)
    · exact member
    · exact absurd inside (ctx.out member)
  · exact .inl

/-- A strict tree that holds a map. -/
structure Good (degree : Nat) (noValue : V) (top : Nat) (root : Tree K V) (map : K → Option V) :
    Prop where
  strict : Strict degree top root
  holds : ∀ z, z ∈ contents top root ↔ map z.1 = some z.2
  values : ∀ k v, map k = some v → v ≠ noValue

variable {noValue : V} {root : Tree K V} {map : K → Option V}

theorem Good.leaf (good : Good degree noValue top root map) (k : K) :
    ∃ c a b searchKey size slots, Ctx degree top 0 a b c ∧ In a b k ∧
    LeafOk degree a b searchKey size slots ∧ Fits degree 0 c (Tree.leaf searchKey size slots) ∧
    plug c (Tree.leaf searchKey size slots) = root ∧ lookup k slots = map k := by
  have ctx : Ctx degree top top none none ([] : List (Frame K V)) := ⟨rfl, rfl, rfl⟩
  obtain ⟨c, a, b, searchKey, size, slots, leafCtx, inside, ok, fits, same⟩ :=
    ctx.leaf good.strict.ok good.strict.root (k := k) ⟨nofun, nofun⟩
  have same : plug c (Tree.leaf searchKey size slots) = root := same
  refine ⟨c, a, b, searchKey, size, slots, leafCtx, inside, ok, fits, same, ?_⟩
  refine Option.ext fun v => ?_
  have held := good.holds (k, v)
  rw [← same, leafCtx.leaf_pairs inside] at held
  exact (lookup_iff ok.once).trans held

theorem update_holds {xs : K × V → Prop} {k : K} {v : V} (before : ∀ z, xs z ↔ map z.1 = some z.2)
    (absent : map k = none) (z : K × V) :
    (z = (k, v) ∨ xs z) ↔ Function.update map k (some v) z.1 = some z.2 := by
  obtain ⟨y, u⟩ := z
  by_cases same : y = k
  · subst same
    have none_ := before (y, u)
    simp only [absent, reduceCtorEq, iff_false] at none_
    simp [none_, eq_comm]
  · have held := before (y, u)
    simp [same, held]

theorem remove_holds {xs : K × V → Prop} {k : K} (before : ∀ z, xs z ↔ map z.1 = some z.2)
    (z : K × V) :
    (xs z ∧ z.1 ≠ k) ↔ Function.update map k none z.1 = some z.2 := by
  obtain ⟨y, u⟩ := z
  by_cases same : y = k
  · subst same
    simp
  · have held := before (y, u)
    simp [same, held]

/-- A call returns what the abstract map returns and leaves a tree of the new map. -/
def Answers [DecidableEq V] (degree : Nat) (noValue : V) (root : Tree K V) (map : K → Option V)
    (op : Op K V) : Prop :=
  ∃ n next top', (∀ fuel, n ≤ fuel →
    call degree noValue fuel root op = some (next, (specStep noValue map op).2)) ∧
    Good degree noValue top' next (specStep noValue map op).1

section Calls

variable [DecidableEq V] (least : 4 ≤ degree) (good : Good degree noValue top root map)

include least good

theorem Good.insert (k : K) {v : V} (real : v ≠ noValue) :
    Answers degree noValue root map (.insert k v) := by
  obtain ⟨c, a, b, searchKey, size, slots, ctx, inside, ok, fits, same, found⟩ := good.leaf k
  have finds {fuel : Nat} (enough : top ≤ fuel) : search k fuel [] root =
    (c, .leaf searchKey size slots) := by
    rw [← same]
    exact ctx.finds inside enough
  cases present : map k with
  | some old =>
      refine ⟨top, root, top, fun fuel enough => ?_, ?_⟩
      · simp only [call, tryInsert, finds enough, found, present, specStep]
      · simp only [specStep, present]
        exact good
  | none =>
      have values : ∀ y u, Function.update map k (some v) y = some u → u ≠ noValue := by
        intro y u held
        by_cases here : y = k
        · subst here
          rw [Function.update_self] at held
          cases held
          exact real
        · rw [Function.update_of_ne here] at held
          exact good.values y u held
      have missing : ∀ x ∈ pairs slots, x.1 ≠ k := by
        rintro ⟨y, u⟩ member rfl
        have there := (lookup_iff ok.once).mpr member
        rw [found, present] at there
        cases there
      have once : (((k, v) :: pairs slots).map Prod.fst).Nodup := by
        rw [List.map_cons]
        refine List.nodup_cons.mpr ⟨fun member => ?_, ok.once⟩
        obtain ⟨x, among, equal⟩ := List.mem_map.mp member
        exact missing x among equal
      have within : ∀ x ∈ (k, v) :: pairs slots, In a b x.1 := by
        intro x member
        rcases List.mem_cons.mp member with rfl | member
        · exact inside
        · exact ok.inside x member
      have old (z : K × V) : (z ∈ pairs slots ∨ z ∈ outside 0 c) ↔ map z.1 = some z.2 := by
        rw [← good.holds z, ← same, mem_plug ctx]
        rfl
      have new (z : K × V) : (z ∈ (k, v) :: pairs slots ∨ z ∈ outside 0 c) ↔
        Function.update map k (some v) z.1 = some z.2 := by
        rw [← update_holds old present z, List.mem_cons, or_assoc]
      unfold Answers
      simp only [specStep, present]
      by_cases room : size < degree
      · have perm := pairs_put (k := k) (v := v) (s := slots)
          (by rw [← ok.size, ok.length]; exact room)
        have newOk : Ok degree 0 a b (Tree.leaf searchKey (size + 1) (put k v slots)) := by
          refine ⟨(length_put ..).trans ok.length, ?_, ?_, ?_, ok.searchKey⟩
          · rw [perm.length_eq, List.length_cons, ← ok.size]
          · exact (perm.map Prod.fst).nodup_iff.mpr once
          · exact fun x member => within x (perm.mem_iff.mp member)
        refine ⟨top, plug c (.leaf searchKey (size + 1) (put k v slots)), top,
          fun fuel enough => ?_, ⟨ctx.strict newOk ?_, fun z => ?_, values⟩⟩
        · simp only [call, tryInsert, finds enough, found, present, room, if_true]
        · unfold Fits at fits ⊢
          split
          · exact fun no => absurd rfl no
          · rename_i more
            rw [if_neg more] at fits
            exact Nat.le_succ_of_le fits
        · rw [mem_plug ctx, ← new z]
          simp only [contents, perm.mem_iff]
      · have full : size = degree := by
          have whole : Ok degree 0 a b (Tree.leaf searchKey size slots) := ok
          have most := whole.size_le
          simp only [Tree.size] at most
          omega
        have half := low_half least
        have count : (pairs slots ++ [(k, v)]).length = degree + 1 := by
          rw [List.length_append, ← ok.size, full]
          rfl
        have perm : (pairs slots ++ [(k, v)]).Perm ((k, v) :: pairs slots) :=
          List.perm_append_singleton ..
        have all := (sorted_perm (pairs slots ++ [(k, v)])).trans perm
        obtain ⟨halves, made, pieces, pivot⟩ :
          ∃ halves, splitLeaf degree ((pairs slots ++ [(k, v)]).length / 2)
            (degree + 1 - (pairs slots ++ [(k, v)]).length / 2) (sorted (pairs slots ++ [(k, v)])) =
            some halves ∧
            Halves degree 0 a b halves (sorted (pairs slots ++ [(k, v)])) ∧ In a b halves.2.1 := by
          refine split_leaf _ _ (sorted_strict ((perm.map Prod.fst).nodup_iff.mpr once))
            (fun x member => within x (all.mem_iff.mp member)) ?_
            (by omega) (by omega) (by omega) (by omega)
          rw [(sorted_perm _).length_eq]
          omega
        obtain ⟨n, next, top', cleans, strict, holds⟩ := pair_cleans least ctx pieces pivot
        refine ⟨max n top, next, top', fun fuel enough => ?_, ⟨strict, fun z => ?_, values⟩⟩
        · have cleaned := cleans fuel ((le_max_left ..).trans enough)
          simp only [call, tryInsert, finds ((le_max_right ..).trans enough), found, present, room,
            if_false, made, cleaned, Option.map_some]
        · refine (holds z).trans ?_
          rw [← new z, ← all.mem_iff]

theorem Good.erase (k : K) : Answers degree noValue root map (.remove k) := by
  obtain ⟨c, a, b, searchKey, size, slots, ctx, inside, ok, fits, same, found⟩ := good.leaf k
  have finds {fuel : Nat} (enough : top ≤ fuel) : search k fuel [] root =
    (c, .leaf searchKey size slots) := by
    rw [← same]
    exact ctx.finds inside enough
  cases present : map k with
  | none =>
      refine ⟨top, root, top, fun fuel enough => ?_, ?_⟩
      · simp only [call, tryErase, finds enough, found, present, specStep]
      · simp only [specStep, present]
        exact good
  | some old =>
      have real := good.values k old present
      have member : (k, old) ∈ pairs slots := (lookup_iff ok.once).mp (found.trans present)
      have values : ∀ y u, Function.update map k none y = some u → u ≠ noValue := by
        intro y u held
        by_cases here : y = k
        · subst here
          rw [Function.update_self] at held
          cases held
        · rw [Function.update_of_ne here] at held
          exact good.values y u held
      have less := length_filter_ne ok.once member
      have newOk : Ok degree 0 a b (Tree.leaf searchKey (size - 1) (remove k slots)) := by
        refine ⟨?_, ?_, ?_, ?_, ok.searchKey⟩
        · rw [← ok.length]
          exact List.length_map ..
        · rw [pairs_remove, ok.size]
          omega
        · rw [pairs_remove]
          exact ok.once.sublist (List.filter_sublist.map _)
        · rw [pairs_remove]
          exact fun x among => ok.inside x (List.mem_of_mem_filter among)
      have new (z : K × V) : (z ∈ contents 0 (Tree.leaf searchKey (size - 1) (remove k slots)) ∨
        z ∈ outside 0 c) ↔
          Function.update map k none z.1 = some z.2 := by
        have held : (z ∈ pairs slots ∨ z ∈ outside 0 c) ↔ map z.1 = some z.2 := by
          rw [← good.holds z, ← same, mem_plug ctx]
          rfl
        rw [← remove_holds good.holds z]
        have out : z ∈ outside 0 c → z.1 ≠ k := fun among equal => ctx.out among (equal ▸ inside)
        have parts : z ∈ contents top root ↔ z ∈ pairs slots ∨ z ∈ outside 0 c :=
          (good.holds z).trans held.symm
        simp only [contents, pairs_remove, List.mem_filter, parts, decide_eq_true_eq]
        tauto
      unfold Answers
      simp only [specStep, present]
      have small : 2 ≤ low degree := le_max_right ..
      by_cases violates : size - 1 = low degree - 1
      · obtain ⟨n, next, top', cleans, strict, holds⟩ :
          Cleans degree searchKey (plug c (Tree.leaf searchKey (size - 1) (remove k slots)))
            fun z => z ∈ contents 0 (Tree.leaf searchKey (size - 1) (remove k slots)) ∨
              z ∈ outside 0 c := by
          cases c with
          | nil =>
              have strict : Strict degree top
                (plug [] (Tree.leaf searchKey (size - 1) (remove k slots))) :=
                ctx.strict newOk (by simp [Fits])
              exact (strict.cleans searchKey).congr fun z => mem_plug ctx z
          | cons f c =>
              refine underfull_cleans least ctx newOk ?_ ok.searchKey
              show size - 1 + 1 = low degree
              omega
        refine ⟨max n top, next, top', fun fuel enough => ?_,
          ⟨strict, fun z => (holds z).trans (new z), values⟩⟩
        have cleaned := cleans fuel ((le_max_left ..).trans enough)
        simp only [call, tryErase, finds ((le_max_right ..).trans enough), found, present, real,
          if_false]
        rw [if_pos violates, cleaned]
        rfl
      · refine ⟨top, plug c (Tree.leaf searchKey (size - 1) (remove k slots)), top,
          fun fuel enough => ?_, ⟨ctx.strict newOk ?_, fun z => ?_, values⟩⟩
        · simp only [call, tryErase, finds enough, found, present, real, if_false, violates]
        · unfold Fits at fits ⊢
          split
          · exact fun no => absurd rfl no
          · rename_i more
            rw [if_neg more] at fits
            simp only [Tree.size] at fits ⊢
            omega
        · rw [mem_plug ctx]
          exact new z

end Calls

theorem initial_good (degree : Nat) (noValue : V) (anyKey : K) :
    Good degree noValue 0 (initial degree anyKey) fun _ => none := by
  have empty : pairs (List.replicate degree (none : Option (K × V))) = [] := by
    simp [pairs]
  refine ⟨⟨⟨?_, ?_, ?_, ?_, by intros; contradiction, by intros; contradiction⟩,
    fun no => absurd rfl no⟩, fun z => ?_, by intros; contradiction⟩
  · simp
  · simp [empty]
  · simp [empty]
  · simp [empty]
  · simp [initial, external, contents, empty]

/-! Runs. -/

-- The values that tryInsert is called with; NO_VALUE is not one of them.
def Real (noValue : V) : Op K V → Prop
  | .insert _ v => v ≠ noValue
  | .remove _ => True

theorem Good.call [DecidableEq V] (least : 4 ≤ degree) (good : Good degree noValue top root map)
    {op : Op K V} (real : Real noValue op) :
    Answers degree noValue root map op := by
  cases op with
  | insert k v => exact good.insert least k real
  | remove k => exact good.erase least k

theorem Good.run [DecidableEq V] (least : 4 ≤ degree) (ops : List (Op K V))
    (good : Good degree noValue top root map) (real : ∀ op ∈ ops, Real noValue op) :
    ∃ n root' top', (∀ fuel, n ≤ fuel → runCalls degree noValue fuel ops root = some (root',
      (specRun noValue ops map).2)) ∧
      Good degree noValue top' root' (specRun noValue ops map).1 := by
  induction ops generalizing top root map with
  | nil => exact ⟨0, root, top, fun _ _ => rfl, good⟩
  | cons op rest ih =>
      obtain ⟨n, next, top', calls, kept⟩ := good.call least (real op (List.mem_cons_self ..))
      obtain ⟨m, root', top'', runs, end_⟩ := ih kept fun op member =>
        real op (List.mem_cons_of_mem _ member)
      refine ⟨max n m, root', top'', fun fuel enough => ?_, end_⟩
      have first := calls fuel ((le_max_left ..).trans enough)
      have others := runs fuel ((le_max_right ..).trans enough)
      simp only [runCalls, first, others, Option.map_some]
      rfl

theorem Good.find (good : Good degree noValue top root map) {fuel : Nat} (enough : top ≤ fuel)
    (k : K) :
    AbTree.find noValue fuel root k = (map k).getD noValue := by
  obtain ⟨c, a, b, searchKey, size, slots, ctx, inside, _, _, same, found⟩ := good.leaf k
  have finds : search k fuel [] root = (c, .leaf searchKey size slots) := by
    rw [← same]
    exact ctx.finds inside enough
  unfold AbTree.find
  rw [finds, ← found]

/-! Every place of a strict tree. -/

omit [LinearOrder K] in
theorem ends_append (ks ls : List K) (hi : Option K) :
    ends (ks ++ ls) hi = ks.map some ++ ends ls hi := by
  simp [ends]

-- The children around any of them.
theorem around_of_span {P : Option K → Option K → Tree K V → Prop} {lo hi : Option K}
    {keys : List K} {before after : List (Tree K V)} {t : Tree K V}
    (span : Span P lo (ends keys hi) (before ++ t :: after) hi) :
    ∃ a b ks ls rs, Around P lo hi a b keys before after ks ls rs ∧ P a b t := by
  have count := span.length
  simp only [ends, List.length_append, List.length_map, List.length_cons, List.length_nil] at count
  have length : ((keys.take before.length).map some).length = before.length := by
    rw [List.length_map, List.length_take]
    omega
  rw [← List.take_append_drop before.length keys, ends_append, span_append length] at span
  obtain ⟨a, left, right⟩ := span
  cases list : ends (keys.drop before.length) hi with
  | nil => simp [ends] at list
  | cons b rs =>
      rw [list] at right
      obtain ⟨order, here, after_⟩ := right
      exact ⟨a, b, _, _, rs, ⟨(List.take_append_drop ..).symm, list, left, after_, order⟩, here⟩

theorem Strict.ctx {c : List (Frame K V)} {t : Tree K V} (strict : Strict degree top (plug c t)) :
    ∃ h a b, Ctx degree top h a b c ∧ Ok degree h a b t ∧ Fits degree h c t := by
  induction c generalizing t with
  | nil => exact ⟨top, none, none, ⟨rfl, rfl, rfl⟩, strict.ok, strict.root⟩
  | cons f c ih =>
      obtain ⟨h, lo, hi, ctx, ok, fits⟩ := ih strict
      cases h with
      | zero => exact ok.elim
      | succ h =>
          obtain ⟨weight, less, span⟩ := ok
          obtain ⟨a, b, ks, ls, rs, around, full⟩ := around_of_span span
          have size := f.fill_size t
          refine ⟨h, a, b, ⟨lo, hi, ks, ls, rs, around, weight, size ▸ less, ?_, ctx⟩, full.1,
            full.2⟩
          unfold Fits at fits
          rw [size] at fits
          split
          · rename_i empty
            rw [if_pos empty] at fits
            exact fits (Nat.succ_ne_zero h)
          · rename_i more
            rw [if_neg more] at fits
            exact fits

/-- The place of each leaf is where the search for its searchKey ends, and for each of its
keys. -/
theorem Strict.reaches {c : List (Frame K V)} {searchKey : K} {size : Nat}
    {slots : List (Option (K × V))}
    (strict : Strict degree top (plug c (.leaf searchKey size slots))) {fuel : Nat}
    (enough : top ≤ fuel) {k : K} (own : k = searchKey ∨ k ∈ (pairs slots).map Prod.fst) :
    search k fuel [] (plug c (.leaf searchKey size slots)) = (c, .leaf searchKey size slots) := by
  obtain ⟨h, a, b, ctx, ok, _⟩ := strict.ctx
  cases h with
  | succ h => exact ok.elim
  | zero =>
      refine ctx.finds ?_ enough
      rcases own with rfl | member
      · exact LeafOk.searchKey ok
      · obtain ⟨x, among, rfl⟩ := List.mem_map.mp member
        exact LeafOk.inside ok x among

/-- Calls one at a time return what the map returns and end in a strict (a,b)-tree of the
map; the search for a leaf's searchKey and for each of its keys ends at the leaf. -/
theorem calls_refine_map [DecidableEq V] (degree : Nat) (least : 4 ≤ degree) (noValue : V)
    (anyKey : K) (ops : List (Op K V)) (real : ∀ op ∈ ops, Real noValue op) :
    ∃ n root top, (∀ fuel, n ≤ fuel →
        runCalls degree noValue fuel ops (initial degree anyKey) =
          some (root, (specRun noValue ops fun _ => none).2)) ∧
      Strict degree top root ∧
      (∀ k v, (k, v) ∈ contents top root ↔ (specRun noValue ops fun _ => none).1 k = some v) ∧
      (∀ fuel, top ≤ fuel → ∀ k v, v ≠ noValue →
        (find noValue fuel root k = v ↔ (k, v) ∈ contents top root)) ∧
      (∀ c searchKey size slots, plug c (.leaf searchKey size slots) = root →
        ∀ fuel, top ≤ fuel → ∀ k,
        k = searchKey ∨ k ∈ (pairs slots).map Prod.fst → search k fuel [] root =
          (c, .leaf searchKey size slots)) ∧
      ∀ c searchKey size slots c' searchKey' size' slots', plug c (.leaf searchKey size slots) =
        root →
        plug c' (.leaf searchKey' size' slots') = root → ∀ k ∈ (pairs slots).map Prod.fst, k ∈
          (pairs slots').map Prod.fst → c = c' := by
  obtain ⟨n, root, top, runs, good⟩ := (initial_good degree noValue anyKey).run least ops real
  have reaches (c : List (Frame K V)) (searchKey : K) (size : Nat) (slots : List (Option (K × V)))
      (here : plug c (.leaf searchKey size slots) = root) (fuel : Nat) (enough : top ≤ fuel) (k : K)
      (own : k = searchKey ∨ k ∈ (pairs slots).map Prod.fst) : search k fuel [] root =
      (c, .leaf searchKey size slots) := by
    subst here
    exact good.strict.reaches enough own
  refine ⟨n, root, top, runs, good.strict, fun k v => good.holds (k, v), fun fuel enough k v real =>
    ?_, reaches, ?_⟩
  · rw [good.find enough, good.holds (k, v)]
    cases (specRun noValue ops fun _ => none).1 k with
    | none => simpa using real.symm
    | some u => simp
  · intro c searchKey size slots c' searchKey' size' slots' one two k left right
    have first := reaches c searchKey size slots one top le_rfl k (.inr left)
    have second := reaches c' searchKey' size' slots' two top le_rfl k (.inr right)
    exact congrArg Prod.fst (first.symm.trans second)

-- A leaf splits at the fifth key and is merged back when two keys are gone.
def script : List (Op Nat Nat) :=
  [.insert 5 50, .insert 3 30, .insert 9 90, .insert 1 10, .insert 7 70, .insert 3 31, .remove 1,
    .remove 5, .remove 4]

theorem script_refines_map : (∀ op ∈ script, Real 0 op) ∧
    ∃ n root top, (∀ fuel, n ≤ fuel → runCalls 4 0 fuel script (initial 4 0) = some (root,
      [0, 0, 0, 0, 0, 30, 10, 50, 0])) ∧
      Strict 4 top root ∧ (9, 90) ∈ contents top root := by
  have real : ∀ op ∈ script, Real 0 op := by
    simp [script, Real]
  obtain ⟨n, root, top, runs, strict, holds, _⟩ := calls_refine_map 4 le_rfl 0 0 script real
  refine ⟨real, n, root, top, fun fuel enough => (runs fuel enough).trans ?_, strict,
    (holds 9 90).mpr ?_⟩
  · exact congrArg (fun results => some (root, results)) (by decide)
  · decide

example : (runCalls 4 0 20 script (initial 4 0)).map Prod.snd =
    some [0, 0, 0, 0, 0, 30, 10, 50, 0] := by
  decide +kernel

end SetBench.AbTree
