import SetBench.AbTreeShape

/-! Splits, merges, and the cleanup of one violation. -/
namespace SetBench.AbTree

variable {K V : Type} [LinearOrder K] {degree top h : Nat} {a b : Option K}

/-! Leaves. -/

omit [LinearOrder K] in
@[simp] theorem pairs_external (xs : List (K × V)) (n : Nat) :
    pairs (xs.map some ++ List.replicate n none) = xs := by
  simp [pairs, List.filterMap_append, List.filterMap_map]

theorem external_ok {searchKey : K} {size : Nat} {xs : List (K × V)} (length : xs.length = size)
    (less : size ≤ degree) (once : (xs.map Prod.fst).Nodup) (inside : ∀ x ∈ xs, In a b x.1)
    (key : In a b searchKey) :
    Ok degree 0 a b (external degree searchKey size xs) := by
  refine ⟨?_, ?_, ?_, ?_, key⟩
  · simp only [List.length_append, List.length_map, List.length_replicate]
    omega
  · rw [pairs_external, length]
  · rw [pairs_external]
    exact once
  · rw [pairs_external]
    exact inside

omit [LinearOrder K] in
@[simp] theorem contents_external {searchKey : K} {size : Nat} (xs : List (K × V)) :
    contents 0 (external degree searchKey size xs) = xs :=
  pairs_external xs _

/-- What a split gives: two full trees with a key between them. -/
structure Halves (degree h : Nat) (a b : Option K) (halves : Tree K V × K × Tree K V)
    (xs : List (K × V)) : Prop where
  left : Full degree h a (some halves.2.1) halves.1
  right : Full degree h (some halves.2.1) b halves.2.2
  low : Lt a (some halves.2.1)
  high : Lt (some halves.2.1) b
  holds : ∀ x, x ∈ contents h halves.1 ∨ x ∈ contents h halves.2.2 ↔ x ∈ xs

theorem Halves.span {halves : Tree K V × K × Tree K V} {xs : List (K × V)}
    (good : Halves degree h a b halves xs) :
    Span (Full degree h) a (ends [halves.2.1] b) [halves.1, halves.2.2] b :=
  ⟨good.low, good.left, good.high, good.right, rfl⟩

theorem sorted_perm (xs : List (K × V)) : (sorted xs).Perm xs := List.perm_insertionSort _ xs

-- Distinct keys in order are strictly in order.
theorem sorted_strict {xs : List (K × V)} (once : (xs.map Prod.fst).Nodup) :
    (sorted xs).Pairwise fun x y => x.1 < y.1 := by
  have : Std.Total fun x y : K × V => x.1 ≤ y.1 := ⟨fun x y => le_total x.1 y.1⟩
  have : IsTrans (K × V) fun x y => x.1 ≤ y.1 := ⟨fun x y z => le_trans⟩
  have weak : (sorted xs).Pairwise fun x y => x.1 ≤ y.1 := List.pairwise_insertionSort _ xs
  have distinct : ((sorted xs).map Prod.fst).Nodup :=
    ((sorted_perm xs).map Prod.fst).nodup_iff.mpr once
  rw [List.Nodup, List.pairwise_map] at distinct
  exact (weak.and distinct).imp fun both => lt_of_le_of_ne both.1 both.2

theorem split_leaf (leftSize rightSize : Nat) {xs : List (K × V)}
    (strict : xs.Pairwise fun x y => x.1 < y.1) (inside : ∀ x ∈ xs, In a b x.1)
    (length : xs.length = leftSize + rightSize) (left : low degree ≤ leftSize)
    (right : low degree ≤ rightSize) (leftLess : leftSize ≤ degree)
    (rightLess : rightSize ≤ degree) :
    ∃ halves, splitLeaf degree leftSize rightSize xs = some halves ∧ Halves degree 0 a b halves xs ∧
      In a b halves.2.1 := by
  have least : 2 ≤ low degree := le_max_right ..
  have bound : leftSize < xs.length := by omega
  have nonempty : 0 < xs.length := by omega
  have first : xs.head? = some xs[0] := by
    rw [List.head?_eq_getElem?, List.getElem?_eq_getElem nonempty]
  have middle : xs[leftSize]? = some xs[leftSize] := List.getElem?_eq_getElem bound
  have all : (xs.drop leftSize).take rightSize = xs.drop leftSize := by
    rw [List.take_of_length_le]
    rw [List.length_drop]
    omega
  set p := xs[leftSize] with p_def
  have among : p ∈ xs := List.getElem_mem bound
  have head : xs[0] ∈ xs := List.getElem_mem nonempty
  have ordered {i j : Nat} (less : i < j) (within : j < xs.length) : xs[i].1 < xs[j].1 :=
    List.pairwise_iff_getElem.mp strict i j (less.trans within) within less
  have once : (xs.map Prod.fst).Nodup := by
    rw [List.Nodup, List.pairwise_map]
    exact strict.imp ne_of_lt
  have onLeft : ∀ x ∈ xs.take leftSize, In a (some p.1) x.1 := by
    intro x member
    refine ⟨(inside x (List.mem_of_mem_take member)).left, ?_⟩
    rintro _ ⟨⟩
    obtain ⟨i, less, rfl⟩ := List.mem_take_iff_getElem.mp member
    exact ordered (by omega) bound
  have onRight : ∀ x ∈ xs.drop leftSize, In (some p.1) b x.1 := by
    intro x member
    refine ⟨?_, (inside x (List.mem_of_mem_drop member)).right⟩
    rintro _ ⟨⟩
    obtain ⟨i, less, rfl⟩ := List.mem_drop_iff_getElem.mp member
    rcases Nat.eq_zero_or_pos i with rfl | positive
    · exact le_of_eq (by simp [p_def])
    · exact (ordered (show leftSize < leftSize + i by omega) (by omega)).le
  have lowest : In a (some p.1) xs[0].1 := by
    refine ⟨(inside _ head).left, ?_⟩
    rintro _ ⟨⟩
    exact ordered (by omega) bound
  refine ⟨(external degree xs[0].1 leftSize (xs.take leftSize), p.1,
    external degree p.1 rightSize (xs.drop leftSize)), ?_,
    ⟨⟨?_, left⟩, ⟨?_, right⟩, ?_, ?_, ?_⟩, inside p among⟩
  · simp only [splitLeaf, first, middle, all]
  · refine external_ok ?_ leftLess (once.sublist ((List.take_sublist _ _).map _)) onLeft lowest
    rw [List.length_take]
    omega
  · refine external_ok ?_ rightLess (once.sublist ((List.drop_sublist _ _).map _)) onRight
      ⟨?_, (inside p among).right⟩
    · rw [List.length_drop]
      omega
    · rintro _ ⟨⟩
      exact le_rfl
  · intro x member y same
    cases same
    exact (lowest.left x member).trans_lt (lowest.right _ rfl)
  · rintro _ ⟨⟩ y member
    exact (inside p among).right y member
  · intro x
    simp only [contents_external]
    rw [← List.mem_append, List.take_append_drop]

/-! Internal nodes. -/

theorem Span.lt {P : Option K → Option K → Tree K V → Prop} {keys : List K} {ts : List (Tree K V)}
    (span : Span P a (ends keys b) ts b) :
    Lt a b := by
  cases keys with
  | nil =>
      cases ts with
      | nil => exact span.elim
      | cons t ts => exact span.1
  | cons y keys =>
      cases ts with
      | nil => exact span.elim
      | cons t ts =>
          exact fun x member z bound => (span.1 x member y rfl).trans (span.2.2.above z bound)

theorem split_span {P : Option K → Option K → Tree K V → Prop} {keys : List K}
    {ts : List (Tree K V)} {n : Nat} (span : Span P a (ends keys b) ts b) (positive : 1 ≤ n)
    (less : n < ts.length) :
    ∃ p, keys[n - 1]? = some p ∧ Span P a (ends (keys.take (n - 1)) (some p)) (ts.take n) (some p) ∧
      Span P (some p) (ends (keys.drop n) b) (ts.drop n) b := by
  have length := span.length
  have total : keys.length + 1 = ts.length := by
    rw [← length]
    simp [ends]
  have within : n - 1 < keys.length := by omega
  refine ⟨keys[n - 1], List.getElem?_eq_getElem within, ?_⟩
  have ks : keys = keys.take (n - 1) ++ keys[n - 1] :: keys.drop n := by
    have tail : keys.drop (n - 1) = keys[n - 1] :: keys.drop n := by
      rw [List.drop_eq_getElem_cons within]
      congr 2
      omega
    rw [← tail, List.take_append_drop]
  have rs : ends keys b = ends (keys.take (n - 1)) (some keys[n - 1]) ++ ends (keys.drop n) b := by
    conv_lhs => rw [ks]
    simp [ends]
  rw [rs, ← List.take_append_drop n ts] at span
  have same : (ends (keys.take (n - 1)) (some keys[n - 1])).length = (ts.take n).length := by
    simp only [ends, List.length_append, List.length_map, List.length_take, List.length_singleton]
    omega
  obtain ⟨m, one, two⟩ := (span_append same).mp span
  -- a span ends where its last tree does
  have stops : m = some keys[n - 1] := by
    have last {P : Option K → Option K → Tree K V → Prop} {a m c : Option K} {ks : List K}
      {us : List (Tree K V)}
        (span : Span P a (ends ks c) us m) : m = c := by
      induction ks generalizing a us with
      | nil =>
          cases us with
          | nil => exact span.elim
          | cons u us =>
              cases us with
              | nil => exact Eq.symm span.2.2
              | cons v us => exact span.2.2.elim
      | cons k ks ih =>
          cases us with
          | nil => exact span.elim
          | cons u us => exact ih span.2.2
    exact last one
  subst stops
  exact ⟨one, two⟩

theorem split_node {keys : List K} {ts : List (Tree K V)}
    (span : Span (Full degree h) a (ends keys b) ts b) (enough : 2 * low degree ≤ ts.length)
    (less : ts.length - ts.length / 2 ≤ degree) :
    ∃ halves, splitNode keys ts = some halves ∧ Halves degree (h + 1) a b halves
      (ts.flatMap (contents h)) := by
  have least : 2 ≤ low degree := le_max_right ..
  obtain ⟨p, found, left, right⟩ := split_span (n := ts.length / 2) span (by omega) (by omega)
  refine ⟨(.node true (keys.take (ts.length / 2 - 1)) (ts.take (ts.length / 2)), p,
    .node true (keys.drop (ts.length / 2)) (ts.drop (ts.length / 2))), ?_,
    ⟨⟨⟨rfl, ?_, left⟩, ?_⟩, ⟨⟨rfl, ?_, right⟩, ?_⟩, left.lt, right.lt, ?_⟩⟩
  · simp only [splitNode, found]
  · rw [List.length_take]
    omega
  · simp only [Tree.size, List.length_take]
    omega
  · rw [List.length_drop]
    omega
  · simp only [Tree.size, List.length_drop]
    omega
  · intro x
    simp only [contents]
    rw [← List.mem_append, ← List.flatMap_append, List.take_append_drop]

/-! Cleanup ends in a strict tree with the same contents. -/

def Cleans (degree : Nat) (k : K) (root : Tree K V) (holds : K × V → Prop) : Prop :=
  ∃ n result top, (∀ fuel, n ≤ fuel → cleanup degree k fuel [] root = some result) ∧
    Strict degree top result ∧
    ∀ x, x ∈ contents top result ↔ holds x

theorem Strict.cleans {root : Tree K V} (strict : Strict degree top root) (k : K) :
    Cleans degree k root fun x => x ∈ contents top root := by
  have ctx : Ctx degree top top none none ([] : List (Frame K V)) := ⟨rfl, rfl, rfl⟩
  obtain ⟨c, a, b, searchKey, size, slots, leafCtx, inside, ok, fits, same⟩ :=
    ctx.leaf strict.ok strict.root (k := k) ⟨nofun, nofun⟩
  refine ⟨c.length + 1, root, top, fun fuel enough => ?_, strict, fun x => Iff.rfl⟩
  obtain ⟨m, rfl⟩ : ∃ m, fuel = m + 1 + c.length := ⟨fuel - 1 - c.length, by omega⟩
  have walk := cleanup_plug (t := .leaf searchKey size slots) leafCtx inside (m + 1)
  have here : plug c (.leaf searchKey size slots) = root := same
  rw [here] at walk
  rw [walk]
  have large : ¬ (size < low degree ∧ c.isEmpty = false) := by
    rintro ⟨small, more⟩
    unfold Fits at fits
    rw [more] at fits
    simp only [Bool.false_eq_true, if_false, Tree.size] at fits
    omega
  simp only [cleanup, Tree.weight, Bool.true_eq_false, if_false, Tree.size, large, down, here]

-- One fix, and cleanup starts again.
theorem Cleans.again {c : List (Frame K V)} {t root : Tree K V} {k : K} {holds : K × V → Prop}
    (ctx : Ctx degree top h a b c) (inside : In a b k)
    (fixed : ∀ m, cleanup degree k (m + 1) c t = cleanup degree k m [] root)
    (rest : Cleans degree k root holds) :
    Cleans degree k (plug c t) holds := by
  obtain ⟨n, result, top', cleans, strict, same⟩ := rest
  refine ⟨n + 1 + c.length, result, top', fun fuel enough => ?_, strict, same⟩
  obtain ⟨m, rfl⟩ : ∃ m, fuel = m + 1 + c.length := ⟨fuel - 1 - c.length, by omega⟩
  rw [cleanup_plug ctx inside (m + 1), fixed m]
  exact cleans m (by omega)

theorem Cleans.congr {root : Tree K V} {k : K} {one two : K × V → Prop}
    (cleans : Cleans degree k root one) (same : ∀ x, one x ↔ two x) : Cleans degree k root two := by
  obtain ⟨n, result, top', runs, strict, holds⟩ := cleans
  exact ⟨n, result, top', runs, strict, fun x => (holds x).trans (same x)⟩

theorem low_half (least : 4 ≤ degree) : 2 * low degree ≤ degree := by
  unfold low
  omega

-- A new node over two halves, at the root or below it.
theorem pair_cleans (least : 4 ≤ degree) {c : List (Frame K V)} {halves : Tree K V × K × Tree K V}
    {xs : List (K × V)} {k : K} (ctx : Ctx degree top h a b c)
    (good : Halves degree h a b halves xs) (inside : In a b k) :
    Cleans degree k (plug c (pair c halves)) fun x => x ∈ xs ∨ x ∈ outside h c := by
  induction c generalizing h a b halves xs with
  | nil =>
      obtain ⟨rfl, rfl, rfl⟩ := ctx
      have strict : Strict degree (h + 1) (pair [] halves) :=
        ⟨⟨rfl, by simp; omega, good.span⟩, fun _ => le_rfl⟩
      refine (strict.cleans k).congr fun x => ?_
      simp only [pair, contents, List.flatMap_cons, List.flatMap_nil, List.append_nil,
        List.mem_append, outside, List.not_mem_nil,
        or_false]
      exact good.holds x
  | cons f c ih =>
      obtain ⟨lo, hi, ks, ls, rs, around, weight, less, enough, rest⟩ := id ctx
      have keys : f.keys.take f.before.length ++ [halves.2.1] ++ f.keys.drop f.before.length =
        ks ++ [halves.2.1] ++ ls := by
        rw [around.keys, ← around.length, List.take_left, List.drop_left]
      have span := around.span good.span
      set ptrs := f.before ++ [halves.1, halves.2.2] ++ f.after with ptrs_def
      have length : ptrs.length = f.size + 1 := by
        simp [ptrs_def, Frame.size]
        omega
      have size : f.size + 2 - 1 = ptrs.length := by omega
      have all (x : K × V) : (x ∈ ptrs.flatMap (contents h) ∨ x ∈ outside (h + 1) c) ↔
        (x ∈ xs ∨ x ∈ outside h (f :: c)) := by
        rw [← good.holds x]
        simp only [ptrs_def, outside, List.flatMap_append, List.flatMap_cons, List.flatMap_nil,
          List.append_nil, List.mem_append]
        tauto
      have least' : 2 ≤ low degree := le_max_right ..
      have half := low_half least
      by_cases fit : f.size + 2 - 1 ≤ degree
      · -- Absorb
        have fixed (m : Nat) : cleanup degree k (m + 1) (f :: c) (pair (f :: c) halves) =
            cleanup degree k m [] (plug c (.node true (ks ++ [halves.2.1] ++ ls) ptrs)) := by
          have made : fixTag degree (f :: c) (pair (f :: c) halves) =
            some (plug c (.node true (ks ++ [halves.2.1] ++ ls) ptrs)) := by
            simp only [fixTag, pair, List.length_cons, List.length_nil, fit, if_true, keys,
              ptrs_def]
          have tagged : (pair (f :: c) halves).weight = false := rfl
          simp only [cleanup, tagged, if_true, made]
        have strict : Strict degree top (plug c (.node true (ks ++ [halves.2.1] ++ ls) ptrs)) := by
          refine rest.strict ⟨rfl, by omega, span⟩ ?_
          unfold Fits
          simp only [Tree.size]
          split
          · rename_i empty
            rw [if_pos empty] at enough
            exact fun _ => by omega
          · rename_i more
            rw [if_neg more] at enough
            omega
        refine (Cleans.again ctx inside fixed (strict.cleans k)).congr fun x => ?_
        rw [mem_plug rest]
        exact all x
      · -- Split
        obtain ⟨next, made, good'⟩ := split_node span (by omega) (by omega)
        have fixed (m : Nat) : cleanup degree k (m + 1) (f :: c) (pair (f :: c) halves) =
            cleanup degree k m [] (plug c (pair c next)) := by
          have made : fixTag degree (f :: c) (pair (f :: c) halves) =
            some (plug c (pair c next)) := by
            simp only [fixTag, pair, List.length_cons, List.length_nil, fit, if_false, keys]
            rw [← ptrs_def, made]
            rfl
          have tagged : (pair (f :: c) halves).weight = false := rfl
          simp only [cleanup, tagged, if_true, made]
        exact (Cleans.again ctx inside fixed (ih rest good' (around.mono inside))).congr all

/-! Underfull nodes. -/

-- The node and its sibling as neighbours between `m` and `n`.
structure Neighbours (degree h : Nat) (lo hi m n : Option K) (x : K) (f : Frame K V)
    (t beside : Tree K V)
    (before : List (Tree K V)) (left right : Tree K V) (after : List (Tree K V)) (ks ls : List K)
    (rs : List (Option K)) : Prop where
  siblings : siblings f t = some (before, left, right, after)
  sibling : sibling f = some beside
  keys : f.keys = ks ++ x :: ls
  around : Around (Full degree h) lo hi m n (ks ++ ls) before after ks ls rs
  leftOk : Ok degree h m (some x) left
  rightOk : Ok degree h (some x) n right
  below : Lt m (some x)
  above : Lt (some x) n
  full : low degree ≤ beside.size
  weight : beside.weight = true
  sizes : left.size + right.size = t.size + beside.size
  among : t = left ∨ t = right
  holds : ∀ z, (z ∈ before.flatMap (contents h) ∨ z ∈ contents h left ∨ z ∈ contents h right ∨
    z ∈ after.flatMap (contents h)) ↔
    z ∈ contents h t ∨ z ∈ f.before.flatMap (contents h) ∨ z ∈ f.after.flatMap (contents h)
  size : f.size = before.length + 2 + after.length

theorem Ok.weight {t : Tree K V} (ok : Ok degree h a b t) : t.weight = true := by
  cases h with
  | zero =>
      cases t with
      | leaf searchKey size slots => rfl
      | node weight keys kids => exact ok.elim
  | succ h =>
      cases t with
      | leaf searchKey size slots => exact ok.elim
      | node weight keys kids => exact ok.1

theorem Lt.join {x : K} (low : Lt a (some x)) (high : Lt (some x) b) : Lt a b :=
  fun y one z two => (low y one x rfl).trans (high x rfl z two)

theorem neighbours {lo hi : Option K} {f : Frame K V} {t : Tree K V} {ks ls : List K}
    {rs : List (Option K)}
    (around : Around (Full degree h) lo hi a b f.keys f.before f.after ks ls rs)
    (ok : Ok degree h a b t) (two : 2 ≤ f.size) :
    ∃ m n x beside before left right after ks ls rs,
      Neighbours degree h lo hi m n x f t beside before left right after ks ls rs := by
  rcases List.eq_nil_or_concat f.before with none_ | ⟨before, beside, some_⟩
  · -- the sibling is on the right
    have first : ks = [] := by
      have length := around.length
      rw [none_] at length
      exact List.length_eq_zero_iff.mp length
    subst first
    have same : lo = a := by
      have span := around.before
      rw [none_] at span
      exact span
    subst same
    cases behind : f.after with
    | nil =>
        simp [Frame.size, none_, behind] at two
    | cons beside after =>
        have span := around.after
        rw [behind] at span
        cases ls with
        | nil =>
            cases around.ends
            exact span.elim
        | cons x ls =>
            cases around.ends
            cases rest : ends ls hi with
            | nil => simp [ends] at rest
            | cons n rs =>
                have span : Span (Full degree h) (some x) (ends ls hi) (beside :: after) hi := span
                rw [rest] at span
                obtain ⟨order, full, tail⟩ := span
                have keys : f.keys = x :: ls := around.keys
                refine ⟨lo, n, x, beside, [], t, beside, after, [], ls, rs, ?_, ?_, keys,
                  ⟨rfl, rest, rfl, tail, around.order.join order⟩, ok, full.1,
                  around.order, order, full.2, full.1.weight, rfl, .inl rfl, ?_, ?_⟩
                · simp [siblings, none_, behind]
                · simp [sibling, none_, behind]
                · intro z
                  simp only [none_, behind, List.flatMap_nil, List.not_mem_nil, false_or,
                    List.flatMap_cons, List.mem_append]
                · simp [Frame.size, none_, behind]
                  omega
  · -- the sibling is on the left
    have list : f.before = before ++ [beside] := by rw [some_, List.concat_eq_append]
    have span := around.before
    rw [list] at span
    have length : ks.length = before.length + 1 := by
      rw [around.length, list]
      simp
    rcases List.eq_nil_or_concat ks with nil_ | ⟨ks, x, concat⟩
    · rw [nil_] at length
      simp at length
    · rw [List.concat_eq_append] at concat
      subst concat
      have same : (ks.map some).length = before.length := by
        simp at length ⊢
        exact length
      rw [List.map_append, List.map_singleton] at span
      obtain ⟨m, one, order, full, stop⟩ := (span_append same).mp span
      have stop : some x = a := stop
      subst stop
      have keys : f.keys = ks ++ x :: ls := by
        rw [around.keys]
        simp
      refine ⟨m, b, x, beside, before, beside, t, f.after, ks, ls, rs, ?_, ?_, keys,
        ⟨rfl, around.ends, one, around.after, order.join around.order⟩,
        full.1, ok, order, around.order, full.2, full.1.weight, Nat.add_comm .., .inr rfl, ?_, ?_⟩
      · simp [siblings, list]
      · simp [sibling, list]
      · intro z
        simp only [list, List.flatMap_append, List.flatMap_cons, List.flatMap_nil, List.append_nil,
          List.mem_append]
        tauto
      · simp [Frame.size, list]

/-! Two neighbours with a key between them. -/

section Both

variable {m n : Option K} {x : K}

theorem In.of_left (high : Lt (some x) n) {z : K} (inside : In m (some x) z) : In m n z :=
  ⟨inside.left, fun y bound => (inside.right x rfl).trans (high x rfl y bound)⟩

theorem In.of_right (low : Lt m (some x)) {z : K} (inside : In (some x) n z) : In m n z :=
  ⟨fun y bound => (low y bound x rfl).le.trans (inside.left x rfl), inside.right⟩

variable {leftKey rightKey : K} {leftSize rightSize : Nat} {xs ys : List (Option (K × V))}

theorem LeafOk.both_once (one : LeafOk degree m (some x) leftKey leftSize xs)
    (two : LeafOk degree (some x) n rightKey rightSize ys) :
    ((pairs xs ++ pairs ys).map Prod.fst).Nodup := by
  rw [List.map_append]
  refine List.nodup_append.mpr ⟨one.once, two.once, ?_⟩
  rintro y first z second rfl
  obtain ⟨u, member, rfl⟩ := List.mem_map.mp first
  obtain ⟨v, member', same⟩ := List.mem_map.mp second
  have small := (one.inside u member).right x rfl
  have large := (two.inside v member').left x rfl
  rw [same] at large
  exact absurd small (not_lt.mpr large)

theorem LeafOk.both_inside (one : LeafOk degree m (some x) leftKey leftSize xs)
    (two : LeafOk degree (some x) n rightKey rightSize ys) (low : Lt m (some x))
    (high : Lt (some x) n) : ∀ z ∈ pairs xs ++ pairs ys, In m n z.1 := by
  intro z member
  rcases List.mem_append.mp member with member | member
  · exact (one.inside z member).of_left high
  · exact (two.inside z member).of_right low

theorem Span.both {P : Option K → Option K → Tree K V → Prop} {keys keys' : List K}
    {ts us : List (Tree K V)} (one : Span P m (ends keys (some x)) ts (some x))
    (two : Span P (some x) (ends keys' n) us n) :
    Span P m (ends (keys ++ x :: keys') n) (ts ++ us) n := by
  have list : ends (keys ++ x :: keys') n = ends keys (some x) ++ ends keys' n := by simp [ends]
  rw [list]
  exact (span_append one.length).mpr ⟨some x, one, two⟩

end Both

theorem merge_ok {m n : Option K} {x : K} {t left right : Tree K V}
    (one : Ok degree h m (some x) left) (two : Ok degree h (some x) n right) (low : Lt m (some x))
    (high : Lt (some x) n) (among : t = left ∨ t = right) (less : left.size + right.size ≤ degree) :
    ∃ new, mergeNodes degree t x left right = some new ∧ Ok degree h m n new ∧ new.size =
      left.size + right.size ∧
      ∀ z, z ∈ contents h new ↔ z ∈ contents h left ∨ z ∈ contents h right := by
  cases h with
  | zero =>
      cases left with
      | node weight keys kids => exact one.elim
      | leaf leftKey leftSize xs =>
          cases right with
          | node weight keys kids => exact two.elim
          | leaf rightKey rightSize ys =>
              have one : LeafOk degree m (some x) leftKey leftSize xs := one
              have two : LeafOk degree (some x) n rightKey rightSize ys := two
              obtain ⟨key, inside, made⟩ : ∃ key, In m n key ∧
                mergeNodes degree t x (.leaf leftKey leftSize xs) (.leaf rightKey rightSize ys) =
                  some (external degree key (leftSize + rightSize) (pairs xs ++ pairs ys)) := by
                rcases among with rfl | rfl
                · exact ⟨leftKey, one.searchKey.of_left high, rfl⟩
                · exact ⟨rightKey, two.searchKey.of_right low, rfl⟩
              refine ⟨_, made, external_ok ?_ less (one.both_once two)
                (one.both_inside two low high) inside, rfl, ?_⟩
              · rw [List.length_append, one.size, two.size]
              · intro z
                rw [contents_external, List.mem_append]
                rfl
  | succ h =>
      cases left with
      | leaf searchKey size slots => exact one.elim
      | node weight keys kids =>
          cases right with
          | leaf searchKey size slots => exact two.elim
          | node weight' keys' kids' =>
              refine ⟨_, rfl, ⟨rfl, ?_, ?_⟩, ?_, ?_⟩
              · rw [List.length_append]
                exact less
              · exact one.2.2.both two.2.2
              · simp [Tree.size]
              · intro z
                simp only [contents, List.flatMap_append, List.mem_append]

theorem distribute_ok (least : 4 ≤ degree) {m n : Option K} {x : K} {left right : Tree K V}
    (one : Ok degree h m (some x) left) (two : Ok degree h (some x) n right) (low : Lt m (some x))
    (high : Lt (some x) n) (enough : 2 * AbTree.low degree ≤ left.size + right.size)
    (less : left.size + right.size ≤ AbTree.low degree + degree) :
    ∃ halves, distribute degree x left right = some halves ∧
      ∃ xs, Halves degree h m n halves xs ∧ ∀ z, z ∈ xs ↔ z ∈ contents h left ∨
        z ∈ contents h right := by
  have half := low_half least
  have bound : left.size + right.size - (left.size + right.size) / 2 ≤ degree := by omega
  cases h with
  | zero =>
      cases left with
      | node weight keys kids => exact one.elim
      | leaf leftKey leftSize xs =>
          cases right with
          | node weight keys kids => exact two.elim
          | leaf rightKey rightSize ys =>
              have one : LeafOk degree m (some x) leftKey leftSize xs := one
              have two : LeafOk degree (some x) n rightKey rightSize ys := two
              have inside : ∀ z ∈ sorted (pairs xs ++ pairs ys), In m n z.1 :=
                fun z member => one.both_inside two low high z ((sorted_perm _).mem_iff.mp member)
              have length : (sorted (pairs xs ++ pairs ys)).length =
                (leftSize + rightSize) / 2 +
                  (leftSize + rightSize - (leftSize + rightSize) / 2) := by
                rw [(sorted_perm _).length_eq, List.length_append, ← one.size, ← two.size]
                omega
              simp only [Tree.size] at enough less bound
              obtain ⟨halves, made, good, _⟩ :=
                split_leaf _ _ (sorted_strict (one.both_once two)) inside length (by omega)
                (by omega) (by omega) bound
              refine ⟨halves, made, _, good, fun z => ?_⟩
              rw [(sorted_perm _).mem_iff, List.mem_append]
              rfl
  | succ h =>
      cases left with
      | leaf searchKey size slots => exact one.elim
      | node weight keys kids =>
          cases right with
          | leaf searchKey size slots => exact two.elim
          | node weight' keys' kids' =>
              have span : Span (Full degree h) m (ends (keys ++ x :: keys') n) (kids ++ kids') n :=
                one.2.2.both two.2.2
              simp only [Tree.size] at enough less bound
              obtain ⟨halves, made, good⟩ :=
                split_node span (by rw [List.length_append]; exact enough)
                (by rw [List.length_append]; exact bound)
              refine ⟨halves, made, _, good, fun z => ?_⟩
              simp only [contents, List.flatMap_append, List.mem_append]

theorem Ok.size_le {t : Tree K V} (ok : Ok degree h a b t) : t.size ≤ degree := by
  cases h with
  | zero =>
      cases t with
      | leaf searchKey size slots =>
          have ok : LeafOk degree a b searchKey size slots := ok
          show size ≤ degree
          rw [ok.size, ← ok.length]
          exact List.length_filterMap_le _ _
      | node weight keys kids => exact ok.elim
  | succ h =>
      cases t with
      | leaf searchKey size slots => exact ok.elim
      | node weight keys kids => exact ok.2.1

omit [LinearOrder K] in
theorem list_middle {ks ls : List K} {x : K} {n : Nat} (length : ks.length = n) (p : K) :
    (ks ++ x :: ls)[n]? = some x ∧
    (ks ++ x :: ls).eraseIdx n = ks ++ ls ∧ (ks ++ x :: ls).set n p = ks ++ p :: ls := by
  subst length
  refine ⟨by simp, ?_, by simp⟩
  rw [List.eraseIdx_append_of_length_le le_rfl]
  simp

/-- After a fix the tree is strict, or the parent is underfull. -/
def Fixed (degree top h : Nat) (k : K) (c : List (Frame K V)) (root : Tree K V)
    (holds : K × V → Prop) : Prop :=
  (∃ top', Strict degree top' root ∧ ∀ z, z ∈ contents top' root ↔ holds z) ∨
    ∃ lo hi parent, root = plug c parent ∧ c.isEmpty = false ∧ Ctx degree top (h + 1) lo hi c ∧
      Ok degree (h + 1) lo hi parent ∧
      parent.size + 1 = low degree ∧ In lo hi k ∧
        ∀ z, (z ∈ contents (h + 1) parent ∨ z ∈ outside (h + 1) c) ↔ holds z

theorem parent_fixed {lo hi : Option K} {c : List (Frame K V)} {parent : Tree K V} {k : K}
    {holds : K × V → Prop} (rest : Ctx degree top (h + 1) lo hi c) (inside : In lo hi k)
    (ok : Ok degree (h + 1) lo hi parent) (root : c.isEmpty = true → 2 ≤ parent.size)
    (below : c.isEmpty = false → low degree ≤ parent.size + 1)
    (same : ∀ z, (z ∈ contents (h + 1) parent ∨ z ∈ outside (h + 1) c) ↔ holds z) :
    Fixed degree top h k c (plug c parent) holds := by
  have strict (fits : Fits degree (h + 1) c parent) :
    Fixed degree top h k c (plug c parent) holds :=
    .inl ⟨top, rest.strict ok fits, fun z => (mem_plug rest z).trans (same z)⟩
  cases empty : c.isEmpty with
  | true =>
      refine strict ?_
      unfold Fits
      rw [if_pos empty]
      exact fun _ => root empty
  | false =>
      have enough := below empty
      by_cases full : low degree ≤ parent.size
      · refine strict ?_
        unfold Fits
        rw [if_neg (by simp [empty])]
        exact full
      · exact .inr ⟨lo, hi, parent, rfl, empty, rest, ok, by omega, inside, same⟩

section Step

variable {lo hi m n : Option K} {x : K} {f : Frame K V} {c : List (Frame K V)}
    {t beside left right : Tree K V}
  {before after : List (Tree K V)} {ks ls : List K} {rs : List (Option K)} {k : K}
  (near : Neighbours degree h lo hi m n x f t beside before left right after ks ls rs)

include near

theorem Neighbours.new_holds (new : List (Tree K V))
    (same : ∀ z, z ∈ new.flatMap (contents h) ↔ z ∈ contents h left ∨ z ∈ contents h right)
    (z : K × V) : (z ∈ (before ++ (new ++ after)).flatMap (contents h) ∨ z ∈ outside (h + 1) c) ↔
      z ∈ contents h t ∨ z ∈ outside h (f :: c) := by
  have all := near.holds z
  simp only [outside, List.flatMap_append, List.mem_append, same]
  rw [← or_assoc (a := z ∈ contents h t), ← all]
  simp only [or_assoc]

theorem Neighbours.pivot (p : K) :
    f.keys[before.length]? = some x ∧ f.keys.eraseIdx before.length = ks ++ ls ∧
    f.keys.set before.length p = ks ++ p :: ls := by
  rw [near.keys]
  exact list_middle near.around.length p

theorem Neighbours.beside_le : beside.size ≤ degree := by
  have leftLess := near.leftOk.size_le
  have rightLess := near.rightOk.size_le
  have sizes := near.sizes
  rcases near.among with same | same <;> rw [same] at sizes <;> omega

theorem Neighbours.absorb (least : 4 ≤ degree) (rest : Ctx degree top (h + 1) lo hi c)
    (inside : In lo hi k) (size : t.size + 1 = low degree)
    (enough : (if c.isEmpty then 2 else low degree) ≤ f.size) (less : f.size ≤ degree)
    (small : left.size + right.size < 2 * low degree) :
    ∃ root, fixUnderfull degree (f :: c) t = some root ∧
      Fixed degree top h k c root fun z => z ∈ contents h t ∨ z ∈ outside h (f :: c) := by
  have least' : 2 ≤ low degree := le_max_right ..
  have half := low_half least
  have full := near.full
  have sizes := near.sizes
  have fsize := near.size
  have place := near.around
  obtain ⟨found, erased, _⟩ := near.pivot x
  obtain ⟨new, merged, newOk, newSize, newHolds⟩ :=
    merge_ok near.leftOk near.rightOk near.below near.above near.among (by omega)
  by_cases root : c = [] ∧ f.size = 2
  · -- RootAbsorb: the two siblings are all there is
    obtain ⟨rfl, both⟩ := root
    obtain ⟨rfl, rfl, rfl⟩ := rest
    have nothing : before = [] ∧ after = [] := by
      constructor <;> apply List.length_eq_zero_iff.mp <;> omega
    have fixed : fixUnderfull degree [f] t = some new := by
      simp [fixUnderfull, near.siblings, near.sibling, found, near.weight, small, merged, both,
        plug]
    have same (z : K × V) := near.new_holds (c := []) [new] (by simpa using newHolds) z
    obtain ⟨rfl, rfl⟩ := nothing
    have first : m = none := by
      have nil_ : ks = [] := List.length_eq_zero_iff.mp place.length
      subst nil_
      exact Eq.symm place.before
    have last : n = none := by
      have span := place.after
      cases rs with
      | nil => exact span
      | cons r rs => exact span.elim
    subst first last
    refine ⟨new, fixed, .inl ⟨h, ⟨newOk, fun _ => by omega⟩, fun z => ?_⟩⟩
    refine Iff.trans ?_ (same z)
    simp [outside]
  · have fixed : fixUnderfull degree (f :: c) t =
      some (plug c (.node true (ks ++ ls) (before ++ new :: after))) := by
      simp [fixUnderfull, near.siblings, near.sibling, found, erased, near.weight, small, merged,
        root]
    have psize : (Tree.node true (ks ++ ls) (before ++ new :: after)).size + 1 = f.size := by
      simp only [Tree.size, List.length_append, List.length_cons]
      omega
    refine ⟨_, fixed, parent_fixed rest inside ⟨rfl, ?_, place.fill ⟨newOk, by omega⟩⟩ ?_ ?_ ?_⟩
    · simp only [Tree.size] at psize
      omega
    · intro empty
      rw [if_pos empty] at enough
      have apart : f.size ≠ 2 := fun equal => root ⟨List.isEmpty_iff.mp empty, equal⟩
      omega
    · intro more
      rw [if_neg (by simp [more])] at enough
      omega
    · exact near.new_holds [new] (by simpa using newHolds)

theorem Neighbours.distribute (least : 4 ≤ degree) (rest : Ctx degree top (h + 1) lo hi c)
    (inside : In lo hi k) (size : t.size + 1 = low degree)
    (enough : (if c.isEmpty then 2 else low degree) ≤ f.size) (less : f.size ≤ degree)
    (weight : f.weight = true) (small : ¬ left.size + right.size < 2 * low degree) :
    ∃ root, fixUnderfull degree (f :: c) t = some root ∧
      Fixed degree top h k c root fun z => z ∈ contents h t ∨ z ∈ outside h (f :: c) := by
  have sizes := near.sizes
  have fsize := near.size
  have other := near.beside_le
  obtain ⟨halves, made, xs, good, goodHolds⟩ :=
    distribute_ok least near.leftOk near.rightOk near.below near.above (by omega) (by omega)
  obtain ⟨found, _, set_⟩ := near.pivot halves.2.1
  have span : Span (Full degree h) lo (ends (ks ++ halves.2.1 :: ls) hi)
    (before ++ halves.1 :: halves.2.2 :: after) hi := by
    simpa using near.around.span good.span
  have fixed : fixUnderfull degree (f :: c) t =
      some (plug c (.node true (ks ++ halves.2.1 :: ls)
        (before ++ halves.1 :: halves.2.2 :: after))) := by
    simp [fixUnderfull, near.siblings, near.sibling, found, set_, near.weight, small, made, weight]
  have psize : (Tree.node true (ks ++ halves.2.1 :: ls)
    (before ++ halves.1 :: halves.2.2 :: after)).size = f.size := by
    simp only [Tree.size, List.length_append, List.length_cons]
    omega
  refine ⟨_, fixed, parent_fixed rest inside ⟨rfl, ?_, span⟩ ?_ ?_ ?_⟩
  · simp only [Tree.size] at psize
    omega
  · intro empty
    rw [if_pos empty] at enough
    omega
  · intro more
    rw [if_neg (by simp [more])] at enough
    omega
  · refine near.new_holds [halves.1, halves.2.2] fun z => ?_
    have one := good.holds z
    have two := goodHolds z
    simp only [List.flatMap_cons, List.flatMap_nil, List.append_nil, List.mem_append]
    rw [one, two]

end Step

theorem underfull_step (least : 4 ≤ degree) {f : Frame K V} {c : List (Frame K V)} {t : Tree K V}
    {k : K} (ctx : Ctx degree top h a b (f :: c)) (ok : Ok degree h a b t)
    (size : t.size + 1 = low degree) (inside : In a b k) :
    ∃ root, (∀ m, cleanup degree k (m + 1) (f :: c) t = cleanup degree k m [] root) ∧
      Fixed degree top h k c root fun z => z ∈ contents h t ∨ z ∈ outside h (f :: c) := by
  obtain ⟨lo, hi, ks₀, ls₀, rs₀, around, weight, less, enough, rest⟩ := ctx
  have least' : 2 ≤ low degree := le_max_right ..
  have two : 2 ≤ f.size := by
    split at enough <;> omega
  obtain ⟨m, n, x, beside, before, left, right, after, ks, ls, rs, near⟩ := neighbours around ok two
  have within := around.mono inside
  have violates : t.size < low degree ∧ (f :: c).isEmpty = false := ⟨by omega, rfl⟩
  obtain ⟨root, fixed, result⟩ : ∃ root, fixUnderfull degree (f :: c) t = some root ∧
      Fixed degree top h k c root fun z => z ∈ contents h t ∨ z ∈ outside h (f :: c) := by
    by_cases small : left.size + right.size < 2 * low degree
    · exact near.absorb least rest within size enough less small
    · exact near.distribute least rest within size enough less weight small
  refine ⟨root, fun fuel => ?_, result⟩
  simp only [cleanup, ok.weight, Bool.true_eq_false, if_false, violates, and_self, if_true, fixed]

theorem underfull_cleans (least : 4 ≤ degree) {f : Frame K V} {c : List (Frame K V)}
    {t : Tree K V} {k : K} (ctx : Ctx degree top h a b (f :: c)) (ok : Ok degree h a b t)
    (size : t.size + 1 = low degree) (inside : In a b k) :
    Cleans degree k (plug (f :: c) t) fun z => z ∈ contents h t ∨ z ∈ outside h (f :: c) := by
  induction c generalizing f h a b t with
  | nil =>
      obtain ⟨root, fixed, ⟨top', strict, same⟩ | ⟨_, _, _, _, more, _⟩⟩ :=
        underfull_step least ctx ok size inside
      · exact (Cleans.again ctx inside fixed (strict.cleans k)).congr same
      · cases more
  | cons g c ih =>
      obtain ⟨root, fixed, ⟨top', strict, same⟩ | ⟨lo, hi, parent, rfl, _, rest, pok, psize, within,
        same⟩⟩ :=
        underfull_step least ctx ok size inside
      · exact (Cleans.again ctx inside fixed (strict.cleans k)).congr same
      · exact (Cleans.again ctx inside fixed (ih rest pok psize within)).congr same

end SetBench.AbTree
