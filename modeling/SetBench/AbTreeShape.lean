import SetBench.AbTree

/-! Strict (a,b)-trees, and trees with a hole in them. -/
namespace SetBench.AbTree

variable {K V : Type} [LinearOrder K] {degree : Nat}

/-! Bounds: `none` is minus infinity on the left and plus infinity on the right. -/

def Lt (a b : Option K) : Prop := ∀ x ∈ a, ∀ y ∈ b, x < y

structure In (a b : Option K) (k : K) : Prop where
  left : ∀ x ∈ a, x ≤ k
  right : ∀ y ∈ b, k < y

/-- Trees side by side between bounds; `rs` are their right ends. -/
def Span (P : Option K → Option K → Tree K V → Prop) :
    Option K → List (Option K) → List (Tree K V) → Option K → Prop
  | a, [], [], b => a = b
  | a, r :: rs, t :: ts, b => Lt a r ∧ P a r t ∧ Span P r rs ts b
  | _, _, _, _ => False

-- The right ends of the children of a node.
def ends (keys : List K) (b : Option K) : List (Option K) := keys.map some ++ [b]

structure LeafOk (degree : Nat) (lo hi : Option K) (searchKey : K) (size : Nat)
    (slots : List (Option (K × V))) : Prop where
  length : slots.length = degree
  size : size = (pairs slots).length
  once : ((pairs slots).map Prod.fst).Nodup
  inside : ∀ x ∈ pairs slots, In lo hi x.1
  searchKey : In lo hi searchKey

/-- A tree of one height whose nodes have weight and, below its root, enough children. -/
def Ok (degree : Nat) : Nat → Option K → Option K → Tree K V → Prop
  | 0, lo, hi, .leaf searchKey size slots => LeafOk degree lo hi searchKey size slots
  | h + 1, lo, hi, .node weight keys kids => weight = true ∧ kids.length ≤ degree ∧
      Span (fun a b t => Ok degree h a b t ∧ low degree ≤ t.size) lo (ends keys hi) kids hi
  | _, _, _, _ => False

-- A subtree below another node.
def Full (degree h : Nat) (a b : Option K) (t : Tree K V) : Prop :=
  Ok degree h a b t ∧ low degree ≤ t.size

/-- A strict (a,b)-tree. -/
structure Strict (degree h : Nat) (t : Tree K V) : Prop where
  ok : Ok degree h none none t
  root : h ≠ 0 → 2 ≤ t.size

def contents : Nat → Tree K V → List (K × V)
  | 0, .leaf _ _ slots => pairs slots
  | h + 1, .node _ _ kids => kids.flatMap (contents h)
  | _, _ => []

section Span

variable {P : Option K → Option K → Tree K V → Prop} {a b : Option K} {rs qs : List (Option K)}
    {ts us : List (Tree K V)}

theorem span_append (same : rs.length = ts.length) :
    Span P a (rs ++ qs) (ts ++ us) b ↔ ∃ m, Span P a rs ts m ∧ Span P m qs us b := by
  induction rs generalizing a ts with
  | nil =>
      cases ts with
      | nil =>
          constructor
          · exact fun span => ⟨a, rfl, span⟩
          · rintro ⟨m, rfl, span⟩
            exact span
      | cons t ts => cases same
  | cons r rs ih =>
      cases ts with
      | nil => cases same
      | cons t ts =>
          have same : rs.length = ts.length := Nat.succ.inj same
          simp only [List.cons_append, Span, ih same]
          constructor
          · rintro ⟨order, here, m, one, two⟩
            exact ⟨m, ⟨order, here, one⟩, two⟩
          · rintro ⟨m, ⟨order, here, one⟩, two⟩
            exact ⟨order, here, m, one, two⟩

theorem Span.length (span : Span P a rs ts b) : rs.length = ts.length := by
  induction rs generalizing a ts with
  | nil =>
      cases ts with
      | nil => rfl
      | cons t ts => exact span.elim
  | cons r rs ih =>
      cases ts with
      | nil => exact span.elim
      | cons t ts => exact congrArg Nat.succ (ih span.2.2)

theorem Span.imp {Q : Option K → Option K → Tree K V → Prop} (span : Span P a rs ts b)
    (imp : ∀ a b t, P a b t → Q a b t) :
    Span Q a rs ts b := by
  induction rs generalizing a ts with
  | nil =>
      cases ts with
      | nil => exact span
      | cons t ts => exact span.elim
  | cons r rs ih =>
      cases ts with
      | nil => exact span.elim
      | cons t ts => exact ⟨span.1, imp _ _ _ span.2.1, ih span.2.2⟩

-- Everything to the left of a key at the end of a span.
theorem Span.below {ks : List K} (span : Span P a (ks.map some) ts b) {k : K}
    (above : ∀ y ∈ b, y ≤ k) :
    (∀ x ∈ a, x ≤ k) ∧ ∀ x ∈ ks, x ≤ k := by
  induction ks generalizing a ts with
  | nil =>
      cases ts with
      | nil =>
          cases span
          exact ⟨above, nofun⟩
      | cons t ts => exact span.elim
  | cons y ks ih =>
      cases ts with
      | nil => exact span.elim
      | cons t ts =>
          obtain ⟨order, _, rest⟩ := span
          obtain ⟨first, others⟩ := ih rest
          have here : y ≤ k := first y rfl
          refine ⟨fun x member => (order x member y rfl).le.trans here, fun x member => ?_⟩
          rcases List.mem_cons.mp member with rfl | member
          · exact here
          · exact others x member

theorem Span.above {ks : List K} {y : K} (span : Span P (some y) (ends ks b) ts b) :
    ∀ z ∈ b, y < z := by
  induction ks generalizing y ts with
  | nil =>
      cases ts with
      | nil => exact span.elim
      | cons t ts => exact fun z member => span.1 y rfl z member
  | cons x ks ih =>
      cases ts with
      | nil => exact span.elim
      | cons t ts =>
          obtain ⟨order, _, rest⟩ := span
          exact fun z member => (order y rfl x rfl).trans (ih rest z member)

end Span

/-! The place of a child. -/

/-- The children of a node around one of them: left of it the keys `ks`, right of it the
ends `rs`. -/
structure Around (P : Option K → Option K → Tree K V → Prop) (lo hi a b : Option K) (keys : List K)
    (before after : List (Tree K V))
    (ks ls : List K) (rs : List (Option K)) : Prop where
  keys : keys = ks ++ ls
  ends : ends ls hi = b :: rs
  before : Span P lo (ks.map some) before a
  after : Span P b rs after hi
  order : Lt a b

section Around

variable {P : Option K → Option K → Tree K V → Prop} {lo hi a b : Option K} {keys ks ls : List K}
    {before after : List (Tree K V)}
  {rs : List (Option K)}

theorem Around.length (around : Around P lo hi a b keys before after ks ls rs) :
    ks.length = before.length := by
  have length := around.before.length
  simpa using length

theorem Around.span (around : Around P lo hi a b keys before after ks ls rs)
    {mid : List (Tree K V)} {qs : List K} (inner : Span P a (AbTree.ends qs b) mid b) :
    Span P lo (AbTree.ends (ks ++ qs ++ ls) hi) (before ++ mid ++ after) hi := by
  have list : AbTree.ends (ks ++ qs ++ ls) hi = ks.map some ++ (AbTree.ends qs b ++ rs) := by
    have parts : AbTree.ends (ks ++ qs ++ ls) hi =
      ks.map some ++ (qs.map some ++ AbTree.ends ls hi) := by
      simp [AbTree.ends]
    rw [parts, around.ends]
    simp [AbTree.ends]
  rw [list, List.append_assoc]
  refine (span_append around.before.length).mpr ⟨a, around.before, ?_⟩
  exact (span_append inner.length).mpr ⟨b, inner, around.after⟩

theorem Around.fill (around : Around P lo hi a b keys before after ks ls rs) {t : Tree K V}
    (here : P a b t) :
    Span P lo (AbTree.ends keys hi) (before ++ t :: after) hi := by
  have inner : Span P a (AbTree.ends [] b) [t] b := ⟨around.order, here, rfl⟩
  have span := around.span inner
  rw [around.keys]
  simpa using span

theorem Around.mono (around : Around P lo hi a b keys before after ks ls rs) {k : K}
    (inside : In a b k) : In lo hi k := by
  refine ⟨(around.before.below inside.left).1, ?_⟩
  cases ls with
  | nil =>
      cases around.ends
      exact inside.right
  | cons y ls =>
      cases around.ends
      exact fun z member => (inside.right y rfl).trans (around.after.above z member)

theorem childIndex_eq (around : Around P lo hi a b keys before after ks ls rs) {k : K}
    (inside : In a b k) :
    childIndex keys k = before.length := by
  have small := (around.before.below inside.left).2
  have stop : ls.takeWhile (fun x => decide (¬ k < x)) = [] := by
    cases ls with
    | nil => rfl
    | cons y ls =>
        cases around.ends
        have less := inside.right y rfl
        simp [less]
  unfold childIndex
  rw [around.keys, List.takeWhile_append_of_pos, stop, List.append_nil]
  · exact around.length
  · intro x member
    simpa using small x member

-- The child in whose interval a key lies.
theorem locate (span : Span P lo (AbTree.ends keys hi) before hi) {k : K} (inside : In lo hi k) :
    ∃ a b ts t us ks ls rs, before = ts ++ t :: us ∧ Around P lo hi a b keys ts us ks ls rs ∧
      P a b t ∧ In a b k := by
  induction keys generalizing lo before with
  | nil =>
      cases before with
      | nil => exact span.elim
      | cons t ts =>
          obtain ⟨order, here, rest⟩ := span
          cases ts with
          | nil =>
              exact ⟨lo, hi, [], t, [], [], [], [], rfl, ⟨rfl, rfl, rfl, rfl, order⟩, here, inside⟩
          | cons u us => exact rest.elim
  | cons x keys ih =>
      cases before with
      | nil => exact span.elim
      | cons t ts =>
          obtain ⟨order, here, rest⟩ := span
          by_cases less : k < x
          · refine ⟨lo, some x, [], t, ts, [], x :: keys, AbTree.ends keys hi, rfl,
              ⟨rfl, rfl, rfl, rest, order⟩, here, inside.left, ?_⟩
            rintro _ ⟨⟩
            exact less
          · have right : In (some x) hi k := by
              refine ⟨?_, inside.right⟩
              rintro _ ⟨⟩
              exact not_lt.mp less
            obtain ⟨a, b, us, u, vs, ks, ls, rs, rfl, around, child, within⟩ := ih rest right
            refine ⟨a, b, t :: us, u, vs, x :: ks, ls, rs, rfl,
              ⟨?_, around.ends, ⟨order, here, around.before⟩, around.after, around.order⟩, child,
              within⟩
            rw [around.keys]
            rfl

end Around

/-! Contexts. -/

/-- The frames around a hole of height `h` between `a` and `b`, in a tree of height `top`. -/
def Ctx (degree top : Nat) : Nat → Option K → Option K → List (Frame K V) → Prop
  | h, a, b, [] => h = top ∧ a = none ∧ b = none
  | h, a, b, f :: c =>
      ∃ lo hi ks ls rs, Around (Full degree h) lo hi a b f.keys f.before f.after ks ls rs ∧
        f.weight = true ∧
      f.size ≤ degree ∧ (if c.isEmpty then 2 else low degree) ≤ f.size ∧
        Ctx degree top (h + 1) lo hi c

-- Enough for the place below the frames.
def Fits (degree h : Nat) (c : List (Frame K V)) (t : Tree K V) : Prop :=
  if c.isEmpty then h ≠ 0 → 2 ≤ t.size else low degree ≤ t.size

omit [LinearOrder K] in
theorem Frame.fill_size (f : Frame K V) (t : Tree K V) : (f.fill t).size = f.size := by
  simp [Frame.fill, Tree.size, Frame.size]
  omega

section Ctx

variable {top h : Nat} {a b : Option K} {c : List (Frame K V)} {t : Tree K V}

theorem Ctx.strict (ctx : Ctx degree top h a b c) (ok : Ok degree h a b t)
    (fits : Fits degree h c t) : Strict degree top (plug c t) := by
  induction c generalizing h a b t with
  | nil =>
      obtain ⟨rfl, rfl, rfl⟩ := ctx
      exact ⟨ok, fits⟩
  | cons f c ih =>
      obtain ⟨lo, hi, ks, ls, rs, around, weight, less, enough, rest⟩ := ctx
      have size := f.fill_size t
      refine ih rest ⟨weight, ?_, around.fill ⟨ok, fits⟩⟩ ?_
      · show (f.before ++ t :: f.after).length ≤ degree
        have length : (f.before ++ t :: f.after).length = f.size := size
        rw [length]
        exact less
      · unfold Fits
        rw [size]
        split
        · rename_i empty
          rw [if_pos empty] at enough
          exact fun _ => enough
        · rename_i more
          rw [if_neg more] at enough
          exact enough

theorem down_fill {f : Frame K V} {lo hi : Option K} {P : Option K → Option K → Tree K V → Prop}
    {ks ls : List K} {rs : List (Option K)}
    (around : Around P lo hi a b f.keys f.before f.after ks ls rs) {k : K} (inside : In a b k) :
    down k (f.fill t) = some (f, t) := by
  unfold Frame.fill down
  simp only [childIndex_eq around inside, List.drop_left, List.take_left]

theorem Ctx.step {f : Frame K V} (ctx : Ctx degree top h a b (f :: c)) {k : K} (inside : In a b k) :
    ∃ lo hi, Ctx degree top (h + 1) lo hi c ∧ In lo hi k ∧ down k (f.fill t) = some (f, t) ∧
      f.weight = true ∧
      (if c.isEmpty then 2 else low degree) ≤ f.size := by
  obtain ⟨lo, hi, ks, ls, rs, around, weight, _, enough, rest⟩ := ctx
  exact ⟨lo, hi, rest, around.mono inside, down_fill around inside, weight, enough⟩

/-- Both loops come from the root to the place of the key. -/
theorem search_plug (ctx : Ctx degree top h a b c) {k : K} (inside : In a b k) (n : Nat) :
    search k (n + c.length) [] (plug c t) = search k n c t := by
  induction c generalizing h a b t n with
  | nil => rfl
  | cons f c ih =>
      obtain ⟨lo, hi, rest, within, goes, _⟩ := ctx.step (t := t) inside
      have shift : n + (f :: c).length = (n + 1) + c.length := by
        rw [List.length_cons]
        omega
      rw [shift]
      refine (ih rest within (n + 1)).trans ?_
      simp only [search, goes]

theorem cleanup_plug (ctx : Ctx degree top h a b c) {k : K} (inside : In a b k) (n : Nat) :
    cleanup degree k (n + c.length) [] (plug c t) = cleanup degree k n c t := by
  induction c generalizing h a b t n with
  | nil => rfl
  | cons f c ih =>
      obtain ⟨lo, hi, rest, within, goes, weight, enough⟩ := ctx.step (t := t) inside
      have shift : n + (f :: c).length = (n + 1) + c.length := by
        rw [List.length_cons]
        omega
      rw [shift]
      refine (ih rest within (n + 1)).trans ?_
      have heavy : (f.fill t).weight = true := weight
      have large : ¬ ((f.fill t).size < low degree ∧ c.isEmpty = false) := by
        rw [f.fill_size t]
        rintro ⟨small, more⟩
        rw [more] at enough
        simp only [Bool.false_eq_true, if_false] at enough
        omega
      simp only [cleanup, heavy, Bool.true_eq_false, if_false, large, goes]

-- From a place of any height to the leaf of a key.
theorem Ctx.leaf (ctx : Ctx degree top h a b c) (ok : Ok degree h a b t)
    (fits : Fits degree h c t) {k : K} (inside : In a b k) :
    ∃ c' a' b' searchKey size slots, Ctx degree top 0 a' b' c' ∧ In a' b' k ∧
      LeafOk degree a' b' searchKey size slots ∧ Fits degree 0 c' (Tree.leaf searchKey size slots) ∧
      plug c' (Tree.leaf searchKey size slots) = plug c t := by
  induction h generalizing a b c t with
  | zero =>
      cases t with
      | leaf searchKey size slots =>
          exact ⟨c, a, b, searchKey, size, slots, ctx, inside, ok, fits, rfl⟩
      | node weight keys kids => exact ok.elim
  | succ h ih =>
      cases t with
      | leaf searchKey size slots => exact ok.elim
      | node weight keys kids =>
          obtain ⟨weight, less, span⟩ := ok
          obtain ⟨a', b', ts, t, us, ks, ls, rs, rfl, around, full, within⟩ := locate span inside
          have size : (⟨true, keys, ts, us⟩ : Frame K V).size = (ts ++ t :: us).length := by
            simp [Frame.size]
            omega
          have inner : Ctx degree top h a' b' (⟨true, keys, ts, us⟩ :: c) := by
            refine ⟨a, b, ks, ls, rs, around, rfl, size ▸ less, ?_, ctx⟩
            rw [size]
            unfold Fits at fits
            split
            · rename_i empty
              rw [if_pos empty] at fits
              exact fits (Nat.succ_ne_zero h)
            · rename_i more
              rw [if_neg more] at fits
              exact fits
          obtain ⟨c', a'', b'', sk, sz, slots, found⟩ := ih inner full.1 full.2 within
          refine ⟨c', a'', b'', sk, sz, slots, found.1, found.2.1, found.2.2.1, found.2.2.2.1, ?_⟩
          rw [found.2.2.2.2, weight]
          rfl

/-! What a tree holds. -/

-- What the frames around a hole of height `h` hold.
def outside : Nat → List (Frame K V) → List (K × V)
  | _, [] => []
  | h, f :: c => f.before.flatMap (contents h) ++ f.after.flatMap (contents h) ++ outside (h + 1) c

theorem mem_plug (ctx : Ctx degree top h a b c) (x : K × V) :
    x ∈ contents top (plug c t) ↔ x ∈ contents h t ∨ x ∈ outside h c := by
  induction c generalizing h a b t with
  | nil =>
      obtain ⟨rfl, _⟩ := ctx
      simp [plug, outside]
  | cons f c ih =>
      obtain ⟨lo, hi, _, _, _, _, _, _, _, rest⟩ := ctx
      rw [plug, ih rest]
      simp only [Frame.fill, contents, outside, List.flatMap_append, List.flatMap_cons,
        List.mem_append]
      tauto

theorem Span.inside {P : Option K → Option K → Tree K V → Prop}
    (each : ∀ a b t, P a b t → ∀ x ∈ contents h t, In a b x.1) {keys : List K}
    {ts : List (Tree K V)} (span : Span P a (ends keys b) ts b) :
    ∀ x ∈ ts.flatMap (contents h), In a b x.1 := by
  induction keys generalizing a ts with
  | nil =>
      cases ts with
      | nil => exact span.elim
      | cons t ts =>
          obtain ⟨_, here, rest⟩ := span
          cases ts with
          | nil =>
              intro x member
              exact each a b t here x (by simpa using member)
          | cons u us => exact rest.elim
  | cons y keys ih =>
      cases ts with
      | nil => exact span.elim
      | cons t ts =>
          obtain ⟨order, here, rest⟩ := span
          intro x member
          rw [List.flatMap_cons, List.mem_append] at member
          rcases member with member | member
          · have within := each a (some y) t here x member
            exact ⟨within.left, fun z bound => (within.right y rfl).trans (rest.above z bound)⟩
          · have within := ih rest x member
            exact ⟨fun z bound => (order z bound y rfl).le.trans (within.left y rfl), within.right⟩

theorem Ok.inside (ok : Ok degree h a b t) : ∀ x ∈ contents h t, In a b x.1 := by
  induction h generalizing a b t with
  | zero =>
      cases t with
      | leaf searchKey size slots => exact LeafOk.inside ok
      | node weight keys kids => exact ok.elim
  | succ h ih =>
      cases t with
      | leaf searchKey size slots => exact ok.elim
      | node weight keys kids => exact ok.2.2.inside fun a b t full => ih full.1

-- The right end of a span of keys.
theorem Span.reaches {P : Option K → Option K → Tree K V → Prop} {y : K} {ks : List K}
    {ts : List (Tree K V)} (span : Span P (some y) (ks.map some) ts b) : ∃ z ∈ b, y ≤ z := by
  induction ks generalizing y ts with
  | nil =>
      cases ts with
      | nil =>
          cases span
          exact ⟨y, rfl, le_rfl⟩
      | cons t ts => exact span.elim
  | cons x ks ih =>
      cases ts with
      | nil => exact span.elim
      | cons t ts =>
          obtain ⟨order, _, rest⟩ := span
          obtain ⟨z, member, less⟩ := ih rest
          exact ⟨z, member, (order y rfl x rfl).le.trans less⟩

theorem Span.left_of {P : Option K → Option K → Tree K V → Prop}
    (each : ∀ a b t, P a b t → ∀ x ∈ contents h t, In a b x.1) {ks : List K}
    {ts : List (Tree K V)} (span : Span P a (ks.map some) ts b) :
    ∀ x ∈ ts.flatMap (contents h), ∃ z ∈ b, x.1 < z := by
  induction ks generalizing a ts with
  | nil =>
      cases ts with
      | nil => exact nofun
      | cons t ts => exact span.elim
  | cons y ks ih =>
      cases ts with
      | nil => exact span.elim
      | cons t ts =>
          obtain ⟨_, here, rest⟩ := span
          intro x member
          rw [List.flatMap_cons, List.mem_append] at member
          rcases member with member | member
          · obtain ⟨z, bound, less⟩ := rest.reaches
            exact ⟨z, bound, ((each a (some y) t here x member).right y rfl).trans_le less⟩
          · exact ih rest x member

theorem Around.out {lo hi : Option K} {keys ks ls : List K} {before after : List (Tree K V)}
    {rs : List (Option K)} (around : Around (Full degree h) lo hi a b keys before after ks ls rs)
    {x : K × V} (member : x ∈ before.flatMap (contents h) ∨ x ∈ after.flatMap (contents h)) :
    ¬ In a b x.1 := by
  have each (a b : Option K) (t : Tree K V) (full : Full degree h a b t) :
    ∀ x ∈ contents h t, In a b x.1 := full.1.inside
  intro inside
  rcases member with member | member
  · obtain ⟨z, bound, less⟩ := around.before.left_of each x member
    exact absurd (inside.left z bound) (not_le.mpr less)
  · cases ls with
    | nil =>
        cases around.ends
        have after_ := around.after
        cases after with
        | nil => cases member
        | cons t ts => exact after_.elim
    | cons y ls =>
        cases around.ends
        have above := around.after.inside each x member
        exact absurd (inside.right y rfl) (not_lt.mpr (above.left y rfl))

theorem Ctx.out (ctx : Ctx degree top h a b c) {x : K × V} (member : x ∈ outside h c) :
    ¬ In a b x.1 := by
  induction c generalizing h a b with
  | nil => cases member
  | cons f c ih =>
      obtain ⟨lo, hi, ks, ls, rs, around, _, _, _, rest⟩ := ctx
      rw [outside, List.mem_append, List.mem_append] at member
      rcases member with member | member
      · exact around.out member
      · exact fun inside => ih rest member (around.mono inside)

end Ctx

end SetBench.AbTree
