import SetBench.AbRestructureOrder

/-! The places of new nodes in the lock order. -/
namespace SetBench.AbRestructure

open Transition
open AbPersist (Word clean markDirty entry)

variable {degree : Nat} {w after : World} {tid : Nat} {height : Nat → Nat} {info : Info}
    {r late : Rank}

/-! Intervals side by side. -/

/-- The intervals of the nodes divide the interval from `a` to `b` in their order. -/
def Chain (r : Rank) : ℚ → List Word → ℚ → Prop
  | a, [], b => a = b
  | a, x :: rest, b =>
      r.lo x.value = a ∧ r.lo x.value < r.hi x.value ∧ Chain r (r.hi x.value) rest b

theorem chain_append {a b : ℚ} {xs ys : List Word} :
    Chain r a (xs ++ ys) b ↔ ∃ m, Chain r a xs m ∧ Chain r m ys b := by
  induction xs generalizing a with
  | nil =>
      constructor
      · exact fun chain => ⟨a, rfl, chain⟩
      · rintro ⟨m, rfl, chain⟩
        exact chain
  | cons x xs ih =>
      simp only [List.cons_append, Chain, ih]
      constructor
      · rintro ⟨first, width, m, one, two⟩
        exact ⟨m, ⟨first, width, one⟩, two⟩
      · rintro ⟨m, ⟨first, width, one⟩, two⟩
        exact ⟨first, width, m, one, two⟩

theorem Chain.le {a b : ℚ} {xs : List Word} (chain : Chain r a xs b) : a ≤ b := by
  induction xs generalizing a with
  | nil => exact le_of_eq chain
  | cons x xs ih =>
      obtain ⟨rfl, width, rest⟩ := chain
      exact width.le.trans (ih rest)

theorem Chain.lt {a b : ℚ} {xs : List Word} (chain : Chain r a xs b) (some_ : 0 < xs.length) :
    a < b := by
  cases xs with
  | nil => cases some_
  | cons x xs =>
      obtain ⟨rfl, width, rest⟩ := chain
      exact width.trans_le rest.le

theorem Chain.congr {a b : ℚ} {xs : List Word} (chain : Chain r a xs b)
    (same : ∀ x ∈ xs, late.lo x.value = r.lo x.value ∧ late.hi x.value = r.hi x.value) :
    Chain late a xs b := by
  induction xs generalizing a with
  | nil => exact chain
  | cons x xs ih =>
      obtain ⟨first, width, rest⟩ := chain
      obtain ⟨lo, hi⟩ := same x List.mem_cons_self
      refine ⟨lo.trans first, ?_, ?_⟩
      · rw [lo, hi]
        exact width
      · rw [hi]
        exact ih rest fun y member => same y (List.mem_cons_of_mem _ member)

-- The left ends of a list of nodes.
def cutOf (lo : Nat → ℚ) (b : ℚ) (xs : List Word) (i : Nat) : ℚ :=
  (xs[i]?).elim b fun x => lo x.value

theorem Chain.cuts {a b : ℚ} {xs : List Word} (chain : Chain r a xs b) :
    cutOf r.lo b xs 0 = a ∧ cutOf r.lo b xs xs.length = b ∧
    ∀ i x, xs[i]? = some x → r.lo x.value = cutOf r.lo b xs i ∧ r.hi x.value = cutOf r.lo b xs
      (i + 1) ∧
      r.lo x.value < r.hi x.value := by
  induction xs generalizing a with
  | nil =>
      refine ⟨Eq.symm chain, rfl, ?_⟩
      rintro _ _ ⟨⟩
  | cons x xs ih =>
      obtain ⟨first, width, rest⟩ := chain
      obtain ⟨start, stop, inside⟩ := ih rest
      refine ⟨first, stop, fun i y found => ?_⟩
      cases i with
      | zero =>
          cases found
          exact ⟨rfl, start.symm, width⟩
      | succ i => exact inside i y found

theorem chain_of_cuts {f : Nat → ℚ} {xs : List Word} {k : Nat} (facts : ∀ i x, xs[i]? = some x →
    r.lo x.value = f (k + i) ∧ r.hi x.value = f (k + i + 1) ∧ f (k + i) < f (k + i + 1)) :
    Chain r (f k) xs (f (k + xs.length)) := by
  induction xs generalizing k with
  | nil => rfl
  | cons x xs ih =>
      obtain ⟨lo, hi, width⟩ := facts 0 x rfl
      refine ⟨lo, ?_, ?_⟩
      · rw [lo, hi]
        exact width
      · rw [hi]
        have rest := ih (k := k + 1) fun i y found => by
          have fact := facts (i + 1) y found
          have shift : k + 1 + i = k + (i + 1) := by omega
          rw [shift]
          exact fact
        have length : k + (x :: xs).length = k + 1 + xs.length := by
          rw [List.length_cons]
          omega
        rw [length]
        exact rest

section Children

variable {p : Word}

theorem children_getElem {i : Nat} {x : Word} (found : (w.children p)[i]? = some x) :
    i < w.size p.value ∧ x = w.slot p.value i := by
  obtain ⟨bound, rfl⟩ := List.getElem?_eq_some_iff.mp found
  have bound : i < w.size p.value := by simpa using bound
  exact ⟨bound, by simp [World.children]⟩

theorem Ranked.child_facts (ranked : Ranked r w) (inner : Inner w p) (other : p.value ≠ entry)
    {i : Nat} {x : Word} (found : (w.children p)[i]? = some x) :
    r.lo x.value = r.cut p.value i ∧ r.hi x.value = r.cut p.value (i + 1) ∧
      r.cut p.value i < r.cut p.value (i + 1) := by
  obtain ⟨bound, rfl⟩ := children_getElem found
  obtain ⟨lo, hi, _⟩ := (ranked.slots p.value inner.born inner.inner i bound).inside other
  exact ⟨lo, hi, ranked.rising p.value inner.born inner.inner other i bound⟩

theorem Ranked.take (ranked : Ranked r w) (inner : Inner w p) (other : p.value ≠ entry) {i : Nat}
    (bound : i ≤ w.size p.value) :
    Chain r (r.lo p.value) ((w.children p).take i) (r.cut p.value i) := by
  have chain : Chain r (r.cut p.value 0) ((w.children p).take i)
    (r.cut p.value (0 + ((w.children p).take i).length)) := by
    refine chain_of_cuts fun j x found => ?_
    rw [Nat.zero_add]
    refine ranked.child_facts inner other ?_
    rw [List.getElem?_take] at found
    split at found
    · exact found
    · cases found
  rw [ranked.first _ inner.born inner.inner other] at chain
  have length : 0 + ((w.children p).take i).length = i := by
    rw [List.length_take, children_length]
    omega
  rw [length] at chain
  exact chain

theorem Ranked.drop (ranked : Ranked r w) (inner : Inner w p) (other : p.value ≠ entry) {i : Nat}
    (bound : i ≤ w.size p.value) :
    Chain r (r.cut p.value i) ((w.children p).drop i) (r.hi p.value) := by
  have chain : Chain r (r.cut p.value i) ((w.children p).drop i)
    (r.cut p.value (i + ((w.children p).drop i).length)) := by
    refine chain_of_cuts fun j x found => ?_
    rw [List.getElem?_drop] at found
    exact ranked.child_facts inner other found
  have length : i + ((w.children p).drop i).length = w.size p.value := by
    rw [List.length_drop, children_length]
    omega
  rw [length, ranked.last _ inner.born inner.inner other] at chain
  exact chain

theorem Ranked.children (ranked : Ranked r w) (inner : Inner w p) (other : p.value ≠ entry) :
    Chain r (r.lo p.value) (w.children p) (r.hi p.value) := by
  have chain := ranked.drop inner other (Nat.zero_le _)
  rw [ranked.first _ inner.born inner.inner other] at chain
  exact chain

theorem Ranked.children_up (ranked : Ranked r w) (shape : Shape height w) (inner : Inner w p)
    (other : p.value ≠ entry) :
    ∀ x ∈ w.children p, x.value < w.fresh ∧ r.up x.value < r.up p.value := by
  intro x member
  obtain ⟨i, found⟩ := List.mem_iff_getElem?.mp member
  obtain ⟨bound, rfl⟩ := children_getElem found
  have child := shape.slots p.value inner.born inner.inner i bound
  exact ⟨child.born, ((ranked.slots p.value inner.born inner.inner i bound).inside other).2.2⟩

end Children

/-! Labels of new nodes. -/

structure Label where
  lo : ℚ
  hi : ℚ
  up : ℚ

structure Labelled (r : Rank) (node : NewNode) (label : Label) : Prop where
  width : label.lo < label.hi
  exact : node.leaf = false → node.size = node.ptrs.length
  chain : node.leaf = false → Chain r label.lo node.ptrs label.hi
  above : node.leaf = false → ∀ x ∈ node.ptrs, r.up x.value < label.up

def extend (w : World) (old : Nat → ℚ) (labels : List Label) (pick : Label → ℚ) (n : Nat) : ℚ :=
  if n < w.fresh then old n else (labels[n - w.fresh]?).elim 0 pick

def Rank.extend (r : Rank) (w : World) (nodes : List NewNode) (labels : List Label) : Rank where
  lo := AbRestructure.extend w r.lo labels Label.lo
  hi := AbRestructure.extend w r.hi labels Label.hi
  up := AbRestructure.extend w r.up labels Label.up
  cut n i := if n < w.fresh then r.cut n i
    else cutOf (AbRestructure.extend w r.lo labels Label.lo)
      (AbRestructure.extend w r.hi labels Label.hi n)
      ((nodes[n - w.fresh]?).elim [] NewNode.ptrs) i

/-- Old nodes keep their places. -/
structure Agrees (r : Rank) (w : World) (late : Rank) : Prop where
  lo : ∀ n, n < w.fresh → late.lo n = r.lo n
  hi : ∀ n, n < w.fresh → late.hi n = r.hi n
  up : ∀ n, n < w.fresh → late.up n = r.up n
  cut : ∀ n, n < w.fresh → ∀ i, late.cut n i = r.cut n i

section Extend

variable {nodes : List NewNode} {labels : List Label}

theorem extend_agrees : Agrees r w (r.extend w nodes labels) := by
  refine ⟨?_, ?_, ?_, ?_⟩
  · exact fun n less => if_pos less
  · exact fun n less => if_pos less
  · exact fun n less => if_pos less
  · exact fun n less i => if_pos less

theorem extend_new (r : Rank) (w : World) (nodes : List NewNode) (labels : List Label) {k : Nat}
    {label : Label} (found : labels[k]? = some label) :
    (r.extend w nodes labels).lo (w.fresh + k) = label.lo ∧ (r.extend w nodes labels).hi
    (w.fresh + k) = label.hi ∧
      (r.extend w nodes labels).up (w.fresh + k) = label.up := by
  simp [Rank.extend, AbRestructure.extend, found]

theorem extend_cut {k : Nat} {node : NewNode} {label : Label} (new : nodes[k]? = some node)
    (found : labels[k]? = some label) (i : Nat) :
    (r.extend w nodes labels).cut (w.fresh + k) i = cutOf (r.extend w nodes labels).lo label.hi
    node.ptrs i := by
  simp [Rank.extend, AbRestructure.extend, found, new]

theorem Placed.kept (agrees : Agrees r w late) {n i c : Nat} (placed : Placed r n i c)
    (less : n < w.fresh) (born : c < w.fresh) :
    Placed late n i c := by
  refine ⟨fun other => ?_, fun same => ?_⟩
  · rw [agrees.lo c born, agrees.hi c born, agrees.up c born, agrees.up n less, agrees.cut n less,
      agrees.cut n less]
    exact placed.inside other
  · rw [agrees.lo c born, agrees.hi c born]
    exact placed.top same

theorem Before.kept (agrees : Agrees r w late) {n m : Nat} (before : Before r n m)
    (one : n < w.fresh) (two : m < w.fresh) :
    Before late n m := by
  unfold Before
  rw [agrees.hi n one, agrees.hi m two, agrees.up n one, agrees.up m two]
  exact before

theorem Chain.kept (agrees : Agrees r w late) {a b : ℚ} {xs : List Word} (chain : Chain r a xs b)
    (born : ∀ x ∈ xs, x.value < w.fresh) : Chain late a xs b :=
  chain.congr fun x member => ⟨agrees.lo _ (born x member), agrees.hi _ (born x member)⟩

theorem Ranked.build (shape : Shape height w) (ranked : Ranked r w)
    (length : labels.length = nodes.length)
    (labelled : ∀ (k : Nat) (node : NewNode) (label : Label), nodes[k]? = some node →
      labels[k]? = some label → Labelled (r.extend w nodes labels) node label) :
    Ranked (r.extend w nodes labels) (w.build nodes) := by
  have agrees : Agrees r w (r.extend w nodes labels) := extend_agrees
  have grows : Grows height w height (w.build nodes) := by
    have grown : Grows height w (lift height w []) (w.build nodes) := build_grows
    exact ⟨grown.fresh, grown.leaf, grown.weight, grown.size, fun _ _ => rfl⟩
  have label {k : Nat} {node : NewNode} (found : nodes[k]? = some node) : ∃ label, labels[k]? =
    some label ∧
      Labelled (r.extend w nodes labels) node label := by
    have bound : k < labels.length := length ▸ (List.getElem?_eq_some_iff.mp found).1
    exact ⟨_, List.getElem?_eq_getElem bound,
      labelled k node _ found (List.getElem?_eq_getElem bound)⟩
  refine ⟨?_, ?_, ?_, ?_, ?_⟩
  · intro n less other
    by_cases old : n < w.fresh
    · rw [agrees.lo n old, agrees.hi n old]
      exact ranked.width n old other
    · obtain ⟨k, node, rfl, found⟩ := new_index old less
      obtain ⟨label, here, good⟩ := label found
      obtain ⟨lo, hi, _⟩ := extend_new r w nodes labels here
      rw [lo, hi]
      exact good.width
  · intro n less inner other
    by_cases old : n < w.fresh
    · rw [agrees.cut n old, agrees.lo n old]
      exact ranked.first n old ((grows.leaf n old).symm.trans inner) other
    · obtain ⟨k, node, rfl, found⟩ := new_index old less
      obtain ⟨label, here, good⟩ := label found
      rw [(build_new found).1] at inner
      rw [extend_cut found here, (extend_new _ _ _ _ here).1]
      exact (good.chain inner).cuts.1
  · intro n less inner other
    by_cases old : n < w.fresh
    · have internal := (grows.leaf n old).symm.trans inner
      rw [agrees.cut n old, agrees.hi n old, grows.size n old internal]
      exact ranked.last n old internal other
    · obtain ⟨k, node, rfl, found⟩ := new_index old less
      obtain ⟨label, here, good⟩ := label found
      rw [(build_new found).1] at inner
      rw [(build_new found).2.2.1, extend_cut found here, (extend_new _ _ _ _ here).2.1,
        good.exact inner]
      exact (good.chain inner).cuts.2.1
  · intro n less inner other i bound
    by_cases old : n < w.fresh
    · have internal := (grows.leaf n old).symm.trans inner
      rw [grows.size n old internal] at bound
      rw [agrees.cut n old, agrees.cut n old]
      exact ranked.rising n old internal other i bound
    · obtain ⟨k, node, rfl, found⟩ := new_index old less
      obtain ⟨label, here, good⟩ := label found
      rw [(build_new found).1] at inner
      rw [(build_new found).2.2.1, good.exact inner] at bound
      rw [extend_cut found here, extend_cut found here]
      obtain ⟨lo, hi, width⟩ := (good.chain inner).cuts.2.2 i _ (List.getElem?_eq_getElem bound)
      rw [← lo, ← hi]
      exact width
  · intro n less inner i bound
    by_cases old : n < w.fresh
    · have internal := (grows.leaf n old).symm.trans inner
      rw [grows.size n old internal] at bound
      have same : (w.build nodes).slot n i = w.slot n i := if_pos old
      rw [same]
      exact (ranked.slots n old internal i bound).kept agrees old
        (shape.slots n old internal i bound).born
    · obtain ⟨k, node, rfl, found⟩ := new_index old less
      obtain ⟨label, here, good⟩ := label found
      rw [(build_new found).1] at inner
      rw [(build_new found).2.2.1, good.exact inner] at bound
      have slot : (w.build nodes).slot (w.fresh + k) i = node.ptrs[i] := by
        rw [(build_new found).2.2.2 i, List.getD_eq_getElem?_getD, List.getElem?_eq_getElem bound]
        rfl
      rw [slot]
      refine ⟨fun _ => ?_, fun top => ?_⟩
      · obtain ⟨lo, hi, _⟩ := (good.chain inner).cuts.2.2 i _ (List.getElem?_eq_getElem bound)
        rw [extend_cut found here, extend_cut found here, (extend_new _ _ _ _ here).2.2]
        exact ⟨lo, hi, good.above inner _ (List.getElem_mem bound)⟩
      · have born := shape.born
        exact absurd top (by omega)

end Extend

end SetBench.AbRestructure
