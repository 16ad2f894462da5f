import SetBench.ArtSearch

/-! Grafting: new nodes are built aside and one store links them under a slot of a
reachable node. Every rewrite of an insert or a remove is one graft. -/
namespace SetBench.Art

open Radix

variable {K V L : Type} [RadixKey K] [RadixLeaf K V L] {least maxSparse : Nat} {heap mid : Heap K L}
  {a : Addr} {p : Inner K} {byteval index : Nat} {child : Option Addr}

/-- `mid` is `heap` with the new nodes; the store will link `child` under `byteval`. -/
structure Graft (least maxSparse : Nat) (heap mid : Heap K L) (a : Addr) (p : Inner K)
    (byteval index : Nat)
    (child : Option Addr) : Prop where
  sound : Sound least maxSparse heap
  larger : Extends heap mid
  whole : Sound least maxSparse mid
  here : heap.node a = some (.inner p)
  reach : Path heap p.key root a
  inside : byteval < 256
  found : p.layout.find byteval = some index
  fits : FitsSlot mid p byteval child

def Inserted (heap after : Heap K L) (k : K) (v : V) : Prop :=
  ∀ k' v', Below after root k' v' ↔ Below heap root k' v' ∨ (k' = k ∧ v' = v)

def Deleted (heap after : Heap K L) (k : K) : Prop :=
  ∀ (k' : K) (v' : V), Below after root k' v' ↔ Below heap root k' v' ∧ k' ≠ k

theorem Extends.sub (larger : Extends heap mid) (sound : Sound least maxSparse heap)
    (fits : FitsSlot heap p byteval child) (k : K) (v : V) :
    Sub mid child k v ↔ Sub heap child k v := by
  constructor
  · rintro ⟨c, rfl, below⟩
    obtain ⟨node, present, _⟩ := fits c rfl
    exact ⟨c, rfl, (larger.below sound (by rw [present]; simp) k v).mp below⟩
  · rintro ⟨c, rfl, below⟩
    obtain ⟨node, present, _⟩ := fits c rfl
    exact ⟨c, rfl, (larger.below sound (by rw [present]; simp) k v).mpr below⟩

namespace Graft

variable (graft : Graft least maxSparse heap mid a p byteval index child)
include graft

theorem old_fits : FitsSlot heap p byteval (p.child byteval) :=
  fun c same => graft.sound.edge a p byteval c graft.here graft.inside same

theorem present : heap.node root ≠ none := by
  obtain ⟨top, there, _⟩ := graft.sound.top
  rw [there]
  simp

theorem here_mid : mid.node a = some (.inner p) := graft.larger _ _ graft.here

theorem here_after : (mid.store a index child).node a = some (.inner (p.setChild index child)) := by
  rw [store_node graft.here_mid, if_pos rfl]

theorem after_sound : Sound least maxSparse (mid.store a index child) :=
  store_sound graft.whole graft.here_mid graft.inside graft.found graft.fits

theorem below (k : K) (v : V) : Below (mid.store a index child) root k v ↔
    (Below heap root k v ∧ ¬ Sub heap (p.child byteval) k v) ∨ Sub mid child k v := by
  rw [store_below graft.whole graft.here_mid (graft.larger.path graft.reach) graft.inside
    graft.found graft.fits,
    graft.larger.below graft.sound graft.present, graft.larger.sub graft.sound graft.old_fits]

-- What is below the slot is below the root.
theorem part (k : K) (v : V) (sub : Sub heap (p.child byteval) k v) : Below heap root k v := by
  obtain ⟨agree, same⟩ := sub_fits graft.sound graft.old_fits sub
  have belongs : Belongs heap a k := by
    simp only [Belongs, graft.here]
    exact agree
  rw [below_at (graft.reach.follow graft.sound belongs) graft.here, below_inner graft.here, same]
  exact sub

theorem inserts {k : K} {v : V}
    (grown : ∀ k' v', Sub mid child k' v' ↔ Sub heap (p.child byteval) k' v' ∨ (k' = k ∧ v' = v)) :
    Inserted heap (mid.store a index child) k v := by
  intro k' v'
  rw [graft.below, grown]
  have := graft.part k' v'
  tauto

theorem deletes {k : K}
    (shrunk : ∀ (k' : K) (v' : V), Sub mid child k' v' ↔ Sub heap (p.child byteval) k' v' ∧ k' ≠ k)
    (only : ∀ v' : V, Below heap root k v' → Sub heap (p.child byteval) k v') :
    Deleted heap (mid.store a index child) k := by
  intro k' v'
  rw [graft.below, shrunk]
  have held := graft.part k' v'
  by_cases same : k' = k
  · subst same
    have := only v'
    tauto
  · tauto

theorem path_mid (k : K) (x : Addr) : Path mid k root x ↔ Path heap k root x :=
  ⟨graft.larger.path_back graft.sound graft.present, graft.larger.path⟩

-- The way to `a` is not changed, so neither is the way to a node above it.
theorem path_above {k : K} {x : Addr} (way : Path (mid.store a index child) k root x)
    (down : Path (mid.store a index child) k x a) : Path mid k root x := by
  have straight (y b : Addr) (path : Path (mid.store a index child) k y b)
      (above : ∀ c, Path (mid.store a index child) k y c → Path (mid.store a index child) k c b →
        c ≠ b → c ≠ a) :
      Path mid k y b := by
    induction path with
    | refl => exact .refl _
    | @step y c b q there edge rest ih =>
        by_cases same : y = b
        · subst same
          exact .refl _
        · have apart := above y (.refl _) (.step there edge rest) same
          have old := there
          rw [store_node graft.here_mid, if_neg apart] at old
          exact .step old edge (ih fun d before later last => above d (.step there edge before)
            later last)
  refine straight root x way fun c before later apart here => apart ?_
  subst here
  exact later.antisymm graft.after_sound down

/-- A node is reached after the store as before it, when it is reached from the new
child as it was from the old one. -/
theorem path {k : K} {x : Addr} (bridge : (∃ c, child = some c ∧ Path mid k c x) ↔
    ∃ c, p.child byteval = some c ∧ Path heap k c x) :
    Path (mid.store a index child) k root x ↔ Path heap k root x := by
  by_cases passes : Path heap k root a ∧ RadixKey.byte k p.byteNum = byteval
  · obtain ⟨there, same⟩ := passes
    have there_after : Path (mid.store a index child) k root a :=
      store_path_to graft.here_mid (graft.larger.path there)
    have child_after : (p.setChild index child).child (RadixKey.byte k p.byteNum) = child := by
      rw [Inner.setChild_child (graft.sound.ok a p graft.here).1 graft.inside graft.found,
        if_pos same]
    have off (c : Addr) (held : child = some c) :
        Path (mid.store a index child) k c x ↔ Path mid k c x := by
      obtain ⟨node, present, fits⟩ := graft.fits c held
      exact store_path_off graft.whole graft.here_mid graft.inside graft.found x
        fun back => fits_no_return graft.whole graft.here_mid present fits k back.1
    constructor
    · intro way
      rcases there_after.linear way with down | up
      · cases down with
        | refl => exact there
        | @step _ c _ q node edge rest =>
            rw [graft.here_after] at node
            cases node
            change (p.setChild index child).child (RadixKey.byte k p.byteNum) = some c at edge
            rw [child_after] at edge
            obtain ⟨c', held, tail⟩ := bridge.mp ⟨c, edge, (off c edge).mp rest⟩
            rw [← same] at held
            exact there.trans (.step graft.here held tail)
      · exact (graft.path_mid k x).mp (graft.path_above way up)
    · intro way
      rcases there.linear way with down | up
      · cases down with
        | refl => exact there_after
        | @step _ c _ q node edge rest =>
            rw [graft.here] at node
            cases node
            rw [same] at edge
            obtain ⟨c', held, tail⟩ := bridge.mpr ⟨c, edge, rest⟩
            exact there_after.trans (.step graft.here_after (child_after.trans held)
              ((off c' held).mpr tail))
      · refine store_path_above graft.here_mid (graft.larger.path way)
          fun c before later apart here => apart ?_
        subst here
        exact later.antisymm graft.whole (graft.larger.path up)
  · rw [← graft.path_mid]
    refine store_path_off graft.whole graft.here_mid graft.inside graft.found x fun held =>
      passes ⟨?_, held.2⟩
    exact (graft.path_mid k a).mp held.1

theorem child_path {c : Addr} {q : Inner K} (linked : child = some c)
    (node : mid.node c = some (.inner q)) :
    Path (mid.store a index child) q.key root c := by
  obtain ⟨found, present, fits⟩ := graft.fits c linked
  rw [node] at present
  cases present
  have belongs : Belongs heap a q.key := by
    simp only [Belongs, graft.here]
    exact fits.1
  have follows := graft.reach.follow graft.sound belongs
  refine (store_path_to graft.here_mid (graft.larger.path follows)).snoc graft.here_after ?_
  change (p.setChild index child).child (RadixKey.byte q.key p.byteNum) = some c
  rw [Inner.setChild_child (graft.sound.ok a p graft.here).1 graft.inside graft.found,
    if_pos fits.2.1, linked]

end Graft

/-- The effect of a rewrite on nodes: only slots of `a` change, every inner node other
than `gone` is reached as before, and new inner nodes are reached. -/
structure Rewrite (least maxSparse : Nat) (heap after : Heap K L) (a : Addr) (gone : Option Addr)
    (New : L → Prop) :
    Prop where
  sound : Sound least maxSparse after
  same : ∀ x node, heap.node x = some node → x ≠ a → after.node x = some node
  slot : ∃ p index child, heap.node a = some (.inner p) ∧ after.node a =
    some (.inner (p.setChild index child))
  kept : ∀ x q, heap.node x = some (.inner q) → gone ≠ some x →
    (Path after q.key root x ↔ Path heap q.key root x)
  lost : ∀ x q, gone = some x → heap.node x = some (.inner q) → ¬ Path after q.key root x
  fresh : ∀ x q, after.node x = some (.inner q) → heap.node x = none → q.removed = false ∧
    Path after q.key root x
  leaf : ∀ x l, after.node x = some (.leaf l) → heap.node x = some (.leaf l) ∨ New l

theorem Graft.rewrite (graft : Graft least maxSparse heap mid a p byteval index child)
    {gone : Option Addr} {New : L → Prop}
    (bridge : ∀ x q, heap.node x = some (.inner q) → gone ≠ some x →
      ((∃ c, child = some c ∧ Path mid q.key c x) ↔ ∃ c, p.child byteval = some c ∧
      Path heap q.key c x))
    (lost : ∀ x q, gone = some x → heap.node x = some (.inner q) →
      ¬ Path (mid.store a index child) q.key root x)
    (fresh : ∀ x q, mid.node x = some (.inner q) → heap.node x = none → child = some x ∧
      q.removed = false)
    (leaf : ∀ x l, mid.node x = some (.leaf l) → heap.node x = some (.leaf l) ∨ New l) :
    Rewrite least maxSparse heap (mid.store a index child) a gone New := by
  refine ⟨graft.after_sound, ?_, ⟨p, index, child, graft.here, graft.here_after⟩, ?_, lost, ?_, ?_⟩
  · intro x node there apart
    rw [store_node graft.here_mid, if_neg apart]
    exact graft.larger x node there
  · intro x q there other
    exact graft.path (bridge x q there other)
  · intro x q there absent
    rw [store_node graft.here_mid] at there
    split at there
    · rename_i same
      rw [same, graft.here] at absent
      cases absent
    · obtain ⟨linked, live⟩ := fresh x q there absent
      exact ⟨live, graft.child_path linked there⟩
  · intro x l there
    exact leaf x l ((store_leaf graft.here_mid index child x l).mp there)

/-- A property of every leaf of the heap, linked or not. -/
def Leaves (P : L → Prop) (heap : Heap K L) : Prop := ∀ x l, heap.node x = some (.leaf l) → P l

theorem Rewrite.mono {after : Heap K L} {gone : Option Addr} {New Other : L → Prop}
    (rewrite : Rewrite least maxSparse heap after a gone New) (weaker : ∀ l, New l → Other l) :
    Rewrite least maxSparse heap after a gone Other :=
  { rewrite with leaf := fun x l here => (rewrite.leaf x l here).imp id (weaker l) }

theorem Rewrite.leaves {after : Heap K L} {gone : Option Addr} {P : L → Prop}
    (rewrite : Rewrite least maxSparse heap after a gone P) (leaves : Leaves P heap) :
    Leaves P after :=
  fun x l here => (rewrite.leaf x l here).elim (leaves x l) id

/-- A node is marked removed exactly when it is unlinked. -/
def Marked (heap : Heap K L) : Prop :=
  ∀ x q, heap.node x = some (.inner q) → (q.removed = false ↔ Path heap q.key root x)

theorem Rewrite.marked {after : Heap K L} {gone : Option Addr} {New : L → Prop}
    (rewrite : Rewrite least maxSparse heap after a gone New)
    (kept : ∀ x q, heap.node x = some (.inner q) → gone ≠ some x →
      (q.removed = false ↔ Path heap q.key root x))
    (lost : ∀ x q, heap.node x = some (.inner q) → gone = some x → q.removed = true) :
    Marked after := by
  have old (x : Addr) (q : Inner K) (there : heap.node x = some (.inner q)) :
      q.removed = false ↔ Path after q.key root x := by
    by_cases same : gone = some x
    · have flag := lost x q there same
      have unreached := rewrite.lost x q same there
      simp [flag, unreached]
    · rw [rewrite.kept x q there same]
      exact kept x q there same
  intro x q there
  cases before : heap.node x with
  | none =>
      obtain ⟨live, path⟩ := rewrite.fresh x q there before
      simp [live, path]
  | some node =>
      by_cases here : x = a
      · subst here
        obtain ⟨p, index, child, was, now⟩ := rewrite.slot
        rw [now] at there
        cases there
        exact old x p was
      · have same := rewrite.same x node before here
        rw [same] at there
        cases there
        exact old x q before

-- Leaves, and new inner nodes over leaves only, lead to no inner node of the old heap.
def Shallow (heap mid : Heap K L) (c : Addr) : Prop :=
  (∃ l, mid.node c = some (.leaf l)) ∨ ∃ s, mid.node c = some (.inner s) ∧ heap.node c = none ∧
    ∀ byteval d, s.child byteval = some d → ∃ l, mid.node d = some (.leaf l)

omit [RadixLeaf K V L] in
theorem Shallow.no_inner {c x : Addr} {q : Inner K} {k : K} (shallow : Shallow heap mid c)
    (larger : Extends heap mid) (there : heap.node x = some (.inner q)) : ¬ Path mid k c x := by
  have leaf {d : Addr} (held : ∃ l, mid.node d = some (.leaf l)) : ¬ Path mid k d x := by
    obtain ⟨l, node⟩ := held
    intro path
    have same := path.leaf_end node
    subst same
    rw [larger _ _ there] at node
    cases node
  rcases shallow with held | ⟨s, node, fresh, leaves⟩
  · exact leaf held
  · intro path
    cases path with
    | refl =>
        rw [there] at fresh
        cases fresh
    | step node' edge rest =>
        rw [node] at node'
        cases node'
        exact leaf (leaves _ _ edge) rest

-- A rewrite of one leaf or null slot.
theorem Graft.rewrite_leaf (graft : Graft least maxSparse heap mid a p byteval index child)
    {New : L → Prop} (old : ∀ c, p.child byteval = some c → ∃ l, heap.node c = some (.leaf l))
    (new : ∀ c, child = some c → Shallow heap mid c)
    (fresh : ∀ x q, mid.node x = some (.inner q) → heap.node x = none → child = some x ∧
      q.removed = false)
    (leaf : ∀ x l, mid.node x = some (.leaf l) → heap.node x = some (.leaf l) ∨ New l) :
    Rewrite least maxSparse heap (mid.store a index child) a none New := by
  refine graft.rewrite ?_ (fun _ _ absurd_ => nomatch absurd_) fresh leaf
  intro x q there _
  constructor
  · rintro ⟨c, linked, path⟩
    exact absurd path ((new c linked).no_inner graft.larger there)
  · rintro ⟨c, held, path⟩
    have shallow : Shallow heap heap c := Or.inl (old c held)
    exact absurd path (shallow.no_inner (fun _ _ here => here) there)

end SetBench.Art
