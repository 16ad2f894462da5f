import SetBench.ArtNode

/-! The heap of a radix tree, for any type of leaves: allocation, the store through a
node_ptr, the removed flag and find_location. The same layer serves art.h and its
log-leaf variants, which differ in their leaves only. -/
namespace SetBench.Art

open Radix

/-- What the tree reads of a leaf: the header, and the pairs it answers for. -/
class RadixLeaf (K V : outParam Type) (L : Type) where
  key : L → K
  byteNum : L → Nat
  pairs : L → List (K × V)

inductive Node (K L : Type) where
  | inner (p : Inner K)
  | leaf (l : L)

structure Heap (K L : Type) where
  node : Addr → Option (Node K L)
  next : Addr

def root : Addr := 0

variable {K V L : Type} [RadixKey K] [RadixLeaf K V L]

namespace Node

def key : Node K L → K
  | inner p => p.key
  | leaf l => RadixLeaf.key l

def byteNum : Node K L → Nat
  | inner p => p.byteNum
  | leaf l => RadixLeaf.byteNum l

def isLeaf : Node K L → Bool
  | inner _ => false
  | leaf _ => true

end Node

namespace Heap

variable (heap : Heap K L)

def alloc (node : Node K L) : Heap K L × Addr :=
  (⟨Function.update heap.node heap.next (some node), heap.next + 1⟩, heap.next)

-- Store through the node_ptr at position `index` of the inner node at `p`.
def store (p : Addr) (index : Nat) (child : Option Addr) : Heap K L :=
  match heap.node p with
  | some (.inner node) =>
      { heap with node := Function.update heap.node p (some (.inner (node.setChild index child))) }
  | _ => heap

def setRemoved (p : Addr) : Heap K L :=
  match heap.node p with
  | some (.inner node) =>
      { heap with
        node := Function.update heap.node p (some (.inner { node with removed := true })) }
  | _ => heap

end Heap

/-- The tree of the constructor: a full root with byte_num 0. The header's key is not
initialised, so it is a parameter. -/
def emptyTree (junk : K) : Heap K L :=
  ⟨Function.update (fun _ => none) root
    (some (.inner ⟨.full, 0, 0, junk, List.replicate 256 none, false⟩)), 1⟩

-- The inner while loop of find_location.
def matchBytes (k key : K) (bytePos byteNum : Nat) : Nat :=
  if bytePos < byteNum ∧ RadixKey.byte k bytePos = RadixKey.byte key bytePos then
    matchBytes k key (bytePos + 1) byteNum
  else bytePos
termination_by byteNum - bytePos

structure Location where
  gp : Option Addr
  p : Addr
  cptr : Option Nat
  c : Option Addr
  bytePos : Nat
  deriving DecidableEq, Repr

/-- One round of the loop of find_location: the tuple it returns, or the next node. -/
def findStep (heap : Heap K L) (k : K) (gp : Option Addr) (p : Addr) (bytePos : Nat) :
    Option (Location ⊕ (Addr × Nat)) :=
  match heap.node p with
  | some (.inner node) =>
      match node.getChild k with
      | none => some (.inl ⟨gp, p, none, none, bytePos⟩)
      | some index =>
          match node.ptr.getD index none with
          | none => some (.inl ⟨gp, p, some index, none, bytePos⟩)
          | some c =>
              match heap.node c with
              | none => none
              | some child =>
                  let pos := matchBytes k child.key (bytePos + 1) child.byteNum
                  if pos ≠ child.byteNum ∨ child.isLeaf then
                    some (.inl ⟨gp, p, some index, some c, pos⟩)
                  else some (.inr (c, pos))
  | _ => none

def findLoop (heap : Heap K L) (k : K) : Nat → Option Addr → Addr → Nat → Option Location
  | 0, _, _, _ => none
  | fuel + 1, gp, p, bytePos =>
      match findStep heap k gp p bytePos with
      | none => none
      | some (.inl location) => some location
      | some (.inr (c, pos)) => findLoop heap k fuel (some p) c pos

-- An inner node lies deeper than its parent by at least one byte, so the loop ends.
def findLocation (heap : Heap K L) (k : K) : Option Location :=
  findLoop heap k (RadixKey.size K + 1) none root 0

theorem matchBytes_le (k key : K) {bytePos byteNum : Nat} (bound : bytePos ≤ byteNum) :
    bytePos ≤ matchBytes k key bytePos byteNum ∧ matchBytes k key bytePos byteNum ≤ byteNum := by
  fun_induction matchBytes k key bytePos byteNum with
  | case1 pos same ih =>
      have := ih (by omega)
      omega
  | case2 pos stop => omega

theorem matchBytes_agree (k key : K) {bytePos : Nat} (byteNum : Nat) (agree : Agree k key bytePos) :
    Agree k key (matchBytes k key bytePos byteNum) := by
  fun_induction matchBytes k key bytePos byteNum with
  | case1 pos same ih => exact ih (agree.succ same.2)
  | case2 pos stop => exact agree

theorem matchBytes_parts (k key : K) {bytePos byteNum : Nat} (agree : Agree k key bytePos)
    (early : matchBytes k key bytePos byteNum < byteNum) :
    Parts k key (matchBytes k key bytePos byteNum) := by
  fun_induction matchBytes k key bytePos byteNum with
  | case1 pos same ih => exact ih (agree.succ same.2) early
  | case2 pos stop => exact ⟨agree, fun equal => stop ⟨early, equal⟩⟩

/-! Search paths. `Path heap k a b`: following the slots of the bytes of `k` from `a`
leads to `b`. Prefixes are not compared, as in a search that skips compressed bytes. -/

inductive Path (heap : Heap K L) (k : K) : Addr → Addr → Prop where
  | refl (a : Addr) : Path heap k a a
  | step {a c b : Addr} {p : Inner K} (here : heap.node a = some (.inner p))
      (child : p.child (RadixKey.byte k p.byteNum) = some c) (rest : Path heap k c b) :
      Path heap k a b

theorem Path.trans {heap : Heap K L} {k : K} {a b c : Addr} (first : Path heap k a b)
    (second : Path heap k b c) : Path heap k a c := by
  induction first with
  | refl => exact second
  | step here child _ ih => exact .step here child (ih second)

theorem Path.snoc {heap : Heap K L} {k : K} {a b c : Addr} {p : Inner K} (path : Path heap k a b)
    (here : heap.node b = some (.inner p)) (child : p.child (RadixKey.byte k p.byteNum) = some c) :
    Path heap k a c := path.trans (.step here child (.refl c))

theorem Path.linear {heap : Heap K L} {k : K} {a b c : Addr} (first : Path heap k a b)
    (second : Path heap k a c) : Path heap k b c ∨ Path heap k c b := by
  induction first with
  | refl => exact Or.inl second
  | @step a d b p here child rest ih =>
      cases second with
      | refl => exact Or.inr (.step here child rest)
      | @step _ e _ q there other tail =>
          rw [here] at there
          cases there
          rw [child] at other
          cases other
          exact ih tail

theorem Path.leaf_end {heap : Heap K L} {k : K} {a b : Addr} {l : L}
    (here : heap.node a = some (.leaf l)) (path : Path heap k a b) : a = b := by
  cases path with
  | refl => rfl
  | step there _ _ =>
      rw [here] at there
      cases there

/-- Which keys may lie at or below a node. -/
def Belongs (heap : Heap K L) (a : Addr) (k : K) : Prop :=
  match heap.node a with
  | some (.inner p) => Agree k p.key p.byteNum
  | some (.leaf l) => ∃ v, (k, v) ∈ RadixLeaf.pairs l
  | none => False

/-- The edge from an inner node `p` through the slot of `byteval` to a child. -/
def Fits (p : Inner K) (byteval : Nat) : Node K L → Prop
  | .inner q =>
      Agree q.key p.key p.byteNum ∧ RadixKey.byte q.key p.byteNum = byteval ∧ p.byteNum < q.byteNum
  | .leaf l => p.byteNum < RadixLeaf.byteNum l ∧
      (∀ entry ∈ RadixLeaf.pairs l, Agree entry.1 p.key p.byteNum ∧
        RadixKey.byte entry.1 p.byteNum = byteval) ∧
      Agree (RadixLeaf.key l) p.key p.byteNum ∧ RadixKey.byte (RadixLeaf.key l) p.byteNum = byteval

/-- What holds of every allocated node, linked or not, at any moment. -/
structure Sound (least maxSparse : Nat) (heap : Heap K L) : Prop where
  allocated : ∀ a, heap.node a ≠ none → a < heap.next
  ok : ∀ a p, heap.node a = some (.inner p) → p.Ok least maxSparse ∧ p.byteNum < RadixKey.size K
  edge : ∀ a p byteval c, heap.node a = some (.inner p) → byteval < 256 → p.child byteval = some c →
    ∃ child, heap.node c = some child ∧ Fits p byteval child
  top : ∃ p, heap.node root = some (.inner p) ∧ p.layout = .full ∧ p.byteNum = 0 ∧ p.removed = false

variable {least maxSparse : Nat} {heap : Heap K L}

-- Along a path every key that belongs to the end takes the same slots.
theorem Path.belongs (sound : Sound least maxSparse heap) {k other : K} {a b : Addr} {p : Inner K}
    (path : Path heap k a b) (apart : a ≠ b) (here : heap.node a = some (.inner p))
    (belongs : Belongs heap b other) :
    Agree other p.key p.byteNum ∧ RadixKey.byte other p.byteNum = RadixKey.byte k p.byteNum := by
  induction path generalizing p with
  | refl => exact absurd rfl apart
  | @step a c b q there child rest ih =>
      obtain rfl : p = q := by
        rw [here] at there
        cases there
        rfl
      obtain ⟨node, present, fits⟩ := sound.edge a p _ c here (RadixKey.byte_lt _ _) child
      cases node with
      | leaf l =>
          have same := rest.leaf_end present
          subst same
          simp only [Belongs, present] at belongs
          obtain ⟨v, member⟩ := belongs
          exact fits.2.1 (other, v) member
      | inner q =>
          obtain ⟨prefix_, byteval, deeper⟩ := fits
          have agree : Agree other q.key q.byteNum := by
            by_cases same : c = b
            · subst same
              simpa only [Belongs, present] using belongs
            · exact (ih same present belongs).1
          exact ⟨(agree.mono deeper.le).trans prefix_, (agree p.byteNum deeper).trans byteval⟩

theorem Path.follow (sound : Sound least maxSparse heap) {k other : K} {a b : Addr}
    (path : Path heap k a b) (belongs : Belongs heap b other) : Path heap other a b := by
  induction path with
  | refl => exact .refl _
  | @step a c b p here child rest ih =>
      by_cases same : a = b
      · subst same
        exact .refl _
      · have byteval := ((Path.step here child rest).belongs sound same here belongs).2
        rw [← byteval] at child
        exact .step here child (ih belongs)

theorem Path.deeper (sound : Sound least maxSparse heap) {k : K} {a b : Addr} {p q : Inner K}
    (path : Path heap k a b) (apart : a ≠ b) (here : heap.node a = some (.inner p))
    (there : heap.node b = some (.inner q)) :
    p.byteNum < q.byteNum := by
  induction path generalizing p with
  | refl => exact absurd rfl apart
  | @step a c b q' here' child rest ih =>
      obtain rfl : p = q' := by
        rw [here] at here'
        cases here'
        rfl
      obtain ⟨node, present, fits⟩ := sound.edge a p _ c here (RadixKey.byte_lt _ _) child
      cases node with
      | leaf l =>
          have same := rest.leaf_end present
          subst same
          rw [present] at there
          cases there
      | inner r =>
          by_cases same : c = b
          · subst same
            rw [present] at there
            cases there
            exact fits.2.2
          · exact fits.2.2.trans (ih same present there)

theorem Path.antisymm (sound : Sound least maxSparse heap) {k : K} {a b : Addr}
    (down : Path heap k a b) (up : Path heap k b a) : a = b := by
  by_contra apart
  cases down with
  | refl => exact apart rfl
  | @step _ c _ p here child rest =>
      cases up with
      | refl => exact apart rfl
      | @step _ d _ q there other tail =>
          have first := Path.deeper sound (.step here child rest) apart here there
          have second := Path.deeper sound (.step there other tail) (Ne.symm apart) there here
          omega

/-- The pairs stored in the leaf at the end of the path of their own key. -/
def Below (heap : Heap K L) (a : Addr) (k : K) (v : V) : Prop :=
  ∃ b l, Path heap k a b ∧ heap.node b = some (.leaf l) ∧ (k, v) ∈ RadixLeaf.pairs l

theorem Below.agree (sound : Sound least maxSparse heap) {a : Addr} {p : Inner K} {k : K} {v : V}
    (below : Below heap a k v) (here : heap.node a = some (.inner p)) :
    Agree k p.key p.byteNum := by
  obtain ⟨b, l, path, leaf, member⟩ := below
  have apart : a ≠ b := by
    rintro rfl
    rw [here] at leaf
    cases leaf
  exact (path.belongs sound apart here (by simp only [Belongs, leaf]; exact ⟨v, member⟩)).1

theorem below_leaf {a : Addr} {l : L} (here : heap.node a = some (.leaf l)) (k : K) (v : V) :
    Below heap a k v ↔ (k, v) ∈ RadixLeaf.pairs l := by
  constructor
  · rintro ⟨b, other, path, leaf, member⟩
    have same := path.leaf_end here
    subst same
    rw [here] at leaf
    cases leaf
    exact member
  · intro member
    exact ⟨a, l, .refl a, here, member⟩

theorem below_inner {a : Addr} {p : Inner K} (here : heap.node a = some (.inner p)) (k : K)
    (v : V) :
    Below heap a k v ↔ ∃ c, p.child (RadixKey.byte k p.byteNum) = some c ∧ Below heap c k v := by
  constructor
  · rintro ⟨b, l, path, leaf, member⟩
    cases path with
    | refl =>
        rw [here] at leaf
        cases leaf
    | @step _ c _ q there child rest =>
        rw [here] at there
        cases there
        exact ⟨c, child, b, l, rest, leaf, member⟩
  · rintro ⟨c, child, b, l, path, leaf, member⟩
    exact ⟨b, l, .step here child path, leaf, member⟩

end SetBench.Art
