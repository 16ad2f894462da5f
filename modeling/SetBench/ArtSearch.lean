import SetBench.ArtTree

/-! find_location on a sound heap. What a search has seen of headers and layouts stays
true whatever other threads store; the pointers it followed are facts of one moment. -/
namespace SetBench.Art

open Radix

variable {K V L : Type} [RadixKey K] [RadixLeaf K V L] {least maxSparse : Nat} {heap : Heap K L}

/-- The facts about a location that no later store can change. -/
structure Seen (heap : Heap K L) (k : K) (location : Location) (p : Inner K) : Prop where
  here : heap.node location.p = some (.inner p)
  agree : Agree k p.key p.byteNum
  cptr : location.cptr = p.getChild k
  empty : location.cptr = none → location.c = none
  stop : ∀ c, location.c = some c → ∃ child, heap.node c = some child ∧
    location.bytePos = matchBytes k child.key (p.byteNum + 1) child.byteNum ∧
    (child.isLeaf = true ∨ location.bytePos ≠ child.byteNum)
  orphan : location.gp = none → location.p = root
  parent : ∀ g, location.gp = some g → ∃ gp, heap.node g = some (.inner gp) ∧
    ∃ index, gp.getChild p.key = some index

/-- Where find_location stops: at the last inner node on the path of `k` whose prefix
agrees with `k`, with its parent and the child in the slot of `k`. -/
structure Located (heap : Heap K L) (k : K) (location : Location) (p : Inner K) : Prop
    extends Seen heap k location p where
  path : Path heap k root location.p
  child : location.c = p.child (RadixKey.byte k p.byteNum)
  above : ∀ g, location.gp = some g → ∃ gp, heap.node g = some (.inner gp) ∧
    Path heap k root g ∧ gp.child (RadixKey.byte p.key gp.byteNum) = some location.p

theorem fits_inner_agree {p q : Inner K} {k : K}
    (fits : Fits p (RadixKey.byte k p.byteNum) (.inner q : Node K L))
    (agree : Agree k p.key p.byteNum) : Agree k q.key (p.byteNum + 1) :=
  (agree.trans fits.1.symm).succ fits.2.1.symm

/-- The facts that hold at the top of the loop of find_location, at any later moment too. -/
structure Walk (heap : Heap K L) (k : K) (gp : Option Addr) (a : Addr) (bytePos : Nat)
    (p : Inner K) : Prop where
  here : heap.node a = some (.inner p)
  agree : Agree k p.key p.byteNum
  pos : bytePos = p.byteNum
  orphan : gp = none → a = root
  parent : ∀ g, gp = some g → ∃ gp, heap.node g = some (.inner gp) ∧
    ∃ index, gp.getChild p.key = some index

theorem walk_root (sound : Sound least maxSparse heap) (k : K) :
    ∃ p, Walk heap k none root 0 p := by
  obtain ⟨p, here, _, zero, _⟩ := sound.top
  exact ⟨p, here, by rw [zero]; exact Agree.zero _ _, zero.symm, fun _ => rfl, by simp⟩

/-- What one round of the loop makes of the node it stands at. -/
def Stepped (heap : Heap K L) (k : K) (gp : Option Addr) (a : Addr) (p : Inner K) :
    Location ⊕ (Addr × Nat) → Prop
  | .inl location => Seen heap k location p ∧ location.gp = gp ∧ location.p = a ∧
      location.c = p.child (RadixKey.byte k p.byteNum)
  | .inr (c, pos) =>
      ∃ q, Walk heap k (some a) c pos q ∧ p.child (RadixKey.byte k p.byteNum) = some c ∧
      p.byteNum < q.byteNum

theorem findStep_stepped (sound : Sound least maxSparse heap) {k : K} {gp : Option Addr}
    {a : Addr} {bytePos : Nat} {p : Inner K} (walk : Walk heap k gp a bytePos p) :
    ∃ result, findStep heap k gp a bytePos = some result ∧ Stepped heap k gp a p result := by
  obtain ⟨here, agree, rfl, top, parent⟩ := walk
  simp only [findStep, here]
  cases slot : p.getChild k with
  | none =>
      refine ⟨_, rfl, ⟨here, agree, slot.symm, fun _ => rfl, by simp, top, parent⟩, rfl, rfl, ?_⟩
      exact (Inner.child_of_none slot).symm
  | some index =>
      have content := Inner.child_of_find slot
      cases held : p.ptr.getD index none with
      | none =>
          simp only [held]
          refine ⟨_, rfl, ⟨here, agree, slot.symm, fun _ => rfl, by simp, top, parent⟩, rfl,
            rfl, ?_⟩
          rw [content, held]
      | some c =>
          rw [held] at content
          obtain ⟨child, there, fits⟩ := sound.edge a p _ c here (RadixKey.byte_lt _ _) content
          simp only [held, there]
          by_cases stopped : matchBytes k child.key (p.byteNum + 1) child.byteNum ≠ child.byteNum ∨
              child.isLeaf = true
          · rw [if_pos stopped]
            refine ⟨_, rfl, ⟨here, agree, slot.symm, by simp, ?_, top, parent⟩, rfl, rfl,
              content.symm⟩
            rintro _ ⟨⟩
            exact ⟨child, there, rfl, stopped.symm⟩
          · rw [if_neg stopped]
            push Not at stopped
            obtain ⟨same, inner⟩ := stopped
            cases child with
            | leaf l => exact absurd rfl inner
            | inner q =>
                have next := matchBytes_agree k q.key q.byteNum (fits_inner_agree fits agree)
                simp only [Node.key, Node.byteNum] at same ⊢
                rw [same] at next
                refine ⟨_, rfl, q, ⟨there, next, same, by simp, ?_⟩, content, fits.2.2⟩
                rintro _ ⟨⟩
                refine ⟨p, here, index, ?_⟩
                rw [← slot, Inner.getChild, Inner.getChild, next p.byteNum fits.2.2]

-- The induction is on the fuel; each round goes at least one byte deeper.
theorem findLoop_located (sound : Sound least maxSparse heap) {k : K} (fuel : Nat)
    {gp : Option Addr} {a : Addr} {bytePos : Nat} {p : Inner K}
    (walk : Walk heap k gp a bytePos p) (path : Path heap k root a)
    (enough : RadixKey.size K < fuel + p.byteNum)
    (above : ∀ g, gp = some g → ∃ gp, heap.node g = some (.inner gp) ∧ Path heap k root g ∧
      gp.child (RadixKey.byte p.key gp.byteNum) = some a) :
    ∃ location q, findLoop heap k fuel gp a bytePos = some location ∧
      Located heap k location q := by
  induction fuel generalizing gp a bytePos p with
  | zero =>
      have := (sound.ok a p walk.here).2
      omega
  | succ fuel ih =>
      obtain ⟨result, step, stepped⟩ := findStep_stepped sound walk
      simp only [findLoop, step]
      cases result with
      | inl location =>
          obtain ⟨seen, rfl, rfl, child⟩ := stepped
          exact ⟨location, p, rfl, seen, path, child, above⟩
      | inr next =>
          obtain ⟨q, further, child, deeper⟩ := stepped
          refine ih further (path.snoc walk.here child) (by omega) ?_
          rintro _ ⟨⟩
          refine ⟨p, walk.here, path, ?_⟩
          rw [← further.agree p.byteNum deeper]
          exact child

theorem findLocation_located (sound : Sound least maxSparse heap) (k : K) :
    ∃ location p, findLocation heap k = some location ∧ Located heap k location p := by
  obtain ⟨p, walk⟩ := walk_root sound k
  exact findLoop_located sound (RadixKey.size K + 1) walk (.refl root) (by omega) (by simp)

theorem Located.reach {k : K} {location : Location} {p : Inner K}
    (sound : Sound least maxSparse heap) (located : Located heap k location p) :
    Path heap p.key root location.p :=
  located.path.follow sound (by simp only [Belongs, located.here]; exact Agree.refl _ _)

-- An inner node where the search stopped has a prefix that `k` leaves.
theorem Seen.parts {k : K} {location : Location} {p q : Inner K} {c : Addr}
    (seen : Seen heap k location p) (held : location.c = some c)
    (there : heap.node c = some (.inner q))
    (fits : Fits p (RadixKey.byte k p.byteNum) (.inner q : Node K L)) :
    Parts k q.key location.bytePos ∧ location.bytePos < q.byteNum := by
  obtain ⟨child, present, pos, stopped⟩ := seen.stop c held
  rw [there] at present
  cases present
  have agree := fits_inner_agree fits seen.agree
  have within := (matchBytes_le k q.key (Nat.succ_le_of_lt fits.2.2)).2
  simp only [Node.isLeaf, Bool.false_eq_true, false_or, Node.key, Node.byteNum] at pos stopped
  rw [pos] at stopped ⊢
  have early := lt_of_le_of_ne within stopped
  exact ⟨matchBytes_parts k q.key agree early, early⟩

/-- While the node of a location is reachable and its slot unchanged, the leaf in the
slot answers for `k`. -/
theorem Seen.below {k : K} {location : Location} {p : Inner K} (sound : Sound least maxSparse heap)
    (seen : Seen heap k location p) (reach : Path heap p.key root location.p)
    (child : location.c = p.child (RadixKey.byte k p.byteNum)) (v : V) :
    Below heap root k v ↔ ∃ c l, location.c = some c ∧ heap.node c = some (.leaf l) ∧
      (k, v) ∈ RadixLeaf.pairs l := by
  have belongs : Belongs heap location.p k := by
    simp only [Belongs, seen.here]
    exact seen.agree
  rw [below_at (reach.follow sound belongs) seen.here, below_inner seen.here, ← child]
  constructor
  · rintro ⟨c, held, below⟩
    obtain ⟨node, there, fits⟩ := sound.edge location.p p _ c seen.here (RadixKey.byte_lt k _)
      (child ▸ held)
    cases node with
    | leaf l => exact ⟨c, l, held, there, (below_leaf there k v).mp below⟩
    | inner q =>
        obtain ⟨parts, early⟩ := seen.parts held there fits
        exact absurd (below.agree sound there _ early) parts.2
  · rintro ⟨c, l, held, there, member⟩
    exact ⟨c, held, (below_leaf there k v).mpr member⟩

end SetBench.Art
