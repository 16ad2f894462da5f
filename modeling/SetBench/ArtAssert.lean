import SetBench.ArtThreads

/-! What a thread knows at each of its steps, and why other threads cannot make it
untrue: headers and leaves never change, and the pointers and the flag of a node change
only under its lock. -/
namespace SetBench.ArtThreads

open Radix KeyVals MapSpec Art

variable {K V : Type} [RadixKey K] {heap after : Heap K (Leaf K V)} {touched : Option Addr}

/-- The fields of an inner node that no step changes. -/
structure SameHeader (p q : Inner K) : Prop where
  layout : q.layout = p.layout
  size : q.size = p.size
  byteNum : q.byteNum = p.byteNum
  key : q.key = p.key
  slots : q.ptr.length = p.ptr.length

/-- Memory after some steps of which only `touched` lost its pointers or its flag. -/
structure Grows (heap after : Heap K (Leaf K V)) (touched : Option Addr) : Prop where
  leaf : ∀ x l, heap.node x = some (.leaf l) → after.node x = some (.leaf l)
  inner : ∀ x p, heap.node x = some (.inner p) → ∃ q, after.node x = some (.inner q) ∧
    SameHeader p q
  same : ∀ x node, heap.node x = some node → touched ≠ some x → after.node x = some node

theorem rewrite_grows {a : Addr} {gone : Option Addr} {New : Leaf K V → Prop}
    (rewrite : Rewrite 2 maxSparseSize heap after a gone New) : Grows heap after (some a) := by
  obtain ⟨p, index, child, was, now⟩ := rewrite.slot
  refine ⟨fun x l here => ?_, fun x q here => ?_, fun x node here other => ?_⟩
  · refine rewrite.same x _ here ?_
    rintro rfl
    rw [was] at here
    cases here
  · by_cases same : x = a
    · subst same
      rw [was] at here
      cases here
      exact ⟨_, now, rfl, rfl, rfl, rfl, List.length_set⟩
    · exact ⟨q, rewrite.same x _ here same, rfl, rfl, rfl, rfl, rfl⟩
  · exact rewrite.same x node here fun same => other (by rw [same])

omit [RadixKey K] in
theorem setRemoved_grows {a : Addr} {p : Inner K} (here : heap.node a = some (.inner p)) :
    Grows heap (heap.setRemoved a) (some a) := by
  refine ⟨fun x l there => (setRemoved_leaf here x l).mpr there, fun x q there => ?_,
    fun x node there other => ?_⟩
  · obtain ⟨flag, now⟩ := setRemoved_inner here there
    exact ⟨_, now, rfl, rfl, rfl, rfl, rfl⟩
  · rw [setRemoved_node here, if_neg fun same => other (by rw [same])]
    exact there

namespace Grows

variable (grows : Grows heap after touched)
include grows

omit [RadixKey K] in
theorem present {x : Addr} {node : Node K (Leaf K V)} (here : heap.node x = some node) :
    ∃ next, after.node x = some next ∧ next.key = node.key ∧ next.byteNum = node.byteNum ∧
      next.isLeaf = node.isLeaf := by
  cases node with
  | leaf l => exact ⟨_, grows.leaf x l here, rfl, rfl, rfl⟩
  | inner p =>
      obtain ⟨q, now, same⟩ := grows.inner x p here
      exact ⟨_, now, same.key, same.byteNum, rfl⟩

theorem parent {p q : Inner K} (same : SameHeader p q) {g : Addr}
    (above : ∃ gp, heap.node g = some (.inner gp) ∧ ∃ index, gp.getChild p.key = some index) :
    ∃ gp, after.node g = some (.inner gp) ∧ ∃ index, gp.getChild q.key = some index := by
  obtain ⟨gp, here, index, found⟩ := above
  obtain ⟨gp', now, header⟩ := grows.inner g gp here
  refine ⟨gp', now, index, ?_⟩
  rw [Inner.getChild, header.layout, header.byteNum, same.key]
  exact found

theorem walk {k : K} {gp : Option Addr} {a : Addr} {bytePos : Nat}
    (walk : ∃ p, Walk heap k gp a bytePos p) :
    ∃ p, Walk after k gp a bytePos p := by
  obtain ⟨p, walk⟩ := walk
  obtain ⟨q, now, same⟩ := grows.inner a p walk.here
  refine ⟨q, now, ?_, ?_, walk.orphan, fun g held => grows.parent same (walk.parent g held)⟩
  · rw [same.key, same.byteNum]
    exact walk.agree
  · rw [same.byteNum]
    exact walk.pos

theorem seen {k : K} {location : Location} (seen : ∃ p, Seen heap k location p) :
    ∃ p, Seen after k location p := by
  obtain ⟨p, seen⟩ := seen
  obtain ⟨q, now, same⟩ := grows.inner location.p p seen.here
  refine ⟨q, now, ?_, ?_, seen.empty, fun c held => ?_, seen.orphan, fun g held => grows.parent same
    (seen.parent g held)⟩
  · rw [same.key, same.byteNum]
    exact seen.agree
  · rw [Inner.getChild, same.layout, same.byteNum]
    exact seen.cptr
  · obtain ⟨child, there, pos, stopped⟩ := seen.stop c held
    obtain ⟨next, now, key, byteNum, kind⟩ := grows.present there
    refine ⟨next, now, ?_, ?_⟩
    · rw [same.byteNum, key, byteNum]
      exact pos
    · rw [kind, byteNum]
      exact stopped

theorem leafFind {k : K} {location : Location} {p : Inner K} (seen : Seen heap k location p) :
    leafFind after location.c k = leafFind heap location.c k := by
  unfold Art.leafFind
  cases held : location.c with
  | none => rfl
  | some c =>
      obtain ⟨child, there, _⟩ := seen.stop c held
      cases child with
      | leaf l => simp only [there, grows.leaf c l there]
      | inner q =>
          obtain ⟨q', now, _⟩ := grows.inner c q there
          simp only [there, now]

omit [RadixKey K] in
theorem flagAt {a : Addr} (apart : touched ≠ some a) {flag : Bool}
    (read : flagAt heap a = some flag) :
    flagAt after a = some flag := by
  unfold ArtThreads.flagAt at read ⊢
  cases here : heap.node a with
  | none =>
      rw [here] at read
      cases read
  | some node =>
      rw [grows.same a node here apart]
      rw [here] at read
      exact read

omit [RadixKey K] in
theorem childAt {a : Addr} (apart : touched ≠ some a) {index : Nat} {child : Option Addr}
    (read : childAt heap a index = some child) : childAt after a index = some child := by
  unfold ArtThreads.childAt at read ⊢
  cases here : heap.node a with
  | none =>
      rw [here] at read
      cases read
  | some node =>
      rw [grows.same a node here apart]
      rw [here] at read
      exact read

theorem parentSlot {g a : Addr} {index : Nat} (found : parentSlot heap g a = some index) :
    parentSlot after g a = some index := by
  unfold ArtThreads.parentSlot at found ⊢
  split at found
  · rename_i gp p above here
    obtain ⟨gp', nowAbove, header⟩ := grows.inner g gp above
    obtain ⟨p', nowHere, same⟩ := grows.inner a p here
    rw [nowAbove, nowHere]
    simp only
    rw [Inner.getChild, header.layout, header.byteNum, same.key]
    exact found
  · cases found

end Grows

/-! The assertions. -/

/-- A search has ended at a slot, and the leaf it saw there calls for a write. -/
def Aimed (heap : Heap K (Leaf K V)) (op : Op K V) (location : Location) : Prop :=
  (∃ p, Seen heap (opKey op) location p) ∧ (∃ index, location.cptr = some index) ∧
  match op with
  | .insert k _ => leafFind heap location.c k = none
  | .remove k => ∃ v, leafFind heap location.c k = some v

/-- A search of an insert has ended at a node without a slot, below `g`. -/
def Extending (heap : Heap K (Leaf K V)) (op : Op K V) (location : Location) (g : Addr) : Prop :=
  (∃ k v, op = .insert k v) ∧ (∃ p, Seen heap (opKey op) location p) ∧ location.cptr = none ∧
  location.gp = some g

def Pointed (heap : Heap K (Leaf K V)) (g a : Addr) : Prop :=
  ∃ index, parentSlot heap g a = some index ∧ childAt heap g index = some (some a)

-- The locks of add_child, the second one taken or re-entered.
def Nested (lockOf : Addr → Nat) (location : Location) (g : Addr) (held : List (Option Nat)) :
    Prop :=
  held = [some (lockOf location.p), some (lockOf g)] ∨
    (held = [none, some (lockOf g)] ∧ lockOf location.p = lockOf g)

theorem Nested.mine {lockOf : Addr → Nat} {location : Location} {g : Addr}
    {held : List (Option Nat)} (nest : Nested lockOf location g held) :
    some (lockOf g) ∈ held ∧ some (lockOf location.p) ∈ held := by
  rcases nest with rfl | ⟨rfl, same⟩
  · simp
  · simp [same]

def Assert (lockOf : Addr → Nat) (heap : Heap K (Leaf K V)) (op : Op K V)
    (held : List (Option Nat)) : Pc V → Prop
  | .find gp p bytePos => held = [] ∧ ∃ q, Walk heap (opKey op) gp p bytePos q
  | .readChild _ _ => held = []
  | .readFlag _ _ => held = []
  | .lock location => held = [] ∧ Aimed heap op location
  | .checkFlag location => held = [some (lockOf location.p)] ∧ Aimed heap op location
  | .checkChild location => held = [some (lockOf location.p)] ∧ Aimed heap op location ∧
      flagAt heap location.p = some false
  | .write location => held = [some (lockOf location.p)] ∧ Aimed heap op location ∧
      flagAt heap location.p = some false ∧
      ∀ index, location.cptr = some index → childAt heap location.p index = some location.c
  | .lockParent location g => held = [] ∧ Extending heap op location g
  | .checkParentFlag location g => held = [some (lockOf g)] ∧ Extending heap op location g
  | .checkParentChild location g => held = [some (lockOf g)] ∧ Extending heap op location g ∧
      flagAt heap g = some false
  | .lockNode location g => held = [some (lockOf g)] ∧ Extending heap op location g ∧
      flagAt heap g = some false ∧ Pointed heap g location.p
  | .mark location g => Nested lockOf location g held ∧ Extending heap op location g ∧
      flagAt heap g = some false ∧ Pointed heap g location.p
  | .copy location g loaded => Nested lockOf location g held ∧ Extending heap op location g ∧
      flagAt heap g = some false ∧ Pointed heap g location.p ∧
      ∃ p, heap.node location.p = some (.inner p) ∧ p.removed = true ∧
        loaded = p.ptr.take loaded.length
  | .unlock _ => True

section Frame

variable (grows : Grows heap after touched) {op : Op K V} {location : Location} {g : Addr}
include grows

theorem Aimed.frame (aimed : Aimed heap op location) : Aimed after op location := by
  obtain ⟨⟨p, seen⟩, slot, answer⟩ := aimed
  refine ⟨grows.seen ⟨p, seen⟩, slot, ?_⟩
  cases op with
  | insert k v => exact (grows.leafFind seen).trans answer
  | remove k =>
      obtain ⟨v, found⟩ := answer
      exact ⟨v, (grows.leafFind seen).trans found⟩

theorem Extending.frame (extending : Extending heap op location g) :
    Extending after op location g :=
  ⟨extending.1, grows.seen extending.2.1, extending.2.2⟩

theorem Pointed.frame {a : Addr} (apart : touched ≠ some g) (pointed : Pointed heap g a) :
    Pointed after g a := by
  obtain ⟨index, slot, child⟩ := pointed
  exact ⟨index, grows.parentSlot slot, grows.childAt apart child⟩

/-- A step that touches no node of the locks a thread holds keeps what it knows. -/
theorem Assert.frame {lockOf : Addr → Nat} {held : List (Option Nat)} {pc : Pc V}
    (other : ∀ a, touched = some a → some (lockOf a) ∉ held)
    (holds : Assert lockOf heap op held pc) :
    Assert lockOf after op held pc := by
  have away {a : Addr} (mine : some (lockOf a) ∈ held) : touched ≠ some a :=
    fun same => other a same mine
  cases pc with
  | find gp p bytePos => exact ⟨holds.1, grows.walk holds.2⟩
  | readChild location answer => exact holds
  | readFlag location answer => exact holds
  | lock location => exact ⟨holds.1, holds.2.frame grows⟩
  | checkFlag location => exact ⟨holds.1, holds.2.frame grows⟩
  | checkChild location =>
      obtain ⟨rfl, aimed, live⟩ := holds
      exact ⟨rfl, aimed.frame grows, grows.flagAt (away (by simp)) live⟩
  | write location =>
      obtain ⟨rfl, aimed, live, child⟩ := holds
      exact ⟨rfl, aimed.frame grows, grows.flagAt (away (by simp)) live,
        fun index cptr => grows.childAt (away (by simp)) (child index cptr)⟩
  | lockParent location g => exact ⟨holds.1, holds.2.frame grows⟩
  | checkParentFlag location g => exact ⟨holds.1, holds.2.frame grows⟩
  | checkParentChild location g =>
      obtain ⟨rfl, extending, live⟩ := holds
      exact ⟨rfl, extending.frame grows, grows.flagAt (away (by simp)) live⟩
  | lockNode location g =>
      obtain ⟨rfl, extending, live, pointed⟩ := holds
      exact ⟨rfl, extending.frame grows, grows.flagAt (away (by simp)) live,
        pointed.frame grows (away (by simp))⟩
  | mark location g =>
      obtain ⟨nest, extending, live, pointed⟩ := holds
      exact ⟨nest, extending.frame grows, grows.flagAt (away nest.mine.1) live,
        pointed.frame grows (away nest.mine.1)⟩
  | copy location g loaded =>
      obtain ⟨nest, extending, live, pointed, p, here, marked, copied⟩ := holds
      exact ⟨nest, extending.frame grows, grows.flagAt (away nest.mine.1) live,
        pointed.frame grows (away nest.mine.1), p, grows.same _ _ here (away nest.mine.2), marked,
          copied⟩
  | unlock answer => trivial

end Frame

end SetBench.ArtThreads
