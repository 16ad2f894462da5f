import SetBench.ArtQuery

/-! The part of a tree that a range can meet: the nodes below slots whose byte, after the
prefix above it, a key between the bounds may have. A range query and the searches for the
keys of the range see no other node, so the rest of the tree need not be sound. -/
namespace SetBench.Art

open Radix

variable {K V L : Type} [RadixKey K]

/-- Neither bound leaves the first `n` bytes of `key` on the wrong side. -/
structure Overlaps (lo hi key : K) (n : Nat) : Prop where
  low : ∀ j < n, Parts lo key j → RadixKey.byte lo j < RadixKey.byte key j
  high : ∀ j < n, Parts hi key j → RadixKey.byte key j < RadixKey.byte hi j

def Inner.Between (p : Inner K) (lo hi : K) (b : Nat) : Prop :=
  (Agree lo p.key p.byteNum → RadixKey.byte lo p.byteNum ≤ b) ∧
    (Agree hi p.key p.byteNum → b ≤ RadixKey.byte hi p.byteNum)

open Classical in
/-- The node with the slots of the range only. -/
noncomputable def Inner.clip (lo hi : K) (p : Inner K) : Inner K :=
  if Overlaps lo hi p.key p.byteNum then
    { p with
      ptr := p.ptr.mapIdx fun i c =>
        if ∃ b < 256, p.layout.find b = some i ∧ p.Between lo hi b then c else none }
  else ⟨.full, 0, p.byteNum, p.key, List.replicate 256 none, p.removed⟩

noncomputable def Node.clip (lo hi : K) : Node K L → Node K L
  | .inner p => .inner (p.clip lo hi)
  | .leaf l => .leaf l

inductive Met (heap : Heap K L) (lo hi : K) : Addr → Prop where
  | root : Met heap lo hi root
  | step {a c : Addr} {p : Inner K} {b : Nat} (above : Met heap lo hi a)
    (here : heap.node a = some (.inner p)) (inside : b < 256)
    (child : (p.clip lo hi).child b = some c) : Met heap lo hi c

open Classical in
noncomputable def Heap.clip (heap : Heap K L) (lo hi : K) : Heap K L :=
  { heap with
    node := fun a => if Met heap lo hi a then (heap.node a).map (Node.clip lo hi) else none }

section Nodes

variable {lo hi : K} {p : Inner K}

@[simp] theorem Inner.clip_key : (p.clip lo hi).key = p.key := by
  unfold Inner.clip
  split <;> rfl

@[simp] theorem Inner.clip_byteNum : (p.clip lo hi).byteNum = p.byteNum := by
  unfold Inner.clip
  split <;> rfl

@[simp] theorem Inner.clip_removed : (p.clip lo hi).removed = p.removed := by
  unfold Inner.clip
  split <;> rfl

theorem Inner.clip_layout (overlaps : Overlaps lo hi p.key p.byteNum) :
    (p.clip lo hi).layout = p.layout ∧ (p.clip lo hi).size = p.size := by
  unfold Inner.clip
  rw [if_pos overlaps]
  exact ⟨rfl, rfl⟩

theorem Inner.clip_ok {least maxSparse : Nat} (ok : p.Ok least maxSparse) :
    (p.clip lo hi).Ok least maxSparse := by
  unfold Inner.clip
  split
  · rw [Inner.Ok, List.length_mapIdx]
    exact ok
  · exact List.length_replicate

-- A slot of the range keeps its pointer.
theorem Inner.clip_ptr (overlaps : Overlaps lo hi p.key p.byteNum) {i b : Nat} (inside : b < 256)
    (found : p.layout.find b = some i) (between : p.Between lo hi b) :
    (p.clip lo hi).ptr.getD i none = p.ptr.getD i none := by
  unfold Inner.clip
  rw [if_pos overlaps, List.getD_eq_getElem?_getD, List.getD_eq_getElem?_getD,
    List.getElem?_mapIdx]
  cases p.ptr[i]? with
  | none => rfl
  | some c =>
      have kept : ∃ b < 256, p.layout.find b = some i ∧ p.Between lo hi b :=
        ⟨b, inside, found, between⟩
      simp only [Option.map_some, if_pos kept]

theorem Inner.clip_child {b : Nat} (inside : b < 256) (overlaps : Overlaps lo hi p.key p.byteNum)
    (between : p.Between lo hi b) : (p.clip lo hi).child b = p.child b := by
  have same := (Inner.clip_layout overlaps).1
  cases found : p.layout.find b with
  | none =>
      rw [Inner.child_of_none found, Inner.child_of_none (by rw [same]; exact found)]
  | some i =>
      rw [Inner.child_of_find found, Inner.child_of_find (by rw [same]; exact found),
        Inner.clip_ptr overlaps inside found between]

theorem Inner.child_of_clip {b : Nat} {c : Addr} (child : (p.clip lo hi).child b = some c) :
    p.child b = some c := by
  by_cases overlaps : Overlaps lo hi p.key p.byteNum
  · have same := (Inner.clip_layout overlaps).1
    cases found : p.layout.find b with
    | none =>
        rw [Inner.child_of_none (by rw [same]; exact found)] at child
        cases child
    | some i =>
        rw [Inner.child_of_find (by rw [same]; exact found), Inner.clip, if_pos overlaps,
          List.getD_eq_getElem?_getD, List.getElem?_mapIdx] at child
        rw [Inner.child_of_find found, List.getD_eq_getElem?_getD]
        cases held : p.ptr[i]? with
        | none => simp [held] at child
        | some slot =>
            simp only [held, Option.map_some, Option.getD_some] at child ⊢
            split at child
            · exact child
            · cases child
  · -- no slot of a node outside of the range is left
    have empty (i : Nat) : (List.replicate 256 (none : Option Addr)).getD i none = none := by
      rw [List.getD_eq_getElem?_getD, List.getElem?_replicate]
      split <;> rfl
    rw [Inner.clip, if_neg overlaps, Inner.child_of_find (find_full b), empty] at child
    cases child

theorem Bounds.overlaps {key : K} {n : Nat} {start stop : Option K}
    (bounds : Bounds lo hi key n n start stop) : Overlaps lo hi key n := by
  constructor
  · intro j below parts
    cases start with
    | some s =>
        obtain ⟨rfl, agree⟩ := bounds.low
        exact absurd (agree j below) parts.2
    | none =>
        obtain ⟨place, _, parts', less⟩ := bounds.low
        rw [parts.unique parts']
        exact less
  · intro j below parts
    cases stop with
    | some e =>
        obtain ⟨rfl, agree⟩ := bounds.high
        exact absurd (agree j below) parts.2
    | none =>
        obtain ⟨place, _, parts', less⟩ := bounds.high
        rw [parts.unique parts']
        exact less

theorem Bounds.between {start stop : Option K}
    (bounds : Bounds lo hi p.key p.byteNum p.byteNum start stop) {b : Nat}
    (least : start.elim 0 (fun s => RadixKey.byte s p.byteNum) ≤ b)
    (most : b ≤ stop.elim 255 fun e => RadixKey.byte e p.byteNum) : p.Between lo hi b := by
  constructor
  · intro agree
    cases start with
    | some s =>
        obtain ⟨rfl, _⟩ := bounds.low
        exact least
    | none =>
        obtain ⟨place, below, parts, _⟩ := bounds.low
        exact absurd (agree place below) parts.2
  · intro agree
    cases stop with
    | some e =>
        obtain ⟨rfl, _⟩ := bounds.high
        exact most
    | none =>
        obtain ⟨place, below, parts, _⟩ := bounds.high
        exact absurd (agree place below) parts.2

theorem overlaps_of_agree {x key : K} {n : Nat} (agree : Agree x key n) (low : lo ≤ x)
    (high : x ≤ hi) :
    Overlaps lo hi key n := by
  constructor
  · intro j below parts
    have parts := parts_of_agree parts agree below
    rw [← agree j below]
    exact lt_of_le_of_ne (parts.1.byte_le_of_le low) parts.2
  · intro j below parts
    have parts := parts_of_agree parts agree below
    rw [← agree j below]
    exact lt_of_le_of_ne (parts.1.symm.byte_le_of_le high) (Ne.symm parts.2)

theorem between_of_agree {x : K} (agree : Agree x p.key p.byteNum) (low : lo ≤ x) (high : x ≤ hi) :
    p.Between lo hi (RadixKey.byte x p.byteNum) :=
  ⟨fun shared => (shared.trans agree.symm).byte_le_of_le low,
    fun shared => (agree.trans shared.symm).byte_le_of_le high⟩

-- The loops of range_internal read slots of the range only.
theorem Inner.clip_window {least maxSparse : Nat} (ok : (p.clip lo hi).Ok least maxSparse)
    {start stop : Option K} (bounds : Bounds lo hi p.key p.byteNum p.byteNum start stop) :
    (p.clip lo hi).window (start.elim 0 fun s => RadixKey.byte s p.byteNum)
        (stop.elim 255 fun e => RadixKey.byte e p.byteNum) =
      p.window (start.elim 0 fun s => RadixKey.byte s p.byteNum)
        (stop.elim 255 fun e => RadixKey.byte e p.byteNum) := by
  have overlaps := bounds.overlaps
  obtain ⟨layout, size⟩ := Inner.clip_layout overlaps
  have limit : (stop.elim 255 fun e => RadixKey.byte e p.byteNum) < 256 := by
    cases stop with
    | none => exact Nat.lt_succ_self 255
    | some e => exact RadixKey.byte_lt _ _
  rw [Inner.Ok, layout, size] at ok
  unfold Inner.window
  rw [layout, size]
  cases kind : p.layout with
  | full =>
      refine List.map_congr_left fun b member => ?_
      have range : _ ∧ _ := List.mem_range'_1.mp member
      refine Inner.clip_ptr overlaps (b := b) (by omega) (by rw [kind, find_full]) ?_
      exact bounds.between range.1 (by omega)
  | indirect bitmap =>
      refine List.map_congr_left fun b member => ?_
      obtain ⟨listed, set⟩ := List.mem_filter.mp member
      have range : _ ∧ _ := List.mem_range'_1.mp listed
      refine Inner.clip_ptr overlaps (b := b) (by omega) (by rw [kind, Layout.find, if_pos set]) ?_
      exact bounds.between range.1 (by omega)
  | sparse keys =>
      rw [kind] at ok
      obtain ⟨_, length, nodup, _⟩ := ok
      refine List.map_congr_left fun i member => ?_
      obtain ⟨listed, kept⟩ := List.mem_filter.mp member
      have below := List.mem_range.mp listed
      have here : keys[i]? = some (keys.getD i 0) := by
        rw [List.getD_eq_getElem?_getD, List.getElem?_eq_getElem (by omega), Option.getD_some]
      simp only [decide_eq_true_eq] at kept
      refine Inner.clip_ptr overlaps (b := keys.getD i 0) (by omega) ?_
        (bounds.between kept.1 kept.2)
      rw [kind]
      exact find_sparse_of_get nodup here

end Nodes

section Heaps

variable {heap : Heap K L} {lo hi : K}

theorem clip_node {a : Addr} {node : Node K L} :
    (heap.clip lo hi).node a = some node ↔
      Met heap lo hi a ∧ ∃ whole, heap.node a = some whole ∧ whole.clip lo hi = node := by
  simp only [Heap.clip]
  split
  · rename_i met
    simp [met]
  · rename_i unmet
    simp [unmet]

theorem clip_inner {a : Addr} {q : Inner K} :
    (heap.clip lo hi).node a = some (.inner q) ↔
      Met heap lo hi a ∧ ∃ p, heap.node a = some (.inner p) ∧ p.clip lo hi = q := by
  rw [clip_node]
  refine and_congr_right fun _ => ⟨?_, ?_⟩
  · rintro ⟨whole, here, same⟩
    cases whole with
    | inner p =>
        cases same
        exact ⟨p, here, rfl⟩
    | leaf l => cases same
  · rintro ⟨p, here, rfl⟩
    exact ⟨_, here, rfl⟩

theorem clip_leaf {a : Addr} {l : L} :
    (heap.clip lo hi).node a = some (.leaf l) ↔ Met heap lo hi a ∧ heap.node a =
    some (.leaf l) := by
  rw [clip_node]
  refine and_congr_right fun _ => ⟨?_, fun here => ⟨_, here, rfl⟩⟩
  rintro ⟨whole, here, same⟩
  cases whole with
  | inner p => cases same
  | leaf m =>
      cases same
      exact here

variable [RadixLeaf K V L] {least maxSparse : Nat}

theorem Fits.clip {p : Inner K} {b : Nat} {node : Node K L} (fits : Fits p b node) :
    Fits (p.clip lo hi) b (node.clip lo hi) := by
  cases node with
  | inner q => simpa [Fits, Node.clip] using fits
  | leaf l => simpa [Fits, Node.clip] using fits

/-- In a sound tree the part of every range is sound. -/
theorem Sound.clip (sound : Sound least maxSparse heap) (lo hi : K) :
    Sound least maxSparse (heap.clip lo hi) := by
  refine ⟨fun a present => ?_, fun a q here => ?_, fun a q b c here inside child => ?_, ?_⟩
  · obtain ⟨node, here⟩ := Option.ne_none_iff_exists'.mp present
    obtain ⟨_, whole, there, _⟩ := clip_node.mp here
    exact sound.allocated a (by rw [there]; simp)
  · obtain ⟨_, p, there, rfl⟩ := clip_inner.mp here
    obtain ⟨ok, short⟩ := sound.ok a p there
    exact ⟨Inner.clip_ok ok, by rw [Inner.clip_byteNum]; exact short⟩
  · obtain ⟨met, p, there, rfl⟩ := clip_inner.mp here
    obtain ⟨node, present, fits⟩ := sound.edge a p b c there inside (Inner.child_of_clip child)
    exact ⟨node.clip lo hi, clip_node.mpr ⟨.step met there inside child, node, present, rfl⟩,
      fits.clip⟩
  · obtain ⟨p, here, full, zero, live⟩ := sound.top
    have overlaps : Overlaps lo hi p.key p.byteNum := by
      rw [zero]
      exact ⟨fun _ below => absurd below (Nat.not_lt_zero _),
        fun _ below => absurd below (Nat.not_lt_zero _)⟩
    refine ⟨p.clip lo hi, clip_inner.mpr ⟨.root, p, here, rfl⟩, ?_, ?_, ?_⟩
    · rw [(Inner.clip_layout overlaps).1]
      exact full
    · rw [Inner.clip_byteNum]
      exact zero
    · rw [Inner.clip_removed]
      exact live

/-! What a range query and the searches for its keys make of the part is what they make of
the tree. -/

variable (sound : Sound least maxSparse (heap.clip lo hi))
include sound

omit [RadixKey K] [RadixLeaf K V L] sound in
theorem collect_congr {α : Type} {call call' : Option Addr → Option (List α)}
    {children : List (Option Addr)} (same : ∀ c ∈ children, call c = call' c) :
    collect call children = collect call' children := by
  induction children with
  | nil => rfl
  | cons c rest ih =>
      rw [collect, collect, same c (.head _), ih fun d member => same d (.tail _ member)]

theorem rangeInternal_clip (fuel : Nat) {a : Addr} {node : Node K L}
    (here : (heap.clip lo hi).node a = some node) {start stop : Option K} {pos : Nat}
    (ready : Ready lo hi start stop pos node) :
    rangeInternal heap fuel (some a) start stop pos =
      rangeInternal (heap.clip lo hi) fuel (some a) start stop pos := by
  induction fuel generalizing a node start stop pos with
  | zero => rfl
  | succ fuel ih =>
      cases node with
      | leaf l => rw [rangeInternal, rangeInternal, here, (clip_leaf.mp here).2]
      | inner q =>
          obtain ⟨met, p, there, rfl⟩ := clip_inner.mp here
          obtain ⟨bounds, deeper⟩ := ready
          rw [rangeInternal, rangeInternal, here, there]
          simp only [Inner.clip_key, Inner.clip_byteNum] at bounds deeper ⊢
          cases done : boundsLoop p.key (p.byteNum - pos) pos start stop with
          | none => rfl
          | some left =>
              obtain ⟨start', stop'⟩ := left
              have after := (boundsLoop_spec bounds (Nat.add_sub_cancel' deeper)).2 _ _ done
              have ok := (sound.ok a _ here).1
              have window := Inner.clip_window ok after
              simp only
              rw [← window]
              obtain ⟨bytes, listed, _, range, _⟩ := Inner.window_spec ok
                (start'.elim 0 fun s => RadixKey.byte s p.byteNum)
                (stop'.elim 255 fun e => RadixKey.byte e p.byteNum)
              refine collect_congr fun c member => ?_
              rw [listed] at member
              obtain ⟨b, byte, rfl⟩ := List.mem_map.mp member
              have inside : b < 256 := by
                have most := (range b byte).2
                cases stop' with
                | none => exact Nat.lt_succ_of_le most
                | some e => exact most.trans_lt (RadixKey.byte_lt e p.byteNum)
              cases child : (p.clip lo hi).child b with
              | none => simp [rangeInternal]
              | some c =>
                  obtain ⟨node, present, ready', _⟩ := Bounds.ready sound here
                    (by simpa using after) inside child
                  rw [Inner.clip_byteNum] at ready'
                  exact ih present ready'

theorem range_clip : range_ (heap.clip lo hi) lo hi = range_ heap lo hi := by
  obtain ⟨q, here, _, zero, _⟩ := sound.top
  have ready : Ready lo hi (some lo) (some hi) 0 (.inner q : Node K L) :=
    ⟨⟨⟨rfl, Agree.zero _ _⟩, ⟨rfl, Agree.zero _ _⟩⟩, Nat.zero_le _⟩
  exact (rangeInternal_clip sound _ here ready).symm

variable {k : K} (low : lo ≤ k) (high : k ≤ hi)
include low high

theorem findStep_clip {gp : Option Addr} {a : Addr} {bytePos : Nat} {q : Inner K}
    (walk : Walk (heap.clip lo hi) k gp a bytePos q) :
    findStep heap k gp a bytePos = findStep (heap.clip lo hi) k gp a bytePos := by
  obtain ⟨here, agree, _, _, _⟩ := walk
  obtain ⟨met, p, there, rfl⟩ := clip_inner.mp here
  rw [Inner.clip_key, Inner.clip_byteNum] at agree
  have overlaps := overlaps_of_agree agree low high
  have between := between_of_agree agree low high
  have inside := RadixKey.byte_lt k p.byteNum
  have slots : (p.clip lo hi).getChild k = p.getChild k := by
    rw [Inner.getChild, Inner.getChild, (Inner.clip_layout overlaps).1, Inner.clip_byteNum]
  simp only [findStep, here, there, slots]
  cases slot : p.getChild k with
  | none => rfl
  | some index =>
      have ptr := Inner.clip_ptr overlaps inside slot between
      simp only [ptr]
      cases held : p.ptr.getD index none with
      | none => rfl
      | some c =>
          have child : (p.clip lo hi).child (RadixKey.byte k p.byteNum) = some c := by
            rw [Inner.clip_child inside overlaps between, Inner.child_of_find slot, held]
          obtain ⟨node, present, _⟩ := sound.edge a _ _ c here inside child
          obtain ⟨_, whole, there', rfl⟩ := clip_node.mp present
          simp only [present, there']
          cases whole with
          | inner r => simp [Node.clip, Node.key, Node.byteNum, Node.isLeaf]
          | leaf l => rfl

theorem findLoop_clip (fuel : Nat) {gp : Option Addr} {a : Addr} {bytePos : Nat} {q : Inner K}
    (walk : Walk (heap.clip lo hi) k gp a bytePos q) :
    findLoop heap k fuel gp a bytePos = findLoop (heap.clip lo hi) k fuel gp a bytePos := by
  induction fuel generalizing gp a bytePos q with
  | zero => rfl
  | succ fuel ih =>
      obtain ⟨result, step, stepped⟩ := findStep_stepped sound walk
      rw [findLoop, findLoop, findStep_clip sound low high walk, step]
      cases result with
      | inl location => rfl
      | inr next =>
          obtain ⟨r, further, _⟩ := stepped
          exact ih further

theorem findLocation_clip : findLocation (heap.clip lo hi) k = findLocation heap k := by
  obtain ⟨q, walk⟩ := walk_root sound k
  exact (findLoop_clip sound low high _ walk).symm

/-- A search of the range ends at the same node in the part. -/
theorem located_clip : ∃ location q, findLocation heap k = some location ∧
    findLocation (heap.clip lo hi) k = some location ∧
    Located (heap.clip lo hi) k location q ∧
    ∀ c, location.c = some c → Met heap lo hi c := by
  obtain ⟨location, q, found, located⟩ := findLocation_located sound k
  refine ⟨location, q, ?_, found, located, fun c held => ?_⟩
  · rw [← findLocation_clip sound low high]
    exact found
  · obtain ⟨child, present, _⟩ := located.stop c held
    exact (clip_node.mp present).1

end Heaps

section Reached

variable {heap : Heap K L} {lo hi : K}

omit [RadixKey K] in
theorem Reach.snoc {part : Heap K L} {a b c : Addr} {p : Inner K} {byteval : Nat}
    (reach : Reach part a b) (here : part.node b = some (.inner p)) (inside : byteval < 256)
    (child : p.child byteval = some c) : Reach part a c := by
  induction reach with
  | refl => exact .step here inside child (.refl _)
  | step there below next _ ih => exact .step there below next (ih here)

theorem Met.reach {b : Addr} (met : Met heap lo hi b) : Reach (heap.clip lo hi) Art.root b := by
  induction met with
  | root => exact .refl _
  | step above here inside child ih =>
      exact ih.snoc (clip_inner.mpr ⟨above, _, here, rfl⟩) inside child

/-- The leaves that the range meets are those of the part. -/
theorem met_leaf {b : Addr} {l : L} :
    (Met heap lo hi b ∧ heap.node b = some (.leaf l)) ↔
      Reach (heap.clip lo hi) root b ∧ (heap.clip lo hi).node b = some (.leaf l) := by
  rw [clip_leaf]
  exact ⟨fun both => ⟨both.1.reach, both⟩, And.right⟩

end Reached

end SetBench.Art
