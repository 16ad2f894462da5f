import SetBench.ArtContents

/-! range_internal, for any type of leaves: which leaves the recursion reaches and with which
bounds. What is done at a leaf differs between art.h and its variants and is left to them. -/
namespace SetBench.Art

open Bitmap Radix

variable {K V L : Type} [RadixKey K]

-- The loop over the bytes up to byte_num, with `count` rounds to go: its return, or the bounds
-- it leaves.
def boundsLoop (key : K) : Nat → Nat → Option K → Option K → Option (Option K × Option K)
  | 0, _, start, stop => some (start, stop)
  | count + 1, i, start, stop =>
      if start.isNone ∧ stop.isNone then some (start, stop)
      else if start.any (fun s => RadixKey.byte key i < RadixKey.byte s i) ∨
        stop.any (fun e => RadixKey.byte e i < RadixKey.byte key i) then none
      else
        boundsLoop key count (i + 1)
          (start.filter fun s => ¬ RadixKey.byte s i < RadixKey.byte key i)
          (stop.filter fun e => ¬ RadixKey.byte key i < RadixKey.byte e i)

/-- The children that the three loops of range_internal call it with, in their order. -/
def Inner.window (p : Inner K) (sb eb : Nat) : List (Option Addr) :=
  match p.layout with
  | .full => (List.range' sb (eb + 1 - sb)).map fun i => p.ptr.getD i none
  | .indirect bitmap =>
      ((List.range' sb (eb + 1 - sb)).filter fun i => hasBit bitmap (wordIdxAndBit i)).map fun i =>
        p.ptr.getD (onesToLeft bitmap (wordIdxAndBit i)) none
  | .sparse keys =>
      ((List.range p.size).filter fun i => sb ≤ keys.getD i 0 ∧ keys.getD i 0 ≤ eb).map fun i =>
      p.ptr.getD i none

/-- A call on a leaf. -/
structure Visit (K : Type) where
  leaf : Addr
  start : Option K
  stop : Option K
  pos : Nat
  deriving DecidableEq

def collect {α : Type} (call : Option Addr → Option (List α)) : List (Option Addr) → Option (List α)
  | [] => some []
  | c :: rest => (call c).bind fun first => (collect call rest).map (first ++ ·)

def rangeInternal (heap : Heap K L) :
    Nat → Option Addr → Option K → Option K → Nat → Option (List (Visit K))
  | _, none, _, _, _ => some []
  | 0, some _, _, _, _ => none
  | fuel + 1, some a, start, stop, pos =>
      match heap.node a with
      | none => none
      | some (.leaf _) => some [⟨a, start, stop, pos⟩]
      | some (.inner p) =>
          match boundsLoop p.key (p.byteNum - pos) pos start stop with
          | none => some []
          | some (start, stop) =>
              let sb := start.elim 0 fun s => RadixKey.byte s p.byteNum
              let eb := stop.elim 255 fun e => RadixKey.byte e p.byteNum
              collect (fun c => rangeInternal heap fuel c start stop p.byteNum) (p.window sb eb)

-- The depth of the recursion is bounded by the number of bytes, as in find_location.
def range_ (heap : Heap K L) (lo hi : K) : Option (List (Visit K)) :=
  rangeInternal heap (RadixKey.size K + 1) (some root) (some lo) (some hi) 0

theorem collect_eq {α : Type} {call : Option Addr → Option (List α)}
    (result : Option Addr → List α) {children : List (Option Addr)}
    (returns : ∀ c ∈ children, call c = some (result c)) :
    collect call children = some (children.flatMap result) := by
  induction children with
  | nil => rfl
  | cons c rest ih =>
      rw [collect, returns c (.head _), ih fun d member => returns d (.tail _ member)]
      rfl

/-! The loops over the slots. -/

omit [RadixKey K] in
theorem Inner.window_spec {least maxSparse : Nat} {p : Inner K} (ok : p.Ok least maxSparse)
    (sb eb : Nat) :
    ∃ bytes : List Nat, p.window sb eb = bytes.map p.child ∧ bytes.Nodup ∧
      (∀ b ∈ bytes, sb ≤ b ∧ b ≤ eb) ∧
      ∀ b c, sb ≤ b → b ≤ eb → p.child b = some c → b ∈ bytes := by
  have inside (b : Nat) : b ∈ List.range' sb (eb + 1 - sb) ↔ sb ≤ b ∧ b ≤ eb := by
    rw [List.mem_range'_1]
    omega
  unfold Inner.window
  cases layout : p.layout with
  | full =>
      refine ⟨List.range' sb (eb + 1 - sb), ?_, List.nodup_range', fun b => (inside b).mp,
        fun b c low high _ => (inside b).mpr ⟨low, high⟩⟩
      refine List.map_congr_left fun b _ => ?_
      have found : p.layout.find b = some b := by rw [layout, find_full]
      rw [Inner.child_of_find found]
  | indirect bitmap =>
      refine ⟨(List.range' sb (eb + 1 - sb)).filter fun i => hasBit bitmap (wordIdxAndBit i), ?_,
        List.Nodup.filter _ List.nodup_range', ?_, ?_⟩
      · refine List.map_congr_left fun b member => ?_
        have set := (List.mem_filter.mp member).2
        have found : p.layout.find b = some (onesToLeft bitmap (wordIdxAndBit b)) := by
          rw [layout, Layout.find, if_pos set]
        rw [Inner.child_of_find found]
      · exact fun b member => (inside b).mp (List.mem_filter.mp member).1
      · intro b c low high child
        refine List.mem_filter.mpr ⟨(inside b).mpr ⟨low, high⟩, ?_⟩
        by_contra unset
        rw [Inner.child_of_none (by rw [layout, Layout.find, if_neg unset])] at child
        cases child
  | sparse keys =>
      rw [Inner.Ok, layout] at ok
      obtain ⟨_, length, nodup, _, _, _⟩ := ok
      have here {i : Nat} (below : i < p.size) : keys[i]? = some (keys.getD i 0) := by
        rw [List.getD_eq_getElem?_getD, List.getElem?_eq_getElem (by omega), Option.getD_some]
      have whole : (List.range p.size).map (fun i => keys.getD i 0) = keys := by
        refine List.ext_getElem (by simp [length]) fun i first second => ?_
        simp [List.getD_eq_getElem?_getD, List.getElem?_eq_getElem second]
      refine ⟨((List.range p.size).filter fun i => sb ≤ keys.getD i 0 ∧ keys.getD i 0 ≤ eb).map
        fun i => keys.getD i 0, ?_, ?_, ?_, ?_⟩
      · rw [List.map_map]
        refine List.map_congr_left fun i member => ?_
        have below := List.mem_range.mp (List.mem_filter.mp member).1
        have found : p.layout.find (keys.getD i 0) = some i := by
          rw [layout]
          exact find_sparse_of_get nodup (here below)
        rw [Function.comp, Inner.child_of_find found]
      · rw [← whole] at nodup
        exact nodup.sublist (List.filter_sublist.map _)
      · intro b member
        obtain ⟨i, kept, rfl⟩ := List.mem_map.mp member
        simpa using (List.mem_filter.mp kept).2
      · intro b c low high child
        cases found : p.layout.find b with
        | none =>
            rw [Inner.child_of_none found] at child
            cases child
        | some i =>
            rw [layout] at found
            have held := find_sparse_some found
            have below : i < p.size := by
              rw [← length]
              exact (List.getElem?_eq_some_iff.mp held).1
            have same := held.symm.trans (here below)
            refine List.mem_map.mpr ⟨i, List.mem_filter.mpr ⟨List.mem_range.mpr below, ?_⟩,
              (Option.some.inj same).symm⟩
            rw [← Option.some.inj same]
            simpa using ⟨low, high⟩

/-! What a bound says about the keys with a prefix: a bound that is left agrees with the prefix
so far, and a bound that was dropped lies strictly outside of it. `r` is `<` for start and
`>` for end. -/

def Side (r : Nat → Nat → Prop) (bound key : K) (i n : Nat) : Option K → Prop
  | some s => s = bound ∧ Agree bound key i
  | none => ∃ j < n, Parts bound key j ∧ r (RadixKey.byte bound j) (RadixKey.byte key j)

structure Bounds (lo hi key : K) (i n : Nat) (start stop : Option K) : Prop where
  low : Side (· < ·) lo key i n start
  high : Side (· > ·) hi key i n stop

theorem parts_of_agree {a b c : K} {n j : Nat} (parts : Parts a b j) (agree : Agree c b n)
    (below : j < n) : Parts a c j :=
  ⟨parts.1.trans (agree.symm.mono below.le), by rw [agree j below]; exact parts.2⟩

section Side

variable {r : Nat → Nat → Prop} {bound key other : K} {i n m : Nat} {kept : Option K}

theorem Side.transfer (side : Side r bound key n n kept) (agree : Agree other key n)
    (larger : n ≤ m) :
    Side r bound other n m kept := by
  cases kept with
  | some s => exact ⟨side.1, side.2.trans agree.symm⟩
  | none =>
      obtain ⟨j, below, parts, less⟩ := side
      exact ⟨j, below.trans_le larger, parts_of_agree parts agree below, by
        rw [agree j below]; exact less⟩

theorem Side.step (side : Side r bound key i n kept) (total : ∀ x y, ¬ r x y → ¬ r y x → x = y)
    {test drop : K → Bool}
    (tests : ∀ s, test s = true ↔ r (RadixKey.byte key i) (RadixKey.byte s i))
    (drops : ∀ s, drop s = true ↔ ¬ r (RadixKey.byte s i) (RadixKey.byte key i)) (below : i < n)
    (passed : kept.any test = false) : Side r bound key (i + 1) n (kept.filter drop) := by
  cases kept with
  | none => exact side
  | some s =>
      obtain ⟨rfl, agree⟩ := side
      have notBeyond : ¬ r (RadixKey.byte key i) (RadixKey.byte s i) := by
        rw [← tests]
        simpa using passed
      by_cases out : r (RadixKey.byte s i) (RadixKey.byte key i)
      · have gone : drop s = false := by
          rw [Bool.eq_false_iff, ne_eq, drops, not_not]
          exact out
        rw [Option.filter_some, gone]
        exact ⟨i, below, ⟨agree, fun same => notBeyond (by rw [same] at out ⊢; exact out)⟩, out⟩
      · rw [Option.filter_some, (drops s).mpr out]
        exact ⟨rfl, agree.succ (total _ _ out notBeyond)⟩

end Side

section Loop

variable {lo hi key : K} {n : Nat}

-- A bound on the wrong side of the byte at `i` leaves no key of the prefix inside.
theorem pruned {r : Nat → Nat → Prop} {bound x : K} {i : Nat} {kept : Option K} {test : K → Bool}
    (tests : ∀ s, test s = true ↔ r (RadixKey.byte key i) (RadixKey.byte s i))
    (irrefl : ∀ b, ¬ r b b) (side : Side r bound key i n kept) (below : i < n)
    (agree : Agree x key n) (stopped : kept.any test = true) :
    Parts x bound i ∧ r (RadixKey.byte x i) (RadixKey.byte bound i) := by
  cases kept with
  | none => cases stopped
  | some s =>
      obtain ⟨rfl, same⟩ := side
      have beyond := (tests s).mp (by simpa using stopped)
      rw [← agree i below] at beyond
      exact ⟨⟨(agree.mono below.le).trans same.symm,
        fun equal => irrefl _ (by rw [equal] at beyond; exact beyond)⟩, beyond⟩

theorem Bounds.step {i : Nat} {start stop : Option K} (bounds : Bounds lo hi key i n start stop)
    (below : i < n) (low : start.any (fun s => RadixKey.byte key i < RadixKey.byte s i) = false)
    (high : stop.any (fun e => RadixKey.byte e i < RadixKey.byte key i) = false) :
    Bounds lo hi key (i + 1) n (start.filter fun s => ¬ RadixKey.byte s i < RadixKey.byte key i)
      (stop.filter fun e => ¬ RadixKey.byte key i < RadixKey.byte e i) :=
  ⟨bounds.low.step (fun x y first second => by omega) (fun s => by simp) (fun s => by simp)
    below low,
    bounds.high.step (fun x y first second => by omega) (fun s => by simp) (fun s => by simp) below
      high⟩

theorem boundsLoop_spec {count i : Nat} {start stop : Option K}
    (bounds : Bounds lo hi key i n start stop) (length : i + count = n) :
    (boundsLoop key count i start stop = none → ∀ x, Agree x key n → ¬ (lo ≤ x ∧ x ≤ hi)) ∧
    ∀ start' stop', boundsLoop key count i start stop = some (start', stop') →
      Bounds lo hi key n n start' stop' := by
  induction count generalizing i start stop with
  | zero =>
      obtain rfl : i = n := length
      refine ⟨nofun, ?_⟩
      rintro _ _ ⟨⟩
      exact bounds
  | succ count ih =>
      have below : i < n := by omega
      rw [boundsLoop]
      split
      · rename_i both
        obtain ⟨none_, none'⟩ := both
        rw [Option.isNone_iff_eq_none] at none_ none'
        subst none_ none'
        refine ⟨nofun, ?_⟩
        rintro _ _ ⟨⟩
        exact ⟨bounds.low, bounds.high⟩
      split
      · rename_i stopped
        refine ⟨fun _ x agree inside => ?_, nofun⟩
        rcases stopped with low | high
        · have out := pruned (fun s => by simp) (fun b => lt_irrefl b) bounds.low below agree low
          exact absurd inside.1 (not_le.mpr (out.1.lt_iff.mpr out.2))
        · have out := pruned (r := (· > ·)) (fun s => by simp) (fun b => lt_irrefl b) bounds.high
            below agree high
          exact absurd inside.2 (not_le.mpr (out.1.symm.lt_iff.mpr out.2))
      · rename_i passed
        rw [not_or, Bool.not_eq_true, Bool.not_eq_true] at passed
        exact ih (bounds.step below passed.1 passed.2) (by omega)

/-- The loop goes on for a prefix that has a key inside the bounds, and keeps a bound that has
it. -/
theorem boundsLoop_keeps {count i : Nat} {start stop : Option K}
    (bounds : Bounds lo hi key i n start stop) (length : i + count = n) {x : K} (low : lo ≤ x)
    (high : x ≤ hi) (agree : Agree x key n) : ∃ start' stop',
      boundsLoop key count i start stop = some (start', stop') ∧
        (x = lo → start = some lo → start' = some lo) ∧
      (x = hi → stop = some hi → stop' = some hi) := by
  induction count generalizing i start stop with
  | zero => exact ⟨start, stop, rfl, fun _ same => same, fun _ same => same⟩
  | succ count ih =>
      have below : i < n := by omega
      have spec := boundsLoop_spec bounds length
      rw [boundsLoop] at spec ⊢
      split
      · exact ⟨start, stop, rfl, fun _ same => same, fun _ same => same⟩
      split
      · rename_i both stopped
        rw [if_neg both, if_pos stopped] at spec
        exact absurd ⟨low, high⟩ (spec.1 rfl x agree)
      · rename_i passed
        rw [not_or, Bool.not_eq_true, Bool.not_eq_true] at passed
        obtain ⟨start', stop', done, first, second⟩ :=
          ih (bounds.step below passed.1 passed.2) (by omega)
        refine ⟨start', stop', done, fun same held => first same ?_,
          fun same held => second same ?_⟩
        · rw [held, Option.filter_some, ← same, agree i below]
          simp
        · rw [held, Option.filter_some, ← same, agree i below]
          simp

theorem Side.low_iff {x : K} {i : Nat} {start : Option K} (side : Side (· < ·) lo x i n start) :
    lo ≤ x ↔ ∀ s ∈ start, s ≤ x := by
  cases start with
  | some s =>
      obtain ⟨rfl, _⟩ := side
      simp
  | none =>
      obtain ⟨j, _, parts, less⟩ := side
      simpa using (parts.lt_iff.mpr less).le

theorem Side.high_iff {x : K} {i : Nat} {stop : Option K} (side : Side (· > ·) hi x i n stop) :
    x ≤ hi ↔ ∀ e ∈ stop, x ≤ e := by
  cases stop with
  | some s =>
      obtain ⟨rfl, _⟩ := side
      simp
  | none =>
      obtain ⟨j, _, parts, less⟩ := side
      simpa using (parts.symm.lt_iff.mpr less).le

end Loop

section Tree

variable [RadixLeaf K V L] {least maxSparse : Nat} {heap : Heap K L} {lo hi : K}

/-- The keys that the edges above a leaf speak of. -/
def Marks (l : L) (x : K) : Prop := x = RadixLeaf.key l ∨ ∃ v, (x, v) ∈ RadixLeaf.pairs l

theorem Reach.marks (sound : Sound least maxSparse heap) {a c b : Addr} {p : Inner K}
    {byteval : Nat} {l : L} {x : K} (reach : Reach heap c b) (leaf : heap.node b = some (.leaf l))
    (marks : Marks l x) (here : heap.node a = some (.inner p)) (inside : byteval < 256)
    (child : p.child byteval = some c) :
    Agree x p.key p.byteNum ∧ RadixKey.byte x p.byteNum = byteval := by
  induction reach generalizing a p byteval with
  | refl b =>
      obtain ⟨node, there, fits⟩ := sound.edge a p byteval b here inside child
      rw [leaf] at there
      cases there
      rcases marks with rfl | ⟨v, member⟩
      · exact fits.2.2
      · exact fits.2.1 (x, v) member
  | @step c d b q byteval' there inside' child' rest ih =>
      have agree := (ih leaf there inside' child').1
      obtain ⟨node, present, fits⟩ := sound.edge a p byteval c here inside child
      rw [there] at present
      cases present
      exact ⟨(agree.mono fits.2.2.le).trans fits.1, (agree p.byteNum fits.2.2).trans fits.2.1⟩

/-- The slots of the bytes of `k`, past inner nodes whose prefix `k` shares, down to a leaf. -/
inductive Trail (heap : Heap K L) (k : K) : Addr → Addr → Prop where
  | leaf {b : Addr} {l : L} (here : heap.node b = some (.leaf l)) : Trail heap k b b
  | step {a c b : Addr} {p : Inner K} (here : heap.node a = some (.inner p))
    (agree : Agree k p.key p.byteNum)
      (child : p.child (RadixKey.byte k p.byteNum) = some c) (rest : Trail heap k c b) :
      Trail heap k a b

/-- What is known of the bounds when range_internal is called on a node. -/
def Ready (lo hi : K) (start stop : Option K) (pos : Nat) : Node K L → Prop
  | .inner p => Bounds lo hi p.key pos p.byteNum start stop ∧ pos ≤ p.byteNum
  | .leaf l => ∀ x, Marks l x → ∃ n, Bounds lo hi x pos n start stop

def Enough (fuel : Nat) : Node K L → Prop
  | .inner p => RadixKey.size K < fuel + p.byteNum
  | .leaf _ => 0 < fuel

/-- The calls on leaves that come from a call on the node at `a`. -/
structure Visited (lo hi : K) (heap : Heap K L) (a : Addr) (start stop : Option K)
    (visits : List (Visit K)) : Prop where
  leaf : ∀ v ∈ visits, Reach heap a v.leaf ∧ ∃ l, heap.node v.leaf = some (.leaf l) ∧
    ∀ x, Marks l x → ∃ n, Bounds lo hi x v.pos n v.start v.stop
  kept : ∀ v ∈ visits, (v.start ≠ none → start ≠ none) ∧ (v.stop ≠ none → stop ≠ none)
  low : ∀ v ∈ visits, v.start ≠ none → Trail heap lo a v.leaf ∨ ∀ l x, heap.node v.leaf =
    some (.leaf l) → Marks l x → lo < x
  high : ∀ v ∈ visits, v.stop ≠ none → Trail heap hi a v.leaf ∨ ∀ l x, heap.node v.leaf =
    some (.leaf l) → Marks l x → x < hi
  trail : ∀ x b, lo ≤ x → x ≤ hi → Trail heap x a b → ∃ v ∈ visits, v.leaf = b ∧
    (x = lo → start = some lo → v.start = some lo) ∧ (x = hi → stop = some hi → v.stop = some hi)
  once : (visits.map Visit.leaf).Nodup

theorem visited_leaf {a : Addr} {l : L} (here : heap.node a = some (.leaf l))
    {start stop : Option K} {pos : Nat} (ready : Ready lo hi start stop pos (.leaf l : Node K L)) :
    Visited lo hi heap a start stop [⟨a, start, stop, pos⟩] := by
  refine ⟨?_, ?_, ?_, ?_, ?_, List.nodup_singleton _⟩
  · intro v member
    rw [List.mem_singleton.mp member]
    exact ⟨.refl a, l, here, ready⟩
  · intro v member
    rw [List.mem_singleton.mp member]
    exact ⟨id, id⟩
  · intro v member _
    rw [List.mem_singleton.mp member]
    exact Or.inl (.leaf here)
  · intro v member _
    rw [List.mem_singleton.mp member]
    exact Or.inl (.leaf here)
  · intro x b _ _ trail
    cases trail with
    | leaf _ => exact ⟨_, .head _, rfl, fun _ same => same, fun _ same => same⟩
    | step there _ _ _ =>
        rw [here] at there
        cases there

theorem boundsLoop_kept {key : K} {count i : Nat} {start stop start' stop' : Option K}
    (done : boundsLoop key count i start stop = some (start', stop')) :
    (start' ≠ none → start ≠ none) ∧ (stop' ≠ none → stop ≠ none) := by
  induction count generalizing i start stop with
  | zero =>
      cases done
      exact ⟨id, id⟩
  | succ count ih =>
      rw [boundsLoop] at done
      split at done
      · cases done
        exact ⟨id, id⟩
      split at done
      · cases done
      · obtain ⟨first, second⟩ := ih done
        exact ⟨fun left gone => first left (by rw [gone]; rfl),
          fun left gone => second left (by rw [gone]; rfl)⟩

section Inner

variable {a : Addr} {p : Inner K} (sound : Sound least maxSparse heap)
    (here : heap.node a = some (.inner p))
include sound here

-- What the edge to a child and the bounds after the loop say about the call on the child.
theorem Bounds.ready {start stop : Option K}
    (bounds : Bounds lo hi p.key p.byteNum p.byteNum start stop) {b : Nat} (inside : b < 256)
    {c : Addr} (child : p.child b = some c) :
    ∃ node, heap.node c = some node ∧ Ready lo hi start stop p.byteNum node ∧
      ∀ fuel, RadixKey.size K < fuel + 1 + p.byteNum → Enough fuel node := by
  obtain ⟨node, there, fits⟩ := sound.edge a p b c here inside child
  have short := (sound.ok a p here).2
  refine ⟨node, there, ?_⟩
  cases node with
  | inner q =>
      refine ⟨⟨⟨bounds.low.transfer fits.1 fits.2.2.le, bounds.high.transfer fits.1 fits.2.2.le⟩,
        fits.2.2.le⟩, fun fuel enough => ?_⟩
      have deeper := fits.2.2
      show RadixKey.size K < fuel + q.byteNum
      omega
  | leaf l =>
      refine ⟨fun x marks => ⟨p.byteNum, ?_⟩, fun fuel enough => ?_⟩
      · have agree := (Reach.marks sound (.refl c) there marks here inside child).1
        exact ⟨bounds.low.transfer agree le_rfl, bounds.high.transfer agree le_rfl⟩
      · show 0 < fuel
        omega

section Edges

variable {start stop : Option K} (bounds : Bounds lo hi p.key p.byteNum p.byteNum start stop)
include bounds

-- Below the lower bound's own edge the bound goes on; to the right of it every key is larger.
theorem Bounds.low_edge (left : start ≠ none) {b : Nat}
    (least : start.elim 0 (fun s => RadixKey.byte s p.byteNum) ≤ b) (inside : b < 256)
    {c leaf : Addr} (child : p.child b = some c) (reach : Reach heap c leaf)
    (trail : Trail heap lo c leaf) :
    Trail heap lo a leaf ∨ ∀ l x, heap.node leaf = some (.leaf l) → Marks l x → lo < x := by
  obtain ⟨s, kept⟩ := Option.ne_none_iff_exists'.mp left
  have side := bounds.low
  rw [kept] at side least
  obtain ⟨rfl, agree⟩ := side
  by_cases same : RadixKey.byte s p.byteNum = b
  · rw [← same] at child
    exact Or.inl (.step here agree child trail)
  · refine Or.inr fun l x there marks => ?_
    obtain ⟨shared, byte⟩ := reach.marks sound there marks here inside child
    have parts : Parts s x p.byteNum := ⟨agree.trans shared.symm, by rw [byte]; exact same⟩
    exact parts.lt_iff.mpr (by rw [byte]; exact lt_of_le_of_ne least same)

theorem Bounds.high_edge (left : stop ≠ none) {b : Nat}
    (most : b ≤ stop.elim 255 (fun e => RadixKey.byte e p.byteNum)) (inside : b < 256)
    {c leaf : Addr} (child : p.child b = some c) (reach : Reach heap c leaf)
    (trail : Trail heap hi c leaf) :
    Trail heap hi a leaf ∨ ∀ l x, heap.node leaf = some (.leaf l) → Marks l x → x < hi := by
  obtain ⟨e, kept⟩ := Option.ne_none_iff_exists'.mp left
  have side := bounds.high
  rw [kept] at side most
  obtain ⟨rfl, agree⟩ := side
  by_cases same : RadixKey.byte e p.byteNum = b
  · rw [← same] at child
    exact Or.inl (.step here agree child trail)
  · refine Or.inr fun l x there marks => ?_
    obtain ⟨shared, byte⟩ := reach.marks sound there marks here inside child
    have parts : Parts x e p.byteNum := ⟨shared.trans agree.symm, by rw [byte]; exact Ne.symm same⟩
    exact parts.lt_iff.mpr (by rw [byte]; exact lt_of_le_of_ne most (Ne.symm same))

omit sound here in
-- The edge of a key between the bounds is one of those that are followed.
theorem Bounds.inside {x : K} (low : lo ≤ x) (high : x ≤ hi) (agree : Agree x p.key p.byteNum) :
    start.elim 0 (fun s => RadixKey.byte s p.byteNum) ≤ RadixKey.byte x p.byteNum ∧
      RadixKey.byte x p.byteNum ≤ stop.elim 255 (fun e => RadixKey.byte e p.byteNum) := by
  constructor
  · cases kept : start with
    | none => exact Nat.zero_le _
    | some s =>
        have side := bounds.low
        rw [kept] at side
        obtain ⟨rfl, shared⟩ := side
        exact (shared.trans agree.symm).byte_le_of_le low
  · cases kept : stop with
    | none => exact Nat.le_of_lt_succ (RadixKey.byte_lt _ _)
    | some e =>
        have side := bounds.high
        rw [kept] at side
        obtain ⟨rfl, shared⟩ := side
        exact (agree.trans shared.symm).byte_le_of_le high

end Edges

theorem visited_inner {start stop start' stop' : Option K} {pos : Nat}
    (bounds : Bounds lo hi p.key pos p.byteNum start stop) (deeper : pos ≤ p.byteNum)
    (done : boundsLoop p.key (p.byteNum - pos) pos start stop = some (start', stop'))
    (result : Option Addr → List (Visit K)) {bytes : List Nat} (nodup : bytes.Nodup)
    (window : ∀ b ∈ bytes, start'.elim 0 (fun s => RadixKey.byte s p.byteNum) ≤ b ∧
      b ≤ stop'.elim 255 (fun e => RadixKey.byte e p.byteNum))
    (complete : ∀ b c, start'.elim 0 (fun s => RadixKey.byte s p.byteNum) ≤ b →
      b ≤ stop'.elim 255 (fun e => RadixKey.byte e p.byteNum) → p.child b = some c → b ∈ bytes)
    (empty : result none = [])
    (calls : ∀ b ∈ bytes, b < 256 ∧ ∀ c, p.child b = some c → Visited lo hi heap c start' stop'
      (result (some c))) :
    Visited lo hi heap a start stop (bytes.flatMap fun b => result (p.child b)) := by
  have after := (boundsLoop_spec bounds (by omega)).2 _ _ done
  have came {v : Visit K} (member : v ∈ bytes.flatMap fun b => result (p.child b)) :
      ∃ b c, b ∈ bytes ∧ b < 256 ∧ p.child b = some c ∧ Visited lo hi heap c start' stop'
        (result (some c)) ∧ v ∈ result (some c) := by
    obtain ⟨b, listed, called⟩ := List.mem_flatMap.mp member
    cases child : p.child b with
    | none =>
        rw [child, empty] at called
        cases called
    | some c =>
        rw [child] at called
        exact ⟨b, c, listed, (calls b listed).1, child, (calls b listed).2 c child, called⟩
  refine ⟨?_, ?_, ?_, ?_, ?_, ?_⟩
  · intro v member
    obtain ⟨b, c, _, inside, child, visited, called⟩ := came member
    obtain ⟨reach, leaf⟩ := visited.leaf v called
    exact ⟨.step here inside child reach, leaf⟩
  · intro v member
    obtain ⟨b, c, _, _, _, visited, called⟩ := came member
    obtain ⟨first, second⟩ := visited.kept v called
    obtain ⟨third, fourth⟩ := boundsLoop_kept done
    exact ⟨fun left => third (first left), fun left => fourth (second left)⟩
  · intro v member left
    obtain ⟨b, c, listed, inside, child, visited, called⟩ := came member
    rcases visited.low v called left with trail | above
    · exact after.low_edge sound here ((visited.kept v called).1 left) (window b listed).1 inside
        child (visited.leaf v called).1 trail
    · exact Or.inr above
  · intro v member left
    obtain ⟨b, c, listed, inside, child, visited, called⟩ := came member
    rcases visited.high v called left with trail | below
    · exact after.high_edge sound here ((visited.kept v called).2 left) (window b listed).2 inside
        child (visited.leaf v called).1 trail
    · exact Or.inr below
  · intro x b low high trail
    cases trail with
    | leaf there =>
        rw [here] at there
        cases there
    | @step _ c _ q there agree child rest =>
        rw [here] at there
        cases there
        obtain ⟨start'', stop'', again, first, second⟩ :=
          boundsLoop_keeps bounds (Nat.add_sub_cancel' deeper) low high agree
        rw [done] at again
        cases again
        obtain ⟨least, most⟩ := after.inside low high agree
        have listed := complete _ c least most child
        obtain ⟨v, called, same, third, fourth⟩ :=
          ((calls _ listed).2 c child).trail x b low high rest
        refine ⟨v, List.mem_flatMap.mpr ⟨_, listed, by rw [child]; exact called⟩, same, ?_, ?_⟩
        · exact fun equal left => third equal (first equal left)
        · exact fun equal left => fourth equal (second equal left)
  · rw [List.map_flatMap]
    refine List.nodup_flatMap.mpr ⟨fun b listed => ?_, ?_⟩
    · cases child : p.child b with
      | none =>
          rw [empty]
          exact List.nodup_nil
      | some c => exact ((calls b listed).2 c child).once
    · -- A leaf under two slots would have both bytes.
      refine nodup.imp_of_mem fun {b b'} listed listed' apart => ?_
      intro leaf first second
      obtain ⟨v, called, same⟩ := List.mem_map.mp first
      obtain ⟨v', called', same'⟩ := List.mem_map.mp second
      have one {b : Nat} (listed : b ∈ bytes) {v : Visit K} (called : v ∈ result (p.child b)) :
          ∃ l, heap.node v.leaf = some (.leaf l) ∧ RadixKey.byte (RadixLeaf.key l) p.byteNum =
            b := by
        cases child : p.child b with
        | none =>
            rw [child, empty] at called
            cases called
        | some c =>
            rw [child] at called
            obtain ⟨reach, l, there, _⟩ := ((calls b listed).2 c child).leaf v called
            exact ⟨l, there, (reach.marks sound there (Or.inl rfl) here (calls b listed).1 child).2⟩
      obtain ⟨l, there, byte⟩ := one listed called
      obtain ⟨l', there', byte'⟩ := one listed' called'
      rw [same] at there
      rw [same', there] at there'
      cases there'
      exact apart (byte.symm.trans byte')

omit sound in
theorem visited_none {start stop : Option K} {pos : Nat}
    (bounds : Bounds lo hi p.key pos p.byteNum start stop) (deeper : pos ≤ p.byteNum)
    (stopped : boundsLoop p.key (p.byteNum - pos) pos start stop = none) :
    Visited lo hi heap a start stop [] := by
  refine ⟨by simp, by simp, by simp, by simp, ?_, List.nodup_nil⟩
  intro x b low high trail
  cases trail with
  | leaf there =>
      rw [here] at there
      cases there
  | step there agree _ _ =>
      rw [here] at there
      cases there
      exact absurd ⟨low, high⟩ ((boundsLoop_spec bounds (by omega)).1 stopped x agree)

end Inner

/-- The recursion returns, and its calls on leaves are as they should be. The induction is on the
fuel; a child lies deeper than its parent. -/
theorem rangeInternal_visited (sound : Sound least maxSparse heap) (fuel : Nat) {a : Addr}
    {node : Node K L} (here : heap.node a = some node) {start stop : Option K} {pos : Nat}
    (ready : Ready lo hi start stop pos node) (enough : Enough fuel node) :
    ∃ visits, rangeInternal heap fuel (some a) start stop pos = some visits ∧
      Visited lo hi heap a start stop visits := by
  induction fuel generalizing a node start stop pos with
  | zero =>
      cases node with
      | inner p =>
          have short := (sound.ok a p here).2
          have enough : RadixKey.size K < 0 + p.byteNum := enough
          omega
      | leaf l => exact absurd enough (Nat.lt_irrefl 0)
  | succ fuel ih =>
      rw [rangeInternal, here]
      cases node with
      | leaf l => exact ⟨_, rfl, visited_leaf here ready⟩
      | inner p =>
          obtain ⟨bounds, deeper⟩ := ready
          cases done : boundsLoop p.key (p.byteNum - pos) pos start stop with
          | none =>
              simp only [done]
              exact ⟨[], rfl, visited_none here bounds deeper done⟩
          | some left =>
              obtain ⟨start', stop'⟩ := left
              simp only [done]
              have after := (boundsLoop_spec bounds (by omega)).2 _ _ done
              obtain ⟨bytes, same, nodup, window, complete⟩ :=
                Inner.window_spec (sound.ok a p here).1
                (start'.elim 0 fun s => RadixKey.byte s p.byteNum)
                (stop'.elim 255 fun e => RadixKey.byte e p.byteNum)
              have call (b : Nat) (listed : b ∈ bytes) : b < 256 ∧ ∀ c, p.child b = some c →
                  ∃ visits, rangeInternal heap fuel (some c) start' stop' p.byteNum = some visits ∧
                    Visited lo hi heap c start' stop' visits := by
                have most := (window b listed).2
                have inside : b < 256 := by
                  cases kept : stop' with
                  | none => rw [kept] at most; exact Nat.lt_succ_of_le most
                  | some e => rw [kept] at most; exact most.trans_lt (RadixKey.byte_lt e p.byteNum)
                refine ⟨inside, fun c child => ?_⟩
                obtain ⟨node, there, ready, enough'⟩ := after.ready sound here inside child
                exact ih there ready (enough' fuel enough)
              refine ⟨bytes.flatMap fun b =>
                (rangeInternal heap fuel (p.child b) start' stop' p.byteNum).getD [], ?_, ?_⟩
              · rw [same, collect_eq fun c =>
                  (rangeInternal heap fuel c start' stop' p.byteNum).getD [], List.flatMap_map]
                intro c listed
                obtain ⟨b, member, rfl⟩ := List.mem_map.mp listed
                cases child : p.child b with
                | none => rw [rangeInternal]; rfl
                | some c =>
                    obtain ⟨visits, called, _⟩ := (call b member).2 c child
                    rw [called]
                    rfl
              · refine visited_inner sound here bounds deeper done
                  (fun c => (rangeInternal heap fuel c start' stop' p.byteNum).getD []) nodup window
                  complete ?_ ?_
                · simp only [rangeInternal]
                  rfl
                · intro b listed
                  refine ⟨(call b listed).1, fun c child => ?_⟩
                  obtain ⟨visits, called, visited⟩ := (call b listed).2 c child
                  simp only [called]
                  exact visited

theorem range_visited (sound : Sound least maxSparse heap) (lo hi : K) :
    ∃ visits, range_ heap lo hi = some visits ∧ Visited lo hi heap root (some lo) (some hi)
      visits := by
  obtain ⟨p, here, _, zero, _⟩ := sound.top
  refine rangeInternal_visited sound _ here ⟨⟨⟨rfl, Agree.zero _ _⟩, ⟨rfl, Agree.zero _ _⟩⟩,
    Nat.zero_le _⟩ ?_
  show RadixKey.size K < RadixKey.size K + 1 + p.byteNum
  omega

end Tree

end SetBench.Art
