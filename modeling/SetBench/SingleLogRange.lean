import SetBench.ArtClip
import SetBench.DoubleLogRange
import SetBench.SingleLogShape

/-! range_ of art_singular_log_leaves.h. range_internal asks whether a node is Leaf, Full or
Indirect and takes every other one for a sparse node, a log leaf too. -/
namespace SetBench.Art

open Radix

section Header

variable {K : Type} [RadixKey K] {lo hi key : K}

/-- The loop over the prefix of a header returns exactly when no key with the prefix lies
between the bounds. -/
theorem boundsLoop_none_iff (ordered : lo ≤ hi) {count i : Nat} {start stop : Option K}
    (low : start.elim (lo ≤ key) fun s => s = lo ∧ Agree lo key i)
    (high : stop.elim (key ≤ hi) fun e => e = hi ∧ Agree hi key i) :
    boundsLoop key count i start stop = none ↔ ∀ x, Agree x key (i + count) →
      ¬ (lo ≤ x ∧ x ≤ hi) := by
  induction count generalizing i start stop with
  | zero =>
      refine ⟨(fun gone => by cases gone), fun outside => ?_⟩
      exfalso
      cases start with
      | some s => exact outside lo low.2 ⟨le_rfl, ordered⟩
      | none =>
          cases stop with
          | some e => exact outside hi high.2 ⟨ordered, le_rfl⟩
          | none => exact outside key (fun _ _ => rfl) ⟨low, high⟩
  | succ count ih =>
      rw [boundsLoop]
      split
      · rename_i both
        obtain ⟨none_, none'⟩ := both
        rw [Option.isNone_iff_eq_none] at none_ none'
        subst none_ none'
        refine ⟨(fun gone => by cases gone), fun outside => ?_⟩
        exact absurd ⟨low, high⟩ (outside key (fun _ _ => rfl))
      split
      · rename_i stopped
        refine ⟨fun _ x agree inside => ?_, fun _ => rfl⟩
        have shared : Agree x key i := agree.mono (Nat.le_add_right _ _)
        have byte : RadixKey.byte x i = RadixKey.byte key i := agree i (by omega)
        rcases stopped with beyond | beyond
        · cases start with
          | none => cases beyond
          | some s =>
              obtain ⟨rfl, same⟩ := low
              have less : RadixKey.byte key i < RadixKey.byte s i := by simpa using beyond
              have parts : Parts x s i := ⟨shared.trans same.symm, by omega⟩
              exact absurd inside.1 (not_le.mpr (parts.lt_iff.mpr (by omega)))
        · cases stop with
          | none => cases beyond
          | some e =>
              obtain ⟨rfl, same⟩ := high
              have less : RadixKey.byte e i < RadixKey.byte key i := by simpa using beyond
              have parts : Parts e x i := ⟨same.trans shared.symm, by omega⟩
              exact absurd inside.2 (not_le.mpr (parts.lt_iff.mpr (by omega)))
      · rename_i passed
        rw [not_or] at passed
        have next : i + (count + 1) = i + 1 + count := by omega
        rw [next]
        refine ih ?_ ?_
        · cases start with
          | none => exact low
          | some s =>
              obtain ⟨rfl, same⟩ := low
              have least : ¬ RadixKey.byte key i < RadixKey.byte s i := by simpa using passed.1
              by_cases less : RadixKey.byte s i < RadixKey.byte key i
              · have parts : Parts s key i := ⟨same, by omega⟩
                rw [Option.filter_some]
                simpa [not_le.mpr less] using (parts.lt_iff.mpr less).le
              · rw [Option.filter_some]
                simpa [not_lt.mp less] using same.succ (by omega)
        · cases stop with
          | none => exact high
          | some e =>
              obtain ⟨rfl, same⟩ := high
              have most : ¬ RadixKey.byte e i < RadixKey.byte key i := by simpa using passed.2
              by_cases less : RadixKey.byte key i < RadixKey.byte e i
              · have parts : Parts key e i := ⟨same.symm, by omega⟩
                rw [Option.filter_some]
                simpa [not_le.mpr less] using (parts.lt_iff.mpr less).le
              · rw [Option.filter_some]
                simpa [not_lt.mp less] using same.succ (by omega)

end Header

section Reached

variable {K V L : Type} [RadixKey K] [RadixLeaf K V L] {least maxSparse : Nat} {heap : Heap K L}

-- A key with the prefix of the header of a leaf goes the way of the leaf.
theorem Reach.trail_of_header (sound : Sound least maxSparse heap) {a b : Addr} {l : L} {x : K}
    (reach : Reach heap a b) (leaf : heap.node b = some (.leaf l))
    (agree : Agree x (RadixLeaf.key l) (RadixLeaf.byteNum l)) :
    Trail heap x a b ∧ ∀ p, heap.node a = some (.inner p) → p.byteNum < RadixLeaf.byteNum l := by
  induction reach with
  | refl b =>
      refine ⟨.leaf leaf, fun p here => ?_⟩
      rw [leaf] at here
      cases here
  | @step a c b p byteval here inside child rest ih =>
      obtain ⟨trail, deeper⟩ := ih leaf
      obtain ⟨shared, byte⟩ := rest.marks sound leaf (.inl rfl) here inside child
      obtain ⟨node, there, fits⟩ := sound.edge a p byteval c here inside child
      have below : p.byteNum < RadixLeaf.byteNum l := by
        cases node with
        | inner q => exact fits.2.2.trans (deeper q there)
        | leaf m =>
            cases rest with
            | refl =>
                rw [leaf] at there
                cases there
                exact fits.1
            | step there' _ _ _ =>
                rw [there] at there'
                cases there'
      refine ⟨.step here ((agree.mono below.le).trans shared)
        (by rw [agree p.byteNum below, byte]; exact child) trail, fun q there' => ?_⟩
      rw [here] at there'
      cases there'
      exact below

omit [RadixKey K] [RadixLeaf K V L] in
theorem collect_mem {α : Type} {call : Option Addr → Option (List α)}
    {children : List (Option Addr)} {all : List α} (done : collect call children = some all) :
    ∀ v ∈ all, ∃ c ∈ children, ∃ part, call c = some part ∧ v ∈ part := by
  induction children generalizing all with
  | nil =>
      cases done
      rintro _ ⟨⟩
  | cons c rest ih =>
      simp only [collect, Option.bind_eq_some_iff, Option.map_eq_some_iff] at done
      obtain ⟨first, called, others, collected, rfl⟩ := done
      intro v member
      rcases List.mem_append.mp member with here | later
      · exact ⟨c, .head _, first, called, here⟩
      · obtain ⟨d, listed, found⟩ := ih collected v later
        exact ⟨d, .tail _ listed, found⟩

-- A leaf is called with the byte_num of its parent, which is smaller than its own.
theorem rangeInternal_pos (sound : Sound least maxSparse heap) {fuel : Nat} {a : Addr}
    {start stop : Option K} {pos : Nat} {visits : List (Visit K)}
    (done : rangeInternal heap fuel (some a) start stop pos = some visits)
    (above : ∀ l, heap.node a = some (.leaf l) → pos ≤ RadixLeaf.byteNum l) :
    ∀ v ∈ visits, ∀ l, heap.node v.leaf = some (.leaf l) → v.pos ≤ RadixLeaf.byteNum l := by
  induction fuel generalizing a start stop pos visits with
  | zero => cases done
  | succ fuel ih =>
      rw [rangeInternal] at done
      split at done
      · cases done
      · cases done
        intro v listed l leaf
        rw [List.mem_singleton.mp listed] at leaf ⊢
        exact above l leaf
      · rename_i p here
        split at done
        · cases done
          rintro _ ⟨⟩
        · rename_i start' stop' _
          obtain ⟨bytes, same, _, window, _⟩ :=
            Inner.window_spec (sound.ok a p here).1
            (start'.elim 0 fun s => RadixKey.byte s p.byteNum)
            (stop'.elim 255 fun e => RadixKey.byte e p.byteNum)
          intro v listed
          obtain ⟨c, called, part, result, member⟩ := collect_mem done v listed
          rw [same] at called
          obtain ⟨b, byte, rfl⟩ := List.mem_map.mp called
          have inside : b < 256 := by
            have most := (window b byte).2
            cases stop' with
            | none => exact Nat.lt_succ_of_le most
            | some e => exact most.trans_lt (RadixKey.byte_lt e p.byteNum)
          cases child : p.child b with
          | none =>
              rw [child, rangeInternal] at result
              cases result
              cases member
          | some d =>
              rw [child] at result
              refine ih result (fun l leaf => ?_) v member
              obtain ⟨node, there, fits⟩ := sound.edge a p b d here inside child
              rw [leaf] at there
              cases there
              exact fits.1.le

end Reached

end SetBench.Art

namespace SetBench.SingleLog

open Radix KeyVals Art MapSpec
open DoubleLog (Reports)

variable {K V : Type} [RadixKey K]

/-- What range_internal passes to add at a leaf; `none` where a trimming loop reads outside of
the array. A log leaf is no Leaf: the loop over its prefix may return, and if it does not,
the last branch reads keys and ptr of a sparse node from it, `none` too. -/
def report (m : TreeLeaf K V) (v : Visit K) : Option (List (K × V)) :=
  if m.leaf.isLog then
    match boundsLoop m.key (m.byteNum - v.pos) v.pos v.start v.stop with
    | none => some []
    | some _ => none
  else if ∀ i ∈ trimReads m.leaf.keyVals v.start v.stop, 0 ≤ i ∧
    i < m.leaf.size then some (trimmed m.leaf.keyVals v.start v.stop)
  else none

def reportAll (heap : Heap K (TreeLeaf K V)) : List (Visit K) → Option (List (K × V))
  | [] => some []
  | v :: rest =>
      match heap.node v.leaf with
      | some (.leaf m) => (report m v).bind fun first => (reportAll heap rest).map (first ++ ·)
      | _ => none

def rangePairs (heap : Heap K (TreeLeaf K V)) (lo hi : K) : Option (List (K × V)) :=
  (range_ heap lo hi).bind (reportAll heap)

/-- If find_location ends in a leaf, the leaf is such. -/
def EndsIn (heap : Heap K (TreeLeaf K V)) (k : K) (such : Leaf K V → Prop) : Prop :=
  ∀ found, ((findLocation heap k).bind fun location => leafAt heap location.c) = some found →
    such found.2.leaf

-- find, as far as it is answered by a leaf that is no log leaf
def plainAnswers (heap : Heap K (TreeLeaf K V)) (k : K) : Option V :=
  ((findLocation heap k).bind fun location => leafAt heap location.c).bind fun found =>
    if found.2.leaf.isLog then none else found.2.leaf.find k

/-- The layouts, prefixes and slots fit and every leaf is one that new_leaf makes. -/
structure Shaped (heap : Heap K (TreeLeaf K V)) : Prop where
  sound : Sound 1 maxSparseSize heap
  leaves : Leaves Built heap

/-- No log leaf that is met has a prefix that a key of the range has, the plain leaves of the
bounds have a key on the inner side, and for the keys of the range the plain leaves answer as the
map does. -/
structure Readable (heap : Heap K (TreeLeaf K V)) (met : Addr → Prop) (map : K → Option V)
    (lo hi : K) : Prop where
  logs : ∀ b m, met b ∧ heap.node b = some (.leaf m) → m.leaf.isLog = true →
    ∀ x, lo ≤ x → x ≤ hi → ¬ Agree x m.key m.byteNum
  low : EndsIn heap lo fun l => l.isLog = false → ∃ kv ∈ l.keyVals, lo ≤ kv.1
  high : EndsIn heap hi fun l => l.isLog = false → ∃ kv ∈ l.keyVals, kv.1 ≤ hi
  answers : ∀ k, lo ≤ k → k ≤ hi → plainAnswers heap k = map k

variable {heap : Heap K (TreeLeaf K V)} {lo hi : K} {visits : List (Visit K)} {pairs : List (K × V)}

/-- A visit with its leaf and what is reported there. -/
def Gives (heap : Heap K (TreeLeaf K V)) (v : Visit K) (m : TreeLeaf K V) (part : List (K × V)) :
    Prop :=
  heap.node v.leaf = some (.leaf m) ∧ report m v = some part

theorem reportAll_gives (done : reportAll heap visits = some pairs) :
    (∀ v ∈ visits, ∃ m part, Gives heap v m part) ∧ ∀ kv, kv ∈ pairs ↔
    ∃ v ∈ visits, ∃ m part, Gives heap v m part ∧ kv ∈ part := by
  induction visits generalizing pairs with
  | nil =>
      cases done
      simp
  | cons v rest ih =>
      rw [reportAll] at done
      split at done
      · rename_i m there
        simp only [Option.bind_eq_some_iff, Option.map_eq_some_iff] at done
        obtain ⟨first, given, others, reported, rfl⟩ := done
        obtain ⟨each, members⟩ := ih reported
        refine ⟨?_, fun kv => ?_⟩
        · intro w listed
          rcases List.mem_cons.mp listed with rfl | later
          · exact ⟨m, first, there, given⟩
          · exact each w later
        · rw [List.mem_append, members]
          constructor
          · rintro (here | ⟨w, later, found⟩)
            · exact ⟨v, .head _, m, first, ⟨there, given⟩, here⟩
            · exact ⟨w, .tail _ later, found⟩
          · rintro ⟨w, listed, m', part, ⟨there', given'⟩, member⟩
            rcases List.mem_cons.mp listed with rfl | later
            · rw [there] at there'
              cases there'
              rw [given] at given'
              cases given'
              exact .inl member
            · exact .inr ⟨w, later, m', part, ⟨there', given'⟩, member⟩
      · cases done

theorem reportAll_returns (each : ∀ v ∈ visits, ∃ m part, Gives heap v m part) :
    ∃ pairs, reportAll heap visits = some pairs := by
  induction visits with
  | nil => exact ⟨[], rfl⟩
  | cons v rest ih =>
      obtain ⟨m, part, there, given⟩ := each v (.head _)
      obtain ⟨others, reported⟩ := ih fun w later => each w (.tail _ later)
      exact ⟨part ++ others, by simp [reportAll, there, given, reported]⟩

-- No key twice, if no two leaves share one.
theorem reportAll_distinct (done : reportAll heap visits = some pairs)
    (once : (visits.map Visit.leaf).Nodup)
    (parts : ∀ v ∈ visits, ∀ m part, Gives heap v m part → Distinct part)
    (apart : ∀ v ∈ visits, ∀ w ∈ visits, ∀ m m' part part', Gives heap v m part →
      Gives heap w m' part' → v.leaf ≠ w.leaf → ∀ one ∈ part, ∀ other ∈ part', one.1 ≠ other.1) :
    Distinct pairs := by
  induction visits generalizing pairs with
  | nil =>
      cases done
      exact List.Pairwise.nil
  | cons v rest ih =>
      obtain ⟨fresh, later⟩ := List.nodup_cons.mp once
      rw [reportAll] at done
      split at done
      · rename_i m there
        simp only [Option.bind_eq_some_iff, Option.map_eq_some_iff] at done
        obtain ⟨first, given, others, reported, rfl⟩ := done
        refine List.pairwise_append.mpr ⟨parts v (.head _) m first ⟨there, given⟩, ?_, ?_⟩
        · exact ih reported later (fun w listed => parts w (.tail _ listed))
            fun w listed w' listed' => apart w (.tail _ listed) w' (.tail _ listed')
        · intro one member other member'
          obtain ⟨w, listed, m', part, gives, held⟩ :=
            ((reportAll_gives reported).2 other).mp member'
          refine apart v (.head _) w (.tail _ listed) m m' first part ⟨there, given⟩ gives
            (fun same => fresh ?_) one member other held
          rw [same]
          exact List.mem_map_of_mem listed
      · cases done

-- Two leaves with one key are one leaf.
theorem same_leaf {b b' : Addr} {m m' : TreeLeaf K V} {x : K} (path : Path heap x root b)
    (path' : Path heap x root b') (leaf : heap.node b = some (.leaf m))
    (leaf' : heap.node b' = some (.leaf m')) : b = b' := by
  rcases path.linear path' with down | up
  · exact down.leaf_end leaf
  · exact (up.leaf_end leaf').symm

/-- The pairs of one map are those of another exactly when the two agree on the range. -/
theorem reports_iff {map map' : K → Option V} (reports : Reports pairs map (some lo) (some hi)) :
    Reports pairs map' (some lo) (some hi) ↔ ∀ k, lo ≤ k → k ≤ hi → map k = map' k := by
  obtain ⟨distinct, members⟩ := reports
  have bounds (k : K) : InBounds (some lo) (some hi) k ↔ lo ≤ k ∧ k ≤ hi := by simp [InBounds]
  simp only [bounds] at members
  constructor
  · rintro ⟨_, members'⟩ k low high
    simp only [bounds] at members'
    refine Option.ext fun v => ?_
    have one := members k v
    have other := members' k v
    simp only [low, high, and_self, and_true] at one other
    exact one.symm.trans other
  · intro same
    refine ⟨distinct, fun k v => ?_⟩
    rw [members, bounds]
    exact and_congr_left fun inside => by rw [same k inside.1 inside.2]

section Tree

variable (shaped : Shaped heap)
include shaped

theorem endsIn_iff (k : K) (such : Leaf K V → Prop) :
    EndsIn heap k such ↔ ∀ b m, Trail heap k root b → heap.node b = some (.leaf m) →
      such m.leaf := by
  obtain ⟨location, p, found, located⟩ := findLocation_located shaped.sound k
  simp only [EndsIn, found, Option.bind_some, leafAt_some]
  constructor
  · intro ends b m trail leaf
    exact ends (b, m) ⟨((located.trail_iff shaped.sound b).mp trail).1, leaf⟩
  · rintro all ⟨b, m⟩ ⟨held, leaf⟩
    exact all b m ((located.trail_iff shaped.sound b).mpr ⟨held, m, leaf⟩) leaf

theorem plainAnswers_iff (k : K) (v : V) :
    plainAnswers heap k = some v ↔ ∃ b m, Trail heap k root b ∧ heap.node b = some (.leaf m) ∧
      m.leaf.isLog = false ∧ (k, v) ∈ m.leaf.contents := by
  obtain ⟨location, p, found, located⟩ := findLocation_located shaped.sound k
  simp only [plainAnswers, found, Option.bind_some, Option.bind_eq_some_iff, leafAt_some]
  constructor
  · rintro ⟨⟨b, m⟩, ⟨held, leaf⟩, answer⟩
    split at answer
    · cases answer
    · rename_i kind
      exact ⟨b, m, (located.trail_iff shaped.sound b).mpr ⟨held, m, leaf⟩,
        leaf, by simpa using kind,
        ((shaped.leaves _ _ leaf).1.find_iff k v).mp answer⟩
  · rintro ⟨b, m, trail, leaf, kind, member⟩
    refine ⟨(b, m), ⟨((located.trail_iff shaped.sound b).mp trail).1, leaf⟩, ?_⟩
    rw [if_neg (by rw [kind]; exact Bool.false_ne_true)]
    exact ((shaped.leaves _ _ leaf).1.find_iff k v).mpr member

section Visits

variable (ordered : lo ≤ hi) (returned : range_ heap lo hi = some visits)
    (visited : Visited lo hi heap root (some lo) (some hi) visits)
include ordered returned visited

/-- At a log leaf the loop over the prefix returns if no key of the range has the prefix. -/
theorem report_log {v : Visit K} (listed : v ∈ visits) {m : TreeLeaf K V}
    (leaf : heap.node v.leaf = some (.leaf m)) (kind : m.leaf.isLog = true) {part : List (K × V)} :
    report m v = some part ↔ part = [] ∧ ∀ x, lo ≤ x → x ≤ hi → ¬ Agree x m.key m.byteNum := by
  obtain ⟨_, m', leaf', marks⟩ := visited.leaf v listed
  rw [leaf] at leaf'
  cases leaf'
  obtain ⟨n, bounds⟩ := marks m.key (.inl rfl)
  have deep : v.pos ≤ m.byteNum := by
    refine rangeInternal_pos shaped.sound returned (fun l here => ?_) v listed m leaf
    exact Nat.zero_le _
  have first : v.start.elim (lo ≤ m.key) fun s => s = lo ∧ Agree lo m.key v.pos := by
    have side := bounds.low
    cases start : v.start with
    | some s =>
        rw [start] at side
        obtain ⟨rfl, agree⟩ := side
        exact ⟨rfl, agree⟩
    | none =>
        rw [start] at side
        exact side.low_iff.mpr (by rintro _ ⟨⟩)
  have last : v.stop.elim (m.key ≤ hi) fun e => e = hi ∧ Agree hi m.key v.pos := by
    have side := bounds.high
    cases stop : v.stop with
    | some e =>
        rw [stop] at side
        obtain ⟨rfl, agree⟩ := side
        exact ⟨rfl, agree⟩
    | none =>
        rw [stop] at side
        exact side.high_iff.mpr (by rintro _ ⟨⟩)
  have loop : boundsLoop m.key (m.byteNum - v.pos) v.pos v.start v.stop = none ↔ _ :=
    boundsLoop_none_iff ordered first last
  rw [Nat.add_sub_cancel' deep] at loop
  rw [report, if_pos kind]
  cases result : boundsLoop m.key (m.byteNum - v.pos) v.pos v.start v.stop with
  | none =>
      have outside := loop.mp result
      simp only [Option.some.injEq]
      refine ⟨fun same => ⟨same.symm, fun x low high agree => outside x agree ⟨low, high⟩⟩,
        fun both => both.1.symm⟩
  | some _ =>
      simp only [reduceCtorEq, false_iff, not_and]
      intro _ outside
      have gone := loop.mpr fun x agree inside => outside x inside.1 inside.2 agree
      rw [result] at gone
      cases gone

omit ordered returned in
/-- What a plain leaf reports is what it has of the range. -/
theorem report_plain {v : Visit K} (listed : v ∈ visits) {m : TreeLeaf K V}
    (leaf : heap.node v.leaf = some (.leaf m)) (kind : m.leaf.isLog = false) {part : List (K × V)}
    (given : report m v = some part) (kv : K × V) :
    kv ∈ part ↔ kv ∈ m.leaf.contents ∧ lo ≤ kv.1 ∧ kv.1 ≤ hi := by
  obtain ⟨ok, _⟩ := shaped.leaves _ _ leaf
  rw [report, if_neg (by rw [kind]; exact Bool.false_ne_true)] at given
  split at given
  · cases given
    rw [mem_trimmed ok.sorted, Leaf.contents_none (ok.small kind)]
    refine and_congr_right fun member => ?_
    obtain ⟨_, m', leaf', marks⟩ := visited.leaf v listed
    rw [leaf] at leaf'
    cases leaf'
    have stored : (kv.1, kv.2) ∈ RadixLeaf.pairs m := by
      change kv ∈ m.leaf.contents
      rw [Leaf.contents_none (ok.small kind)]
      exact member
    obtain ⟨n, bounds⟩ := marks kv.1 (.inr ⟨kv.2, stored⟩)
    rw [bounds.low.low_iff, bounds.high.high_iff]
    rfl
  · cases given

omit shaped visited ordered returned in
/-- A plain leaf is reported exactly when the loops stay inside. -/
theorem gives_plain {v : Visit K} {m : TreeLeaf K V} (leaf : heap.node v.leaf = some (.leaf m))
    (kind : m.leaf.isLog = false) :
    (∃ part, Gives heap v m part) ↔ (∀ s ∈ v.start, ∃ kv ∈ m.leaf.keyVals, s ≤ kv.1) ∧
    ∀ e ∈ v.stop, ∃ kv ∈ m.leaf.keyVals, kv.1 ≤ e := by
  rw [← trimReads_inside]
  constructor
  · rintro ⟨part, _, given⟩
    rw [report, if_neg (by rw [kind]; exact Bool.false_ne_true)] at given
    split at given
    · rename_i inside
      exact inside
    · cases given
  · intro inside
    refine ⟨trimmed m.leaf.keyVals v.start v.stop, leaf, ?_⟩
    rw [report, if_neg (by rw [kind]; exact Bool.false_ne_true)]
    exact if_pos inside

theorem logs_of_gives (each : ∀ v ∈ visits, ∃ m part, Gives heap v m part) (b : Addr)
    (m : TreeLeaf K V) (there : Reach heap root b ∧ heap.node b = some (.leaf m))
    (kind : m.leaf.isLog = true) (x : K) (low : lo ≤ x) (high : x ≤ hi) :
    ¬ Agree x m.key m.byteNum := by
  obtain ⟨reach, leaf⟩ := there
  intro agree
  obtain ⟨v, listed, rfl, _⟩ :=
    visited.trail x b low high (reach.trail_of_header shaped.sound leaf agree).1
  obtain ⟨m', part, leaf', given⟩ := each v listed
  rw [leaf] at leaf'
  cases leaf'
  exact ((report_log shaped ordered returned visited listed leaf kind).mp given).2 x low high agree

omit returned in
theorem ends_of_gives (each : ∀ v ∈ visits, ∃ m part, Gives heap v m part) :
    EndsIn heap lo (fun l => l.isLog = false → ∃ kv ∈ l.keyVals, lo ≤ kv.1) ∧
      EndsIn heap hi fun l => l.isLog = false → ∃ kv ∈ l.keyVals, kv.1 ≤ hi := by
  have known {v : Visit K} (listed : v ∈ visits) {m : TreeLeaf K V}
    (leaf : heap.node v.leaf = some (.leaf m)) : ∃ part, Gives heap v m part := by
    obtain ⟨m', part, leaf', given⟩ := each v listed
    rw [leaf] at leaf'
    cases leaf'
    exact ⟨part, leaf, given⟩
  rw [endsIn_iff shaped, endsIn_iff shaped]
  refine ⟨fun b m trail leaf kind => ?_, fun b m trail leaf kind => ?_⟩
  · obtain ⟨v, listed, rfl, kept, _⟩ := visited.trail lo b le_rfl ordered trail
    exact ((gives_plain leaf kind).mp (known listed leaf)).1 lo (kept rfl rfl)
  · obtain ⟨v, listed, rfl, _, kept⟩ := visited.trail hi b ordered le_rfl trail
    exact ((gives_plain leaf kind).mp (known listed leaf)).2 hi (kept rfl rfl)

theorem gives_of_readable {map : K → Option V}
    (readable : Readable heap (Reach heap root) map lo hi) :
    ∀ v ∈ visits, ∃ m part, Gives heap v m part := by
  intro v listed
  obtain ⟨reach, m, leaf, marks⟩ := visited.leaf v listed
  obtain ⟨ok, sized⟩ := shaped.leaves _ _ leaf
  cases kind : m.leaf.isLog with
  | true =>
      refine ⟨m, [], leaf, (report_log shaped ordered returned visited listed leaf kind).mpr
        ⟨rfl, fun x low high => ?_⟩⟩
      exact readable.logs v.leaf m ⟨reach, leaf⟩ kind x low high
  | false =>
      have plain := Leaf.contents_none (ok.small kind)
      obtain ⟨kv, member⟩ : ∃ kv, kv ∈ m.leaf.keyVals := by
        rw [Sized, kind, if_neg Bool.false_ne_true] at sized
        exact List.exists_mem_of_length_pos sized.1
      have mark : Marks m kv.1 := by
        refine .inr ⟨kv.2, ?_⟩
        change kv ∈ m.leaf.contents
        rw [plain]
        exact member
      obtain ⟨n, bounds⟩ := marks kv.1 mark
      have first := (endsIn_iff shaped lo _).mp readable.low
      have last := (endsIn_iff shaped hi _).mp readable.high
      refine ⟨m, (gives_plain leaf kind).mpr ⟨fun s left => ?_, fun e left => ?_⟩⟩
      · have side := bounds.low
        rw [left] at side
        obtain ⟨rfl, _⟩ := side
        rcases visited.low v listed (by rw [left]; simp) with trail | above
        · exact first v.leaf m trail leaf kind
        · exact ⟨kv, member, (above m kv.1 leaf mark).le⟩
      · have side := bounds.high
        rw [left] at side
        obtain ⟨rfl, _⟩ := side
        rcases visited.high v listed (by rw [left]; simp) with trail | below
        · exact last v.leaf m trail leaf kind
        · exact ⟨kv, member, (below m kv.1 leaf mark).le⟩

omit ordered returned in
-- Whatever a plain leaf reports is stored on the path of its key.
theorem path_of_report {v : Visit K} (listed : v ∈ visits) {m : TreeLeaf K V} {part : List (K × V)}
    (gives : Gives heap v m part) (kind : m.leaf.isLog = false) {kv : K × V} (member : kv ∈ part) :
    Path heap kv.1 root v.leaf := by
  have stored := ((report_plain shaped visited listed gives.1 kind gives.2 kv).mp member).1
  exact (visited.leaf v listed).1.path shaped.sound gives.1 (k := kv.1) (v := kv.2) stored

/-- What is reported is what the plain leaves answer for the keys of the range. -/
theorem reportAll_reports (done : reportAll heap visits = some pairs) :
    Reports pairs (plainAnswers heap) (some lo) (some hi) := by
  have bounds (k : K) : InBounds (some lo) (some hi) k ↔ lo ≤ k ∧ k ≤ hi := by simp [InBounds]
  obtain ⟨each, members⟩ := reportAll_gives done
  have plain {v : Visit K} (listed : v ∈ visits) {m : TreeLeaf K V} {part : List (K × V)}
      (gives : Gives heap v m part) {kv : K × V} (member : kv ∈ part) : m.leaf.isLog = false := by
    by_contra log
    have log : m.leaf.isLog = true := by simpa using log
    rw [((report_log shaped ordered returned visited listed gives.1 log).mp gives.2).1] at member
    cases member
  refine ⟨reportAll_distinct done visited.once ?_ ?_, fun k w => ?_⟩
  · intro v listed m part gives
    cases kind : m.leaf.isLog with
    | true =>
        rw [((report_log shaped ordered returned visited listed gives.1 kind).mp gives.2).1]
        exact List.Pairwise.nil
    | false =>
        have given := gives.2
        rw [report, if_neg (by rw [kind]; exact Bool.false_ne_true)] at given
        split at given
        · cases given
          exact List.Pairwise.sublist (trimmed_sublist _ _ _)
            (shaped.leaves _ _ gives.1).1.sorted.distinct
        · cases given
  · intro v listed w listed' m m' part part' gives gives' apart one member other member' same
    have path := path_of_report shaped visited listed gives (plain listed gives member) member
    have path' := path_of_report shaped visited listed' gives' (plain listed' gives' member')
      member'
    rw [← same] at path'
    exact apart (same_leaf path path' gives.1 gives'.1)
  · rw [bounds, plainAnswers_iff shaped]
    constructor
    · intro member
      obtain ⟨v, listed, m, part, gives, held⟩ := (members (k, w)).mp member
      have kind := plain listed gives held
      obtain ⟨stored, low, high⟩ :=
        (report_plain shaped visited listed gives.1 kind gives.2 (k, w)).mp held
      have trail := (path_of_report shaped visited listed gives kind held).trail_of_member
        shaped.sound gives.1 stored
      exact ⟨⟨v.leaf, m, trail, gives.1, kind, stored⟩, low, high⟩
    · rintro ⟨⟨b, m, trail, leaf, kind, member⟩, low, high⟩
      obtain ⟨v, listed, rfl, _⟩ := visited.trail k b low high trail
      obtain ⟨m', part, gives⟩ := each v listed
      have same := gives.1
      rw [leaf] at same
      cases same
      refine (members (k, w)).mpr ⟨v, listed, m, part, gives, ?_⟩
      exact (report_plain shaped visited listed leaf kind gives.2 (k, w)).mpr ⟨member, low, high⟩

end Visits

theorem rangePairs_iff (ordered : lo ≤ hi) (map : K → Option V) :
    (∃ pairs, rangePairs heap lo hi = some pairs ∧ Reports pairs map (some lo) (some hi)) ↔
      Readable heap (Reach heap root) map lo hi := by
  obtain ⟨visits, returned, visited⟩ := range_visited shaped.sound lo hi
  rw [rangePairs, returned, Option.bind_some]
  constructor
  · rintro ⟨pairs, done, reports⟩
    have each := (reportAll_gives done).1
    obtain ⟨low, high⟩ := ends_of_gives shaped ordered visited each
    exact ⟨logs_of_gives shaped ordered returned visited each, low, high,
      (reports_iff (reportAll_reports shaped ordered returned visited done)).mp reports⟩
  · intro readable
    obtain ⟨pairs, done⟩ :=
      reportAll_returns (gives_of_readable shaped ordered returned visited readable)
    exact ⟨pairs, done, (reports_iff (reportAll_reports shaped ordered returned visited done)).mpr
      readable.answers⟩

end Tree

section Clip

/-- The part of a well shaped tree that a range can meet is well shaped. -/
theorem Shaped.clip (shaped : Shaped heap) (lo hi : K) : Shaped (heap.clip lo hi) :=
  ⟨shaped.sound.clip lo hi, fun b m leaf => shaped.leaves b m (clip_leaf.mp leaf).2⟩

theorem reportAll_clip
    (visited : ∀ v ∈ visits, ∃ m, (heap.clip lo hi).node v.leaf = some (.leaf m)) :
    reportAll (heap.clip lo hi) visits = reportAll heap visits := by
  induction visits with
  | nil => rfl
  | cons v rest ih =>
      obtain ⟨m, here⟩ := visited v (.head _)
      rw [reportAll, reportAll, here, (clip_leaf.mp here).2]
      simp only [ih fun w later => visited w (.tail _ later)]

theorem rangePairs_clip (sound : Sound 1 maxSparseSize (heap.clip lo hi)) :
    rangePairs (heap.clip lo hi) lo hi = rangePairs heap lo hi := by
  obtain ⟨visits, returned, visited⟩ := range_visited sound lo hi
  have same := range_clip sound
  rw [returned] at same
  rw [rangePairs, rangePairs, returned, ← same, Option.bind_some, Option.bind_some]
  refine reportAll_clip fun v listed => ?_
  obtain ⟨_, m, leaf, _⟩ := visited.leaf v listed
  exact ⟨m, leaf⟩

theorem leafAt_clip {c : Option Addr} (met : ∀ c', c = some c' → Met heap lo hi c') :
    leafAt (heap.clip lo hi) c = leafAt heap c := by
  refine Option.ext fun found => ?_
  rw [leafAt_some, leafAt_some, clip_leaf]
  exact and_congr_right fun held => and_iff_right (met _ held)

theorem readable_clip (sound : Sound 1 maxSparseSize (heap.clip lo hi)) (ordered : lo ≤ hi)
    (map : K → Option V) :
    Readable (heap.clip lo hi) (Reach (heap.clip lo hi) root) map lo hi ↔
      Readable heap (Met heap lo hi) map lo hi := by
  have search (k : K) (low : lo ≤ k) (high : k ≤ hi) :
      ((findLocation (heap.clip lo hi) k).bind fun location =>
        leafAt (heap.clip lo hi) location.c) =
        (findLocation heap k).bind fun location => leafAt heap location.c := by
    obtain ⟨location, _, found, found', _, met⟩ := located_clip sound low high
    rw [found, found', Option.bind_some, Option.bind_some, leafAt_clip met]
  have ends (k : K) (low : lo ≤ k) (high : k ≤ hi) (such : Leaf K V → Prop) :
      EndsIn (heap.clip lo hi) k such ↔ EndsIn heap k such := by
    rw [EndsIn, EndsIn, search k low high]
  have plain (k : K) (low : lo ≤ k) (high : k ≤ hi) :
      plainAnswers (heap.clip lo hi) k = plainAnswers heap k := by
    rw [plainAnswers, plainAnswers, search k low high]
  constructor
  · rintro ⟨logs, first, last, answers⟩
    exact ⟨fun b m there => logs b m (met_leaf.mp there), (ends lo le_rfl ordered _).mp first,
      (ends hi ordered le_rfl _).mp last,
      fun k low high => (plain k low high).symm.trans (answers k low high)⟩
  · rintro ⟨logs, first, last, answers⟩
    exact ⟨fun b m there => logs b m (met_leaf.mpr there), (ends lo le_rfl ordered _).mpr first,
      (ends hi ordered le_rfl _).mpr last,
      fun k low high => (plain k low high).trans (answers k low high)⟩

end Clip

-- The first three keys share a log leaf; the fourth, with another first byte, has its own leaf.
def farKey : Key := ⟨2 ^ 56, by decide⟩

def fourInserts : List (Op Key Nat) :=
  [.insert 1 10, .insert 2 20, .insert 3 30, .insert farKey 40]

end SetBench.SingleLog
