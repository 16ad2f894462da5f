import SetBench.Probing

/-! hashset_new of hashtable.h: the set of announced hazard pointers that a reclaimer scans.
The table has a power of two cells, at least twice the number of elements it is made for. -/
namespace SetBench.HashsetNew

open Probing

/-- Pointers that are not null; an empty cell is `none`. -/
abbrev Pointer := {address : BitVec 64 // address ≠ 0#64}

-- MurmurHash3's integer finalizer; long long is signed.
@[irreducible] def hash (key : Pointer) : BitVec 64 :=
  let k := key.val
  let k := k ^^^ k.sshiftRight 33
  let k := k * 0xff51afd7ed558ccd#64
  let k := k ^^^ k.sshiftRight 33
  let k := k * 0xc4ceb9fe1a85ec53#64
  k ^^^ k.sshiftRight 33

structure Hashset where
  tableSize : Nat
  keys : Cells Pointer
  size : Int

namespace Hashset

variable (set : Hashset)

def firstIndex (key : Pointer) : Nat := (hash key).toNat &&& (set.tableSize - 1)

def nextIndex (ix : Nat) : Nat := (ix + 1) &&& (set.tableSize - 1)

/-- The loop of getIndex, for at most `fuel` cells. -/
def getIndex (fuel : Nat) (key : Pointer) : Option Nat :=
  linearSearch set.keys set.nextIndex key fuel (set.firstIndex key)

def clear : Hashset := if set.size ≠ 0 then { set with keys := fun _ => none, size := 0 } else set

def get (fuel : Nat) (key : Pointer) : Option (Option Pointer) :=
  (set.getIndex fuel key).map set.keys

def contains (fuel : Nat) (key : Pointer) : Option Bool := (set.get fuel key).map Option.isSome

def insert (fuel : Nat) (key : Pointer) : Option Hashset :=
  match set.getIndex fuel key with
  | none => none
  | some ix =>
      if set.keys ix = none then
        some { set with keys := Function.update set.keys ix (some key), size := set.size + 1 }
      else some set

end Hashset

-- The loop of the constructor; int arithmetic wraps.
def grow (numberOfElements : BitVec 32) : Nat → BitVec 32 → Option (BitVec 32)
  | 0, _ => none
  | fuel + 1, tableSize =>
      if tableSize.slt (numberOfElements * 2#32) then grow numberOfElements fuel (tableSize * 2#32)
      else some tableSize

-- What the fresh array holds does not matter: the size -1 makes clear wipe it.
def new (numberOfElements : BitVec 32) (fuel : Nat) (fresh : Cells Pointer) : Option Hashset :=
  (grow numberOfElements fuel 32#32).map fun tableSize => Hashset.clear ⟨tableSize.toNat, fresh, -1⟩

inductive Call where
  | clear
  | insert (key : Pointer)

def Hashset.call (fuel : Nat) (set : Hashset) : Call → Option Hashset
  | .clear => some set.clear
  | .insert key => set.insert fuel key

def Hashset.run (fuel : Nat) (set : Hashset) : List Call → Option Hashset
  | [] => some set
  | call :: rest => (set.call fuel call).bind fun set => run fuel set rest

/-! The set that the calls stand for. -/

def announce (keys : Finset Pointer) : Call → Finset Pointer
  | .clear => ∅
  | .insert key => Insert.insert key keys

/-- The keys inserted since the last clear. -/
def announced (calls : List Call) : Finset Pointer := calls.foldl announce ∅

def Limited (numberOfElements : Int) (calls : List Call) : Prop :=
  ∀ before, before <+: calls → ((announced before).card : Int) ≤ numberOfElements

/-! The constructor. -/

theorem double_power (start : Nat) :
    BitVec.ofNat 32 (2 ^ start) * 2#32 = BitVec.ofNat 32 (2 ^ (start + 1)) := by
  apply BitVec.eq_of_toNat_eq
  rw [BitVec.toNat_mul, BitVec.toNat_ofNat, BitVec.toNat_ofNat, BitVec.toNat_ofNat, Nat.mod_mul_mod,
    pow_succ]
  rfl

theorem toInt_power {start : Nat} (low : start ≤ 30) :
    (BitVec.ofNat 32 (2 ^ start)).toInt = 2 ^ start := by
  have bound : 2 ^ start ≤ 2 ^ 30 := Nat.pow_le_pow_right (by decide) low
  have nonneg : (0 : Int) ≤ (2 ^ start : Nat) := Int.natCast_nonneg _
  have bound' : ((2 ^ start : Nat) : Int) ≤ 2 ^ 30 := by exact_mod_cast bound
  rw [BitVec.toInt_ofNat', Int.bmod_eq_of_le (by omega) (by omega)]
  exact Nat.cast_pow 2 start

theorem power_le (start : Nat) : (BitVec.ofNat 32 (2 ^ start)).toInt ≤ 2 ^ 30 := by
  by_cases low : start ≤ 30
  · rw [toInt_power low]
    exact pow_le_pow_right₀ (by decide) low
  · by_cases last : start = 31
    · subst last
      decide
    · obtain ⟨rest, rfl⟩ := Nat.exists_eq_add_of_le (show 32 ≤ start by omega)
      have zero : BitVec.ofNat 32 (2 ^ (32 + rest)) = 0#32 := by
        apply BitVec.eq_of_toNat_eq
        rw [BitVec.toNat_ofNat, pow_add, Nat.mul_mod_right]
        rfl
      rw [zero]
      decide

theorem toInt_double {n : BitVec 32} (nonneg : 0 ≤ n.toInt) (low : n.toInt < 2 ^ 30) :
    (n * 2#32).toInt = n.toInt * 2 := by
  rw [BitVec.toInt_mul, show (2#32).toInt = 2 from rfl, Int.bmod_eq_of_le (by omega) (by omega)]

theorem toInt_double_large {n : BitVec 32} (high : 2 ^ 30 ≤ n.toInt) : (n * 2#32).toInt < 0 := by
  have below := BitVec.toInt_lt (x := n)
  rw [BitVec.toInt_mul, show (2#32).toInt = 2 from rfl, Int.bmod_def]
  omega

theorem grow_stops {n : BitVec 32} (nonneg : 0 ≤ n.toInt) (small : n.toInt ≤ 2 ^ 29)
    {fuel start : Nat} (low : start ≤ 30) (enough : 30 < start + fuel) :
    ∃ k, start ≤ k ∧ k ≤ 30 ∧ n.toInt * 2 ≤ 2 ^ k ∧
      grow n fuel (BitVec.ofNat 32 (2 ^ start)) = some (BitVec.ofNat 32 (2 ^ k)) := by
  induction fuel generalizing start with
  | zero => omega
  | succ fuel ih =>
      rw [grow, BitVec.slt_eq_decide, toInt_double nonneg (by omega), toInt_power low]
      by_cases larger : (2 : Int) ^ start < n.toInt * 2
      · rw [decide_eq_true larger, if_pos rfl, double_power]
        have room : start ≠ 30 := by
          rintro rfl
          omega
        obtain ⟨k, above, rest⟩ := @ih (start + 1) (by omega) (by omega)
        exact ⟨k, by omega, rest⟩
      · rw [decide_eq_false larger]
        exact ⟨start, Nat.le_refl _, low, by omega, rfl⟩

theorem grow_never {n : BitVec 32} (large : 2 ^ 29 < n.toInt) (low : n.toInt < 2 ^ 30)
    (fuel start : Nat) :
    grow n fuel (BitVec.ofNat 32 (2 ^ start)) = none := by
  induction fuel generalizing start with
  | zero => rfl
  | succ fuel ih =>
      have below := power_le start
      rw [grow, BitVec.slt_eq_decide, toInt_double (by omega) low, decide_eq_true (by omega),
        if_pos rfl, double_power]
      exact ih (start + 1)

/-! A table of a power of two cells. -/

namespace Hashset

def probe (tableSize : Nat) (key : Pointer) (j : Nat) : Nat :=
  (fun ix => (ix + 1) &&& (tableSize - 1))^[j] ((hash key).toNat &&& (tableSize - 1))

theorem probe_eq (bits : Nat) (key : Pointer) (j : Nat) :
    probe (2 ^ bits) key j = ((hash key).toNat + j) % 2 ^ bits := by
  induction j with
  | zero =>
      rw [probe, Function.iterate_zero_apply, Nat.and_two_pow_sub_one_eq_mod, Nat.add_zero]
  | succ j ih =>
      rw [probe, Function.iterate_succ_apply']
      change (probe (2 ^ bits) key j + 1) &&& (2 ^ bits - 1) = _
      rw [ih, Nat.and_two_pow_sub_one_eq_mod, Nat.mod_add_mod, Nat.add_assoc]

theorem probe_lt (bits : Nat) (key : Pointer) (j : Nat) : probe (2 ^ bits) key j < 2 ^ bits := by
  rw [probe_eq]
  exact Nat.mod_lt _ (Nat.two_pow_pos bits)

-- Linear probing comes to every cell.
theorem probe_covers {bits place : Nat} (key : Pointer) (inside : place < 2 ^ bits) :
    ∃ j < 2 ^ bits, probe (2 ^ bits) key j = place := by
  have first := Nat.mod_lt (hash key).toNat (Nat.two_pow_pos bits)
  refine ⟨(place + (2 ^ bits - (hash key).toNat % 2 ^ bits)) % 2 ^ bits,
    Nat.mod_lt _ (Nat.two_pow_pos bits), ?_⟩
  rw [probe_eq, Nat.add_mod_mod, ← Nat.mod_add_mod]
  have around : (hash key).toNat % 2 ^ bits + (place + (2 ^ bits - (hash key).toNat % 2 ^ bits)) =
    place + 2 ^ bits := by
    omega
  rw [around, Nat.add_mod_right, Nat.mod_eq_of_lt inside]

structure Inv (bits : Nat) (keys : Finset Pointer) (set : Hashset) : Prop where
  tableSize : set.tableSize = 2 ^ bits
  chained : Chained set.keys (probe (2 ^ bits))
  stored : ∀ key, Stored set.keys key ↔ key ∈ keys
  size : set.size = keys.card

section Inv

variable {bits : Nat} {keys : Finset Pointer} {set : Hashset}

theorem Inv.getIndex (inv : Inv bits keys set) (room : keys.card < 2 ^ bits) {fuel : Nat}
    (enough : 2 ^ bits ≤ fuel) (key : Pointer) :
    ∃ j, EndsAt set.keys (probe (2 ^ bits) key) key j ∧ set.getIndex fuel key =
      some (probe (2 ^ bits) key j) := by
  obtain ⟨place, inside, empty⟩ := inv.chained.exists_empty (fun key => (inv.stored key).mp) room
  obtain ⟨j, below, here⟩ := probe_covers key inside
  have stops : Stops set.keys key (probe (2 ^ bits) key j) := by
    rw [here]
    exact .inl empty
  obtain ⟨i, earlier, ends⟩ := endsAt_of_stops stops
  refine ⟨i, ends, ?_⟩
  have walk := linearSearch_eq set.keys set.nextIndex key (set.firstIndex key) fuel 0
  have same : (fun j => set.nextIndex^[j] (set.firstIndex key)) = probe (2 ^ bits) key := by
    rw [← inv.tableSize]
    rfl
  rw [Function.iterate_zero_apply, same] at walk
  rw [Hashset.getIndex, walk]
  exact search_from ends (Nat.zero_le i) (by omega)

theorem Inv.contains (inv : Inv bits keys set) (room : keys.card < 2 ^ bits) {fuel : Nat}
    (enough : 2 ^ bits ≤ fuel) (key : Pointer) :
    set.contains fuel key = some (decide (key ∈ keys)) := by
  obtain ⟨j, ends, found⟩ := inv.getIndex room enough key
  rw [Hashset.contains, get, found, Option.map_some, Option.map_some]
  congr 1
  rw [Bool.eq_iff_iff, decide_eq_true_iff, ← inv.stored, ← inv.chained.found_iff ends]
  rcases ends.stops with empty | held
  · simp [empty]
  · simp [held]

theorem Inv.clear (inv : Inv bits keys set) : Inv bits ∅ set.clear := by
  rw [Hashset.clear]
  by_cases empty : set.size = 0
  · have none_left : keys = ∅ := by
      have := inv.size
      rw [← Finset.card_eq_zero]
      omega
    rw [if_neg (by simpa using empty), ← none_left]
    exact inv
  · rw [if_pos empty]
    refine ⟨inv.tableSize, chained_empty, fun key => ⟨?_, ?_⟩, rfl⟩
    · rintro ⟨_, held⟩
      cases held
    · intro member
      cases member

theorem Inv.insert (inv : Inv bits keys set) (room : keys.card < 2 ^ bits) {fuel : Nat}
    (enough : 2 ^ bits ≤ fuel) (key : Pointer) :
    ∃ after, set.insert fuel key = some after ∧ Inv bits (Insert.insert key keys) after := by
  obtain ⟨j, ends, found⟩ := inv.getIndex room enough key
  by_cases empty : set.keys (probe (2 ^ bits) key j) = none
  · have absent : key ∉ keys := by
      rw [← inv.stored, ← inv.chained.found_iff ends, empty]
      intro held
      cases held
    have inserted : set.insert fuel key =
        some { set with
          keys := Function.update set.keys (probe (2 ^ bits) key j) (some key)
          size := set.size + 1 } := by
      rw [Hashset.insert, found]
      exact if_pos empty
    refine ⟨_, inserted, inv.tableSize, inv.chained.put ends, fun other => ?_, ?_⟩
    · rw [stored_put ends.stops, inv.stored, Finset.mem_insert]
    · change set.size + 1 = _
      rw [Finset.card_insert_of_notMem absent, inv.size]
      rfl
  · have present : key ∈ keys := by
      rw [← inv.stored, ← inv.chained.found_iff ends]
      exact ends.stops.resolve_left empty
    refine ⟨set, by rw [Hashset.insert, found]; exact if_neg empty, ?_⟩
    rw [Finset.insert_eq_of_mem present]
    exact inv

theorem Inv.run (inv : Inv bits keys set) {fuel : Nat} (enough : 2 ^ bits ≤ fuel)
    (calls : List Call)
    (room : ∀ before, before <+: calls → (before.foldl announce keys).card < 2 ^ bits) :
    ∃ after, set.run fuel calls = some after ∧ Inv bits (calls.foldl announce keys) after := by
  induction calls generalizing set keys with
  | nil => exact ⟨set, rfl, inv⟩
  | cons call rest ih =>
      have later (next : Finset Pointer) (same : next = announce keys call) (before : List Call)
        (start : before <+: rest) :
          (before.foldl announce next).card < 2 ^ bits := by
        subst same
        exact room (call :: before) (List.cons_prefix_cons.mpr ⟨rfl, start⟩)
      cases call with
      | clear =>
          obtain ⟨after, ran, kept⟩ := ih inv.clear (later _ rfl)
          exact ⟨after, ran, kept⟩
      | insert key =>
          obtain ⟨middle, inserted, inv⟩ := inv.insert (room [] List.nil_prefix) enough key
          obtain ⟨after, ran, kept⟩ := ih inv (later _ rfl)
          exact ⟨after, by rw [Hashset.run, call, inserted]; exact ran, kept⟩

end Inv

theorem run_tableSize {fuel : Nat} {set after : Hashset} {calls : List Call}
    (ran : set.run fuel calls = some after) :
    after.tableSize = set.tableSize := by
  induction calls generalizing set with
  | nil =>
      cases ran
      rfl
  | cons call rest ih =>
      rw [run, Option.bind_eq_some_iff] at ran
      obtain ⟨middle, stepped, ran⟩ := ran
      rw [ih ran]
      cases call with
      | clear =>
          cases stepped
          rw [clear]
          split <;> rfl
      | insert key =>
          rw [call, insert] at stepped
          split at stepped
          · cases stepped
          · split at stepped <;> cases stepped <;> rfl

end Hashset

theorem new_inv {n : BitVec 32} (nonneg : 0 ≤ n.toInt) (small : n.toInt ≤ 2 ^ 29)
    (fresh : Cells Pointer) {fuel : Nat} (enough : 26 ≤ fuel) :
    ∃ bits start, 5 ≤ bits ∧ bits ≤ 30 ∧ n.toInt * 2 ≤ 2 ^ bits ∧ new n fuel fresh = some start ∧
      Hashset.Inv bits ∅ start := by
  obtain ⟨bits, low, high, fits, grown⟩ := @grow_stops n nonneg small fuel 5 (by decide) (by omega)
  have size : (BitVec.ofNat 32 (2 ^ bits)).toNat = 2 ^ bits := by
    have bound : 2 ^ bits ≤ 2 ^ 30 := Nat.pow_le_pow_right (by decide) high
    rw [BitVec.toNat_ofNat, Nat.mod_eq_of_lt (by omega)]
  have made : new n fuel fresh = some ⟨2 ^ bits, fun _ => none, 0⟩ := by
    rw [new, show (32#32) = BitVec.ofNat 32 (2 ^ 5) from rfl, grown, Option.map_some, size]
    rfl
  refine ⟨bits, _, low, high, fits, made, rfl, chained_empty, fun key => ⟨?_, ?_⟩, rfl⟩
  · rintro ⟨_, held⟩
    cases held
  · intro member
    cases member

/-- What the reclaimers rely on, for a set made for `numberOfElements`. -/
def Exact (numberOfElements : BitVec 32) : Prop :=
  ∀ calls, Limited numberOfElements.toInt calls → ∀ fresh, ∃ fuel start set,
    new numberOfElements fuel fresh = some start ∧ start.run fuel calls = some set ∧
    set.size = (announced calls).card ∧
    (∀ key, set.contains fuel key = some (decide (key ∈ announced calls))) ∧
    ∀ key j, set.nextIndex^[j] (set.firstIndex key) < set.tableSize

theorem exact_of_small {n : BitVec 32} (small : n.toInt ≤ 2 ^ 29) : Exact n := by
  intro calls limited fresh
  have nonneg : 0 ≤ n.toInt := by
    have none_yet := limited [] List.nil_prefix
    omega
  obtain ⟨fuel, small_fuel, large_fuel⟩ : ∃ fuel, 26 ≤ fuel ∧ 2 ^ 30 ≤ fuel :=
    ⟨2 ^ 30, by decide, Nat.le_refl _⟩
  obtain ⟨bits, start, low, high, fits, made, inv⟩ := new_inv nonneg small fresh small_fuel
  have enough : 2 ^ bits ≤ fuel := (Nat.pow_le_pow_right (by decide) high).trans large_fuel
  have room (before : List Call) (earlier : before <+: calls) :
    (before.foldl announce ∅).card < 2 ^ bits := by
    have count := limited before earlier
    rw [announced] at count
    have least : 2 ^ 5 ≤ 2 ^ bits := Nat.pow_le_pow_right (by decide) low
    have fits : n.toInt * 2 ≤ ((2 ^ bits : Nat) : Int) := by rw [Nat.cast_pow]; exact fits
    omega
  obtain ⟨set, ran, kept⟩ := inv.run enough calls room
  refine ⟨fuel, start, set, made, ran, kept.size,
    fun key => kept.contains (room calls (List.prefix_refl _)) enough key, fun key j => ?_⟩
  have inside := Hashset.probe_lt bits key j
  rw [← kept.tableSize] at inside
  exact inside

/-! Beyond 2^29 elements the doubling overflows: the constructor does not end, or the table
keeps its first 32 cells. -/

theorem card_announced_le (calls : List Call) (keys : Finset Pointer) :
    (calls.foldl announce keys).card ≤ keys.card + calls.length := by
  induction calls generalizing keys with
  | nil => simp
  | cons call rest ih =>
      have step : (announce keys call).card ≤ keys.card + 1 := by
        cases call with
        | clear => simp [announce]
        | insert key => exact Finset.card_insert_le key keys
      have := ih (announce keys call)
      rw [List.foldl_cons, List.length_cons]
      omega

def pointer (i : Nat) : Pointer := ⟨BitVec.ofNat 64 (i % 2 ^ 32 + 1), by
  intro zero
  have := congrArg BitVec.toNat zero
  rw [BitVec.toNat_ofNat] at this
  simp at this
  omega⟩

def tooMany : List Call := (List.range 33).map fun i => .insert (pointer i)

theorem card_tooMany : (announced tooMany).card = 33 := by decide +kernel

theorem not_exact_of_large {n : BitVec 32} (large : 2 ^ 29 < n.toInt) : ¬ Exact n := by
  intro isExact
  by_cases low : n.toInt < 2 ^ 30
  · have limited : Limited n.toInt [] := by
      intro before start
      rw [List.prefix_nil.mp start]
      simp [announced]
      omega
    obtain ⟨fuel, start, set, made, _⟩ := isExact [] limited fun _ => none
    rw [new, show (32#32) = BitVec.ofNat 32 (2 ^ 5) from rfl, grow_never large low] at made
    cases made
  · have limited : Limited n.toInt tooMany := by
      intro before start
      have count := card_announced_le before ∅
      have length := start.length_le
      rw [announced]
      simp only [tooMany, List.length_map, List.length_range, Finset.card_empty] at count length
      omega
    obtain ⟨fuel, start, set, made, ran, _, contains, inside⟩ :=
      isExact tooMany limited fun _ => none
    have size : set.tableSize = 32 := by
      rw [Hashset.run_tableSize ran]
      cases fuel with
      | zero => cases made
      | succ fuel =>
          have negative := toInt_double_large (n := n) (by omega)
          rw [new, grow, BitVec.slt_eq_decide,
            decide_eq_false (by have : (32#32).toInt = 32 := rfl; omega)] at made
          cases made
          rfl
    have held (key : Pointer) (member : key ∈ announced tooMany) : ∃ place < 32, set.keys place =
      some key := by
      have found := contains key
      rw [decide_eq_true member, Hashset.contains, Hashset.get, Option.map_map,
        Option.map_eq_some_iff] at found
      obtain ⟨place, index, full⟩ := found
      rw [Hashset.getIndex, ← Function.iterate_zero_apply set.nextIndex (set.firstIndex key),
        linearSearch_eq] at index
      obtain ⟨j, here, stops⟩ := search_some index
      refine ⟨place, ?_, stops.resolve_left ?_⟩
      · rw [← here, ← size]
        exact inside key j
      · intro empty
        simp [empty] at full
    choose! place below keys using held
    have fits := Finset.card_le_card_of_injOn (s := announced tooMany) (t := Finset.range 32) place
      (fun key member => Finset.mem_coe.mpr (Finset.mem_range.mpr (below key member)))
      (fun one first other second same => by
        have := (keys one first).symm.trans (same ▸ keys other second)
        exact Option.some.inj this)
    rw [card_tooMany, Finset.card_range] at fits
    omega

/-- The set is exact up to 2^29 elements, where the doubling of the constructor stays in an int. -/
theorem exact_iff (n : BitVec 32) : Exact n ↔ n.toInt ≤ 2 ^ 29 := by
  refine ⟨fun isExact => ?_, exact_of_small⟩
  by_contra large
  exact not_exact_of_large (by omega) isExact

theorem overflow_not_exact : ¬ ∀ n, Exact n := by
  intro all
  exact not_exact_of_large (n := 0x40000000#32) (by decide) (all _)

end SetBench.HashsetNew
