import Mathlib
import SetBench.Transition

/-! RWLock of common/rwlock.h with RWLOCK_FAVOR_READERS. One step is one load, fetch-and-add
or compare-and-swap of the lock word: four for each reader, two for the upgrader and one
for the writer. -/
namespace SetBench.RwLock

open Transition

inductive Pc where
  | idle
  | readAdd
  | readSpin
  | reading
  | readSub
  | upgradeLoad
  | upgradeCas (expval : BitVec 64)
  | upgradeSpin
  | upgradeSwap
  | writeSpin
  | writeCas
  | writing
  | writeSub
  deriving DecidableEq, Repr

inductive Call where
  | readLock
  | readUnlock
  | upgradeLock
  | writeLock
  | writeUnlock
  deriving DecidableEq, Repr

variable {T : Type} [DecidableEq T]

structure World (T : Type) where
  lock : BitVec 64
  pc : T → Pc

inductive Event (T : Type) where
  | call (t : T) (call : Call)
  | move (t : T)

def initial : World T := ⟨0, fun _ => .idle⟩

def World.goto (w : World T) (t : T) (pc : Pc) : World T :=
  { w with pc := Function.update w.pc t pc }

def World.write (w : World T) (lock : BitVec 64) : World T := { w with lock := lock }

def isWriteLocked (lock : BitVec 64) : Bool := lock &&& 1 ≠ 0

def isLocked (lock : BitVec 64) : Bool := lock ≠ 0

-- readUnlock after readLock, also after a failed upgradeLock; writeUnlock after the others.
def Pc.enter : Pc → Call → Option Pc
  | .idle, .readLock => some .readAdd
  | .idle, .writeLock => some .writeSpin
  | .reading, .readUnlock => some .readSub
  | .reading, .upgradeLock => some .upgradeLoad
  | .writing, .writeUnlock => some .writeSub
  | _, _ => none

def move (w : World T) (t : T) : Option (World T) :=
  match w.pc t with
  | .readAdd => some ((w.write (w.lock + 4)).goto t .readSpin)
  | .readSpin => some (if isWriteLocked w.lock then w else w.goto t .reading)
  | .readSub => some ((w.write (w.lock - 4)).goto t .idle)
  | .upgradeLoad =>
      -- The upgrade bit is someone else's: upgradeLock returns false.
      some (if w.lock &&& 2 ≠ 0 then w.goto t .reading else w.goto t (.upgradeCas w.lock))
  | .upgradeCas expval =>
      some (if w.lock = expval then (w.write ((expval - 4) ||| 2)).goto t .upgradeSpin
        else w.goto t .upgradeLoad)
  | .upgradeSpin => some (if w.lock &&& ~~~2 ≠ 0 then w else w.goto t .upgradeSwap)
  | .upgradeSwap => some (if w.lock = 2 then (w.write 1).goto t .writing else w.goto t .upgradeSpin)
  | .writeSpin => some (if isLocked w.lock then w else w.goto t .writeCas)
  | .writeCas => some (if w.lock = 0 then (w.write 1).goto t .writing else w.goto t .writeSpin)
  | .writeSub => some ((w.write (w.lock - 1)).goto t .idle)
  | .idle | .reading | .writing => none

def step (w : World T) : Event T → Option (World T)
  | .call t call => ((w.pc t).enter call).map fun pc => w.goto t pc
  | .move t => move w t

/-! Roles. -/

def Pc.weight : Pc → Nat
  | .readSpin | .reading | .readSub | .upgradeLoad | .upgradeCas _ => 4
  | .upgradeSpin | .upgradeSwap => 2
  | .writing | .writeSub => 1
  | _ => 0

-- Inside a read section, to the end of readUnlock or to the upgrade.
def Pc.reads : Pc → Bool
  | .reading | .readSub | .upgradeLoad | .upgradeCas _ => true
  | _ => false

def Pc.writes : Pc → Bool
  | .writing | .writeSub => true
  | _ => false

def Pc.upgrades : Pc → Bool
  | .upgradeSpin | .upgradeSwap => true
  | _ => false

variable [Fintype T]

def total (pc : T → Pc) : Nat := ∑ t, (pc t).weight

def readers (w : World T) : Nat := (Finset.univ.filter fun t => (w.pc t).weight = 4).card

-- The count of the readers fits its field.
def Few (w : World T) (_ : Event T) : Prop := readers w < 2 ^ 61

-- One thread and the others.
theorem total_split (pc : T → Pc) (t : T) :
    total pc = (pc t).weight + ∑ s ∈ Finset.univ.erase t, (pc s).weight :=
  (Finset.add_sum_erase Finset.univ (fun s => (pc s).weight) (Finset.mem_univ t)).symm

theorem total_update (pc : T → Pc) (t : T) (next : Pc) :
    total (Function.update pc t next) + (pc t).weight = total pc + next.weight := by
  have same : ∑ s ∈ Finset.univ.erase t, (Function.update pc t next s).weight =
    ∑ s ∈ Finset.univ.erase t, (pc s).weight := by
    refine Finset.sum_congr rfl fun s member => ?_
    rw [Function.update_of_ne (Finset.ne_of_mem_erase member)]
  rw [total_split pc t, total_split (Function.update pc t next) t, same, Function.update_self]
  omega

omit [DecidableEq T] in
theorem weight_le_total (pc : T → Pc) (t : T) : (pc t).weight ≤ total pc :=
  Finset.single_le_sum (f := fun s => (pc s).weight) (fun _ _ => Nat.zero_le _) (Finset.mem_univ t)

/-- One thread beside threads whose weights are multiples of four. -/
theorem total_mod (pc : T → Pc) (t : T) (others : ∀ s, s ≠ t → (pc s).weight % 4 = 0) :
    total pc % 4 = (pc t).weight % 4 := by
  have rest : 4 ∣ ∑ s ∈ Finset.univ.erase t, (pc s).weight :=
    Finset.dvd_sum fun s member => Nat.dvd_of_mod_eq_zero (others s (Finset.ne_of_mem_erase member))
  rw [total_split pc t]
  omega

/-! The word. -/

theorem and_one (x : BitVec 64) : x &&& 1 ≠ 0 ↔ x.toNat % 2 = 1 := by
  have value : (x &&& 1).toNat = x.toNat % 2 := by
    rw [BitVec.toNat_and]
    exact Nat.and_one_is_mod _
  rw [ne_eq, ← BitVec.toNat_inj, value]
  show ¬ x.toNat % 2 = 0 ↔ _
  omega

theorem and_two {x : BitVec 64} (set : x.toNat % 4 = 2) : x &&& 2 ≠ 0 := by
  have value : (x &&& 2).toNat = (x.toNat.testBit 1).toNat * 2 := by
    rw [BitVec.toNat_and]
    exact Nat.and_two_pow x.toNat 1
  have bit : x.toNat.testBit 1 = true := by
    rw [Nat.testBit_eq_decide_div_mod_eq]
    simp
    omega
  rw [ne_eq, ← BitVec.toNat_inj, value, bit]
  decide

theorem upgraded {x : BitVec 64} (multiple : x.toNat % 4 = 0) (positive : 4 ≤ x.toNat) :
    ((x - 4) ||| 2).toNat = x.toNat - 4 + 2 := by
  have sub : (x - 4).toNat = x.toNat - 4 := by
    rw [BitVec.toNat_sub]
    have bound := x.isLt
    show (2 ^ 64 - 4 + x.toNat) % 2 ^ 64 = _
    omega
  rw [BitVec.toNat_or, sub]
  have parts : x.toNat - 4 = 2 ^ 2 * ((x.toNat - 4) / 4) := by omega
  rw [parts]
  exact (Nat.two_pow_add_eq_or_of_lt (show 2 < 2 ^ 2 by decide) _).symm

theorem add_four {x : BitVec 64} (room : x.toNat + 4 < 2 ^ 64) : (x + 4).toNat = x.toNat + 4 := by
  rw [BitVec.toNat_add]
  exact Nat.mod_eq_of_lt room

theorem sub_of_le {x : BitVec 64} {k : Nat} (most : k ≤ x.toNat) (small : k < 2 ^ 64) :
    (x - BitVec.ofNat 64 k).toNat = x.toNat - k := by
  rw [BitVec.toNat_sub, BitVec.toNat_ofNat, Nat.mod_eq_of_lt small]
  have bound := x.isLt
  omega

/-! The invariant. -/

-- What the role of one thread leaves to another.
structure Compatible (a b : Pc) : Prop where
  writer : a.writes = true → b.reads = false ∧ b.writes = false ∧ b.upgrades = false
  upgrader : a.upgrades = true → b.upgrades = false

structure Inv (w : World T) : Prop where
  word : w.lock.toNat = total w.pc
  pairs : ∀ t s, s ≠ t → Compatible (w.pc t) (w.pc s)
  expected : ∀ t expval, w.pc t = .upgradeCas expval → expval &&& 2 = 0

theorem weight_cases (pc : Pc) :
    pc.weight = 0 ∨ pc.weight = 4 ∨ pc.upgrades = true ∧ pc.weight = 2 ∨ pc.writes = true ∧
      pc.weight = 1 := by
  cases pc
  all_goals first
    | exact .inl rfl
    | exact .inr (.inl rfl)
    | exact .inr (.inr (.inl ⟨rfl, rfl⟩))
    | exact .inr (.inr (.inr ⟨rfl, rfl⟩))

theorem weight_mod {pc : Pc} (plain : pc.upgrades = false) (calm : pc.writes = false) :
    pc.weight % 4 = 0 := by
  rcases weight_cases pc with zero | four | ⟨upgrades, _⟩ | ⟨writes, _⟩
  · omega
  · omega
  · rw [plain] at upgrades
    cases upgrades
  · rw [calm] at writes
    cases writes

theorem weight_zero {pc : Pc} (zero : pc.weight = 0) :
    pc.reads = false ∧ pc.writes = false ∧ pc.upgrades = false := by
  cases pc
  all_goals first
    | exact ⟨rfl, rfl, rfl⟩
    | cases zero

theorem weight_writer {pc : Pc} (writes : pc.writes = true) : pc.weight = 1 := by
  cases pc
  all_goals first
    | rfl
    | cases writes

theorem weight_upgrader {pc : Pc} (upgrades : pc.upgrades = true) : pc.weight = 2 := by
  cases pc
  all_goals first
    | rfl
    | cases upgrades

theorem weight_reader {pc : Pc} (reads : pc.reads = true) : pc.weight = 4 := by
  cases pc
  all_goals first
    | rfl
    | cases reads

theorem Compatible.plain {a b : Pc} (writes : a.writes = false) (upgrades : a.upgrades = false) :
    Compatible a b := by
  refine ⟨fun yes => ?_, fun yes => ?_⟩
  · rw [writes] at yes
    cases yes
  · rw [upgrades] at yes
    cases yes

theorem Compatible.absent {a b : Pc} (zero : b.weight = 0) : Compatible a b :=
  ⟨fun _ => weight_zero zero, fun _ => (weight_zero zero).2.2⟩

section Inv

variable {w : World T} (inv : Inv w)

include inv

theorem Inv.writer_odd {t : T} (writes : (w.pc t).writes = true) : w.lock.toNat % 2 = 1 := by
  have others (s : T) (apart : s ≠ t) : (w.pc s).weight % 4 = 0 := by
    have free := (inv.pairs t s apart).writer writes
    exact weight_mod free.2.2 free.2.1
  have value := total_mod w.pc t others
  have one := weight_writer writes
  have word := inv.word
  omega

theorem Inv.upgrader_two {t : T} (upgrades : (w.pc t).upgrades = true) : w.lock.toNat % 4 = 2 := by
  have others (s : T) (apart : s ≠ t) : (w.pc s).weight % 4 = 0 := by
    refine weight_mod ((inv.pairs t s apart).upgrader upgrades) ?_
    by_contra writes
    have alone := ((inv.pairs s t apart.symm).writer (by simpa using writes)).2.2
    rw [upgrades] at alone
    cases alone
  have value := total_mod w.pc t others
  have two := weight_upgrader upgrades
  have word := inv.word
  omega

theorem Inv.zero_elsewhere {t : T} (same : w.lock.toNat = (w.pc t).weight) (s : T) (apart : s ≠ t) :
    (w.pc s).weight = 0 := by
  have removed := total_update w.pc t .idle
  have least := weight_le_total (Function.update w.pc t .idle) s
  rw [Function.update_of_ne apart] at least
  have nothing : Pc.idle.weight = 0 := rfl
  have word := inv.word
  omega

theorem Inv.goto {t : T} {pc : Pc} {lock : BitVec 64}
    (word : lock.toNat + (w.pc t).weight = w.lock.toNat + pc.weight)
    (mine : ∀ s, s ≠ t → Compatible pc (w.pc s)) (others : ∀ s, s ≠ t → Compatible (w.pc s) pc)
    (expected : ∀ expval, pc = .upgradeCas expval → expval &&& 2 = 0) :
    Inv ((w.write lock).goto t pc) := by
  refine ⟨?_, fun r s apart => ?_, fun s expval here => ?_⟩
  · have sum := total_update w.pc t pc
    have before := inv.word
    show lock.toNat = total (Function.update w.pc t pc)
    omega
  · show Compatible (Function.update w.pc t pc r) (Function.update w.pc t pc s)
    by_cases first : r = t
    · subst first
      rw [Function.update_self, Function.update_of_ne apart]
      exact mine s apart
    · rw [Function.update_of_ne first]
      by_cases second : s = t
      · subst second
        rw [Function.update_self]
        exact others r first
      · rw [Function.update_of_ne second]
        exact inv.pairs r s apart
  · have place : Function.update w.pc t pc s = .upgradeCas expval := here
    by_cases self : s = t
    · rw [self, Function.update_self] at place
      exact expected expval place
    · rw [Function.update_of_ne self] at place
      exact inv.expected s expval place

-- The thread neither writes nor upgrades afterwards, and comes to read only when nobody writes.
theorem Inv.plain {t : T} {pc : Pc} {lock : BitVec 64}
    (word : lock.toNat + (w.pc t).weight = w.lock.toNat + pc.weight) (writes : pc.writes = false)
    (upgrades : pc.upgrades = false)
    (reads : pc.reads = true → (w.pc t).reads = true ∨ w.lock.toNat % 2 = 0)
    (expected : ∀ expval, pc = .upgradeCas expval → expval &&& 2 = 0) :
    Inv ((w.write lock).goto t pc) := by
  refine inv.goto word (fun s _ => .plain writes upgrades)
    (fun s apart => ⟨fun inside => ⟨?_, writes, upgrades⟩, fun _ => upgrades⟩) expected
  by_contra yes
  rcases reads (by simpa using yes) with before | even
  · have free := ((inv.pairs s t apart.symm).writer inside).1
    rw [before] at free
    cases free
  · have odd := inv.writer_odd inside
    omega

-- The thread keeps its part of the word and its role.
theorem Inv.stay {t : T} {pc : Pc} (weight : pc.weight = (w.pc t).weight)
    (reads : pc.reads = (w.pc t).reads) (writes : pc.writes = (w.pc t).writes)
    (upgrades : pc.upgrades = (w.pc t).upgrades)
    (expected : ∀ expval, pc = .upgradeCas expval → expval &&& 2 = 0) : Inv (w.goto t pc) := by
  refine inv.goto (show w.lock.toNat + (w.pc t).weight = w.lock.toNat + pc.weight by omega)
    (fun s apart => ?_) (fun s apart => ?_) expected
  · have old := inv.pairs t s apart
    exact ⟨fun inside => old.writer (writes ▸ inside),
      fun inside => old.upgrader (upgrades ▸ inside)⟩
  · have old := inv.pairs s t apart.symm
    refine ⟨fun inside => ?_, fun inside => ?_⟩
    · rw [reads, writes, upgrades]
      exact old.writer inside
    · rw [upgrades]
      exact old.upgrader inside

-- The compare-and-swap that makes its thread the writer finds nobody else.
theorem Inv.win {t : T} (before : w.lock.toNat = (w.pc t).weight) :
    Inv ((w.write 1).goto t .writing) := by
  have alone := inv.zero_elsewhere before
  refine inv.goto ?_ (fun s apart => .absent (alone s apart)) (fun s apart => ?_) nofun
  · show 1 + (w.pc t).weight = w.lock.toNat + 1
    omega
  · have zero := weight_zero (alone s apart)
    exact .plain zero.2.1 zero.2.2

theorem Inv.upgrade {t : T} {expval : BitVec 64} (pc : w.pc t = .upgradeCas expval)
    (same : w.lock = expval) :
    Inv ((w.write ((expval - 4) ||| 2)).goto t .upgradeSpin) := by
  have free : w.lock &&& 2 = 0 := same ▸ inv.expected t expval pc
  have noUpgrader (s : T) : (w.pc s).upgrades = false := by
    by_contra yes
    exact and_two (inv.upgrader_two (by simpa using yes)) free
  have reads : (w.pc t).reads = true := by
    rw [pc]
    rfl
  have noWriter (s : T) : (w.pc s).writes = false := by
    by_contra yes
    have apart : t ≠ s := by
      rintro rfl
      rw [pc] at yes
      exact yes rfl
    have alone := ((inv.pairs s t apart).writer (by simpa using yes)).1
    rw [reads] at alone
    cases alone
  have weight : (w.pc t).weight = 4 := weight_reader reads
  have multiple : w.lock.toNat % 4 = 0 := by
    have value := total_mod w.pc t fun s _ => weight_mod (noUpgrader s) (noWriter s)
    have word := inv.word
    omega
  have least : 4 ≤ w.lock.toNat := by
    have least := weight_le_total w.pc t
    have word := inv.word
    omega
  refine inv.goto ?_ (fun s _ => ⟨nofun, fun _ => noUpgrader s⟩)
    (fun s _ => .plain (noWriter s) (noUpgrader s)) nofun
  have value := upgraded multiple least
  rw [same] at value
  have two : Pc.upgradeSpin.weight = 2 := rfl
  rw [value, same, two, weight]
  rw [same] at least
  omega

end Inv

/-! The steps. -/

omit [DecidableEq T] in
theorem initial_inv : Inv (initial : World T) := by
  refine ⟨?_, fun _ _ _ => .plain rfl rfl, nofun⟩
  show 0 = total fun _ : T => Pc.idle
  exact (Finset.sum_eq_zero fun _ _ => rfl).symm

-- Beside the readers there is one writer or one upgrader at most.
omit [DecidableEq T] in
theorem Inv.word_le {w : World T} (inv : Inv w) : w.lock.toNat ≤ 4 * readers w + 2 := by
  have parts : total w.pc = (∑ t with (w.pc t).weight = 4, (w.pc t).weight) + ∑ t
    with ¬ (w.pc t).weight = 4, (w.pc t).weight :=
    (Finset.sum_filter_add_sum_filter_not _ _ _).symm
  have counted : (∑ t with (w.pc t).weight = 4, (w.pc t).weight) = readers w * 4 :=
    Finset.sum_const_nat fun t member => (Finset.mem_filter.mp member).2
  have rest : (∑ t with ¬ (w.pc t).weight = 4, (w.pc t).weight) ≤ 2 := by
    by_cases some_ : ∃ t, (w.pc t).weight ≠ 4 ∧ (w.pc t).weight ≠ 0
    · obtain ⟨t, reader, present⟩ := some_
      have only (s : T) (member : s ∈ Finset.univ.filter fun t => ¬ (w.pc t).weight = 4)
        (apart : s ≠ t) : (w.pc s).weight = 0 := by
        by_contra other
        have four := (Finset.mem_filter.mp member).2
        have mine := inv.pairs t s apart
        have back := inv.pairs s t apart.symm
        rcases weight_cases (w.pc t) with zero | many | ⟨upgrades, _⟩ | ⟨writes, _⟩
        · exact present zero
        · exact reader many
        · rcases weight_cases (w.pc s) with zero | many | ⟨both, _⟩ | ⟨writes, _⟩
          · exact other zero
          · exact four many
          · rw [mine.upgrader upgrades] at both
            cases both
          · rw [(back.writer writes).2.2] at upgrades
            cases upgrades
        · rcases weight_cases (w.pc s) with zero | many | ⟨upgrades, _⟩ | ⟨both, _⟩
          · exact other zero
          · exact four many
          · rw [(mine.writer writes).2.2] at upgrades
            cases upgrades
          · rw [(mine.writer writes).2.1] at both
            cases both
      rw [Finset.sum_eq_single t only fun absent => absurd
        (Finset.mem_filter.mpr ⟨Finset.mem_univ t, reader⟩) absent]
      rcases weight_cases (w.pc t) with zero | many | ⟨_, two⟩ | ⟨_, one⟩ <;> omega
    · push Not at some_
      rw [Finset.sum_eq_zero fun s member => some_ s (Finset.mem_filter.mp member).2]
      exact Nat.zero_le 2
  have word := inv.word
  omega

theorem enter_inv {w : World T} (inv : Inv w) {t : T} {call : Call} {pc : Pc}
    (entered : (w.pc t).enter call = some pc) : Inv (w.goto t pc) := by
  cases place : w.pc t with
  | idle =>
      cases call with
      | readLock | writeLock =>
          rw [place] at entered
          cases entered
          refine inv.stay ?_ ?_ ?_ ?_ nofun <;> rw [place] <;> rfl
      | readUnlock | upgradeLock | writeUnlock =>
          rw [place] at entered
          cases entered
  | reading =>
      cases call with
      | readUnlock | upgradeLock =>
          rw [place] at entered
          cases entered
          refine inv.stay ?_ ?_ ?_ ?_ nofun <;> rw [place] <;> rfl
      | readLock | writeLock | writeUnlock =>
          rw [place] at entered
          cases entered
  | writing =>
      cases call with
      | writeUnlock =>
          rw [place] at entered
          cases entered
          refine inv.stay ?_ ?_ ?_ ?_ nofun <;> rw [place] <;> rfl
      | readLock | readUnlock | upgradeLock | writeLock =>
          rw [place] at entered
          cases entered
  | readAdd | readSpin | readSub | upgradeLoad | upgradeCas | upgradeSpin | upgradeSwap
  | writeSpin | writeCas | writeSub =>
      rw [place] at entered
      cases entered

theorem move_inv {w after : World T} (inv : Inv w) {t : T} (few : readers w < 2 ^ 61)
    (moved : move w t = some after) : Inv after := by
  have least := weight_le_total w.pc t
  rw [← inv.word] at least
  unfold move at moved
  split at moved
  · rename_i place
    cases moved
    have most := inv.word_le
    refine inv.plain ?_ rfl rfl nofun nofun
    rw [place, add_four (by omega)]
    rfl
  · rename_i place
    split at moved <;> cases moved
    · exact inv
    · rename_i free
      refine inv.plain ?_ rfl rfl (fun _ => .inr ?_) nofun
      · rw [place]
        rfl
      · have even := mt (and_one w.lock).mpr (by simpa [isWriteLocked] using free)
        omega
  · rename_i place
    cases moved
    rw [place] at least
    refine inv.plain ?_ rfl rfl nofun nofun
    have value := sub_of_le (k := 4) least (by decide)
    rw [place]
    show (w.lock - 4#64).toNat + 4 = w.lock.toNat + 0
    have four : Pc.readSub.weight = 4 := rfl
    omega
  · rename_i place
    split at moved <;> cases moved
    · refine inv.stay ?_ ?_ ?_ ?_ nofun <;> rw [place] <;> rfl
    · rename_i free
      refine inv.stay ?_ ?_ ?_ ?_ ?_
      · rw [place]
        rfl
      · rw [place]
        rfl
      · rw [place]
        rfl
      · rw [place]
        rfl
      · intro expval same
        cases same
        simpa using free
  · rename_i expval place
    split at moved <;> cases moved
    · rename_i same
      exact inv.upgrade place same
    · refine inv.stay ?_ ?_ ?_ ?_ nofun <;> rw [place] <;> rfl
  · rename_i place
    split at moved <;> cases moved
    · exact inv
    · refine inv.stay ?_ ?_ ?_ ?_ nofun <;> rw [place] <;> rfl
  · rename_i place
    split at moved <;> cases moved
    · rename_i same
      refine inv.win ?_
      rw [place, same]
      rfl
    · refine inv.stay ?_ ?_ ?_ ?_ nofun <;> rw [place] <;> rfl
  · rename_i place
    split at moved <;> cases moved
    · exact inv
    · refine inv.stay ?_ ?_ ?_ ?_ nofun <;> rw [place] <;> rfl
  · rename_i place
    split at moved <;> cases moved
    · rename_i same
      refine inv.win ?_
      rw [place, same]
      rfl
    · refine inv.stay ?_ ?_ ?_ ?_ nofun <;> rw [place] <;> rfl
  · rename_i place
    cases moved
    rw [place] at least
    refine inv.plain ?_ rfl rfl nofun nofun
    have value := sub_of_le (k := 1) least (by decide)
    rw [place]
    show (w.lock - 1#64).toNat + 1 = w.lock.toNat + 0
    have one : Pc.writeSub.weight = 1 := rfl
    omega
  · cases moved
  · cases moved
  · cases moved

theorem step_inv (before : World T) (event : Event T) (after : World T) (inv : Inv before)
    (few : Few before event) (stepped : step before event = some after) : Inv after := by
  cases event with
  | call t call =>
      obtain ⟨pc, entered, rfl⟩ := Option.map_eq_some_iff.mp stepped
      exact enter_inv inv entered
  | move t => exact move_inv inv few stepped

def Event.thread : Event T → T
  | .call t _ | .move t => t

omit [Fintype T] in
theorem step_elsewhere {w after : World T} {event : Event T} (stepped : step w event = some after)
    (s : T) (apart : s ≠ event.thread) :
    after.pc s = w.pc s := by
  have goto (w : World T) (pc : Pc) : (w.goto event.thread pc).pc s = w.pc s :=
    Function.update_of_ne apart _ _
  cases event with
  | call t call =>
      obtain ⟨pc, _, rfl⟩ := Option.map_eq_some_iff.mp stepped
      exact goto w pc
  | move t =>
      simp only [step, move] at stepped
      split at stepped
      all_goals first
        | cases stepped
          done
        | split at stepped <;> cases stepped <;> first | rfl | exact goto _ _
        | cases stepped
          exact goto _ _

/-- In every state that threads following the protocol reach, with fewer than 2^61 readers
at each step, nobody reads or writes beside a writer, one thread at most has the upgrade
bit, and the word is 0 when nobody is inside a section or a call. -/
theorem sections_exclusive {events : List (Event T)} {w : World T}
    (run : Run step Few initial events w) :
    (∀ t, (w.pc t).writes = true → ∀ s, s ≠ t → (w.pc s).reads = false ∧ (w.pc s).writes = false)
      ∧ (∀ t s, (w.pc t).upgrades = true → (w.pc s).upgrades = true → t = s)
      ∧ ((∀ t, w.pc t = .idle) → w.lock = 0) := by
  have inv : Inv w := run_invariant Inv initial_inv step_inv run
  refine ⟨fun t writes s apart => ?_, fun t s first second => ?_, fun idle => ?_⟩
  · have free := (inv.pairs t s apart).writer writes
    exact ⟨free.1, free.2.1⟩
  · by_contra apart
    rw [(inv.pairs t s (Ne.symm apart)).upgrader first] at second
    cases second
  · have word : w.lock.toNat = 0 := by
      rw [inv.word]
      exact Finset.sum_eq_zero fun t _ => by rw [idle t]; rfl
    exact BitVec.eq_of_toNat_eq word

instance (w : World T) (event : Event T) : Decidable (Few w event) :=
  inferInstanceAs (Decidable (readers w < 2 ^ 61))

-- Thread 0 upgrades while thread 1 reads, and writes once thread 1 has left.
def upgradeBesideReader : List (Event (Fin 2)) :=
  [.call 0 .readLock, .move 0, .move 0, .call 1 .readLock, .move 1, .move 1, .call 0 .upgradeLock,
    .move 0, .move 0,
    .move 0, .call 1 .readUnlock, .move 1, .move 0, .move 0]

theorem upgrade_exclusive :
    ∃ w, Run step Few initial upgradeBesideReader w ∧ (w.pc 0).writes = true ∧ (w.pc 1).reads =
      false := by
  have replayed : (replay step Few upgradeBesideReader initial).map (fun w => (w.pc 0).writes) =
    some true := by decide +kernel
  obtain ⟨w, same, writes⟩ := Option.map_eq_some_iff.mp replayed
  have run := run_of_replay upgradeBesideReader same
  exact ⟨w, run, writes, ((sections_exclusive run).1 0 writes 1 (by decide)).1⟩

end SetBench.RwLock
