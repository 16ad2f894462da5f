import SetBench.AbPersist

/-! A word is persistent unless the thread that holds its node's lock has stored it and
not yet synced it. -/
namespace SetBench.AbPersist

open Transition

variable {degree : Nat} {w after : World} {tid : Nat}

/-! Well-formed rests of the write sequences. -/

def Cell.isSlot : Cell → Bool
  | .slot _ _ => true
  | _ => false

def Cell.isVal : Cell → Bool
  | .val _ _ => true
  | _ => false

/-- From words stored but not flushed and words flushed but not synced, the actions leave
no word behind when they release its node, and write keys and values of a leaf only
between two bumps of its version, where the values are also synced. -/
def Well (fresh : Nat) : List Act → List Cell → List Cell → Prop
  | [], stored, flushed => stored = [] ∧ flushed = []
  | .bump n :: rest, stored, flushed =>
      (∀ c ∈ stored ++ flushed, c.isVal = false) ∧ .unlock n ∈ rest ∧
      Well fresh rest stored flushed
  | .store c x :: rest, stored, flushed => c ∉ flushed ∧ .unlock c.node ∈ rest ∧
      (c.isSlot = false → rest.count (.bump c.node) % 2 = 1) ∧ (c.isSlot = true → x.value < fresh) ∧
      Well fresh rest (c :: stored) flushed
  | .flush c :: rest, stored, flushed => c ∈ stored ∧ .unlock c.node ∈ rest ∧
      Well fresh rest (stored.filter fun other => other ≠ c) (c :: flushed)
  | .sync :: rest, stored, _ => Well fresh rest stored []
  | .unlock n :: rest, stored, flushed => (∀ c ∈ stored ++ flushed, c.node ≠ n) ∧ .unlock n ∉ rest ∧
      rest.count (.bump n) = 0 ∧ Well fresh rest stored flushed

theorem Well.mono {fresh fresh' : Nat} (less : fresh ≤ fresh') {rest : List Act}
    {stored flushed : List Cell} (well : Well fresh rest stored flushed) :
    Well fresh' rest stored flushed := by
  induction rest generalizing stored flushed with
  | nil => exact well
  | cons act rest ih =>
      cases act with
      | bump n => exact ⟨well.1, well.2.1, ih well.2.2⟩
      | store c x =>
          obtain ⟨one, two, three, four, tail⟩ := well
          exact ⟨one, two, three, fun slot => (four slot).trans_le less, ih tail⟩
      | flush c => exact ⟨well.1, well.2.1, ih well.2.2⟩
      | sync => exact ih well
      | unlock n =>
          obtain ⟨one, two, three, tail⟩ := well
          exact ⟨one, two, three, ih tail⟩

theorem insertActs_well (fresh k v n i : Nat) : Well fresh (insertActs k v n i) [] [] := by
  simp [insertActs, Well, Cell.node, Cell.isSlot, Cell.isVal]

theorem eraseActs_well (fresh n i : Nat) : Well fresh (eraseActs n i) [] [] := by
  simp [eraseActs, Well, Cell.node, Cell.isSlot, Cell.isVal]

theorem swingActs_well {fresh g target : Nat} (i : Nat) {also : Option Nat}
    (less : target < fresh) (other : also ≠ some g) :
    Well fresh (swingActs g i target also) [] [] := by
  cases also with
  | none => simp [swingActs, Well, Cell.node, Cell.isSlot, clean, markDirty, less]
  | some n =>
      have apart : g ≠ n := fun same => other (by rw [same])
      simp [swingActs, Well, Cell.node, Cell.isSlot, clean, markDirty, less, apart]

/-! The invariant. -/

def Pc.holds : Pc → Nat → Prop
  | .scan _ _ n _, m => n = m
  | .empty _ _ _ n _, m => n = m
  | .lockParent _ _ also, m => also = some m
  | .make g _ also, m => g = m ∨ also = some m
  | .run rest, m => .unlock m ∈ rest
  | _, _ => False

def Pc.bumps : Pc → Nat → Nat
  | .run rest, n => rest.count (.bump n)
  | _, _ => 0

/-- A search sees the words it read for as long as the version has not moved. -/
def Pc.ReadOk (w : World) : Pc → Prop
  | .walk _ parent n => parent.1 < w.fresh ∧ n < w.fresh
  | .version _ parent n => parent.1 < w.fresh ∧ n < w.fresh
  | .keys _ parent n ver _ => parent.1 < w.fresh ∧ n < w.fresh ∧ ver % 2 = 0 ∧ ver ≤ w.version n
  | .value job parent n ver idx =>
      parent.1 < w.fresh ∧ n < w.fresh ∧ ver % 2 = 0 ∧ ver ≤ w.version n ∧
      (w.version n = ver → w.mem (.key n idx) = clean job.key)
  | .check job parent n ver found =>
      parent.1 < w.fresh ∧ n < w.fresh ∧ ver % 2 = 0 ∧ ver ≤ w.version n ∧
      ∀ idx v, found = some (idx, v) → w.version n = ver →
        w.mem (.key n idx) = clean job.key ∧ (w.mem (.val n idx)).value = v
  | .lockLeaf _ parent n => parent.1 < w.fresh ∧ n < w.fresh
  | .scan _ parent n _ => parent.1 < w.fresh ∧ n < w.fresh
  | .empty _ _ parent n _ => parent.1 < w.fresh ∧ n < w.fresh
  | .lockParent g _ also => g < w.fresh ∧ ∀ n, also = some n → n < w.fresh
  | .make g _ also => g < w.fresh ∧ also ≠ some g ∧ ∀ n, also = some n → n < w.fresh
  | .idle => True
  | .run rest => ∀ n, .unlock n ∈ rest → n < w.fresh

/-- What holds of the shared words, locks and versions. -/
structure Shared (w : World) : Prop where
  settled : ∀ c, (∀ t, c ∉ owed w t) → w.pmem c = w.mem c
  current : ∀ t c x, (c, x) ∈ w.pending t → x = w.mem c
  guarded : ∀ t c, c ∈ owed w t → w.lock c.node = some t
  free : ∀ n, w.lock n = none → w.version n % 2 = 0
  odd : ∀ t n i, .val n i ∈ owed w t → w.version n % 2 = 1
  valid : ∀ n, n < w.fresh → ∀ i, (w.mem (.slot n i)).value < w.fresh
  unused : ∀ n, w.fresh ≤ n → w.lock n = none ∧ w.version n = 0
  born : entry < w.fresh

/-- What holds of a thread at a position. -/
structure Thread (w : World) (t : Nat) (pc : Pc) : Prop where
  holds : ∀ n, pc.holds n → w.lock n = some t
  well : ∀ rest, pc = .run rest → Well w.fresh rest (w.unflushed t) ((w.pending t).map Prod.fst)
  quiet : (∀ rest, pc ≠ .run rest) → w.unflushed t = [] ∧ w.pending t = []
  parity : ∀ n, w.lock n = some t → (w.version n + pc.bumps n) % 2 = 0
  reads : pc.ReadOk w

structure Inv (w : World) : Prop extends Shared w where
  threads : ∀ t, Thread w t (w.pc t)

theorem initial_inv : Inv initial := by
  refine ⟨⟨fun c _ => rfl, ?_, ?_, fun _ _ => rfl, ?_, ?_, fun _ _ => ⟨rfl, rfl⟩,
    Nat.zero_lt_succ 1⟩, fun t => ⟨?_, ?_, fun _ => ⟨rfl, rfl⟩, ?_, trivial⟩⟩
  · rintro _ _ _ ⟨⟩
  · rintro _ _ ⟨⟩
  · rintro _ _ _ ⟨⟩
  · intro n _ i
    rcases n with _ | n
    · rcases i with _ | i
      · exact Nat.lt_succ_self 1
      · exact Nat.zero_lt_succ 1
    · exact Nat.zero_lt_succ 1
  · rintro _ ⟨⟩
  · rintro _ ⟨⟩
  · rintro _ ⟨⟩

/-- The answers of a sound state are persistent outside the windows. -/
theorem Inv.answer (inv : Inv w) (event : Event) (outside : Outside degree w event)
    {answer : Answer} (given : answered degree w event = some answer) : Persistent w answer := by
  have outside := outside answer given
  -- only the holder of the lock can owe a word
  have clear {c : Cell} (none_ : ∀ holder ∈ w.lock c.node, c ∉ owed w holder) :
    w.pmem c = w.mem c := by
    refine inv.settled c fun t member => ?_
    exact none_ t (inv.guarded t c member) member
  cases event with
  | load tid i =>
      simp only [answered] at given
      split at given
      · split at given
        · cases given
        · rename_i job parent n here tidy
          cases given
          have same : w.pmem (.slot n i) = w.mem (.slot n i) := clear outside
          show w.pmem (.slot n i) = clean (w.mem (.slot n i)).value
          rw [same]
          cases held : w.mem (.slot n i) with
          | mk value dirty =>
              rw [held] at tidy
              simp only [Bool.not_eq_true] at tidy
              rw [tidy]
              rfl
      · cases given
  | move tid =>
      simp only [answered] at given
      split at given
      · rename_i job parent n ver i v here
        split at given
        · rename_i both
          cases given
          have read := (inv.threads tid).reads
          rw [here] at read
          obtain ⟨_, _, even, _, agree⟩ := read
          obtain ⟨key, val⟩ := agree i v rfl both.2
          refine ⟨(clear outside).trans key, ?_⟩
          have same : w.pmem (.val n i) = w.mem (.val n i) := by
            refine clear fun holder held member => ?_
            -- a value is written and synced while the version is odd
            have odd := inv.odd holder n i member
            rw [both.2] at odd
            omega
          rw [same]
          exact val
        · cases given
      · rename_i job parent n i here
        split at given
        · rename_i both
          cases given
          have lock := (inv.threads tid).holds n (by rw [here]; rfl)
          obtain ⟨stored, pending⟩ := (inv.threads tid).quiet (by simp [here])
          have mine {c : Cell} (node : c.node = n) : w.pmem c = w.mem c := by
            refine clear fun holder held member => ?_
            rw [node, lock] at held
            cases held
            simp [owed, stored, pending] at member
          exact ⟨(mine rfl).trans both.2.2, by rw [mine rfl]⟩
        · cases given
      · cases given
  | _ => cases given

end SetBench.AbPersist
