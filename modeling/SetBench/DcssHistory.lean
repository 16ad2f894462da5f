import SetBench.Dcss

/-! What the history of a run of dcss looks like: when a tagptr may stand in a word, what
it replaced and what replaces it. -/
namespace SetBench.Dcss

variable {V : Type} {w after : World V}

/-- The ways a word differs from one instant to the next: a call installs its tagptr
over its old2, or a decided tagptr gives way to what its verdict says. -/
inductive Change (w : World V) (k a : Nat) : Prop where
  | same (kept : w.dataAt (k + 1) a = w.dataAt k a)
  | install (tid seq : Nat) (r : Record V) (issued : w.record tid seq = some r)
    (installed : r.installed = some k)
      (place : r.op.addr2 = a) (before : w.dataAt k a = .value r.op.old2)
      (now : w.dataAt (k + 1) a = .tag tid seq)
  | remove (tid seq : Nat) (r : Record V) (success : Bool) (instant : Nat)
    (issued : w.record tid seq = some r)
      (verdict : r.verdict = some (success, instant)) (early : instant < k) (place : r.op.addr2 = a)
      (before : w.dataAt k a = .tag tid seq)
      (now : w.dataAt (k + 1) a = .value (if success then r.op.new2 else r.op.old2))

/-- How a returned call is bound to the history. -/
def ReturnOk (w : World V) (r : Record V) (finished : Nat) : Result V → Prop
  | .success =>
      ∃ instant, r.verdict = some (true, instant) ∧ r.started ≤ instant ∧ instant < finished
  | .failedAddr1 _ =>
      ∃ instant, r.verdict = some (false, instant) ∧ r.started ≤ instant ∧ instant < finished
  | .failedAddr2 v => r.installed = none ∧ r.op.old2 ≠ v ∧
      ∃ k, r.started ≤ k ∧ k ≤ finished ∧ w.dataAt k r.op.addr2 = .value v
  | .ignored => False

structure RecordOk (w : World V) (tid seq : Nat) (r : Record V) : Prop where
  begun : r.started ≤ w.clock
  fresh : r.installed = none → r.verdict = none
  opened : ∀ i, r.installed = some i → r.started ≤ i ∧ i < w.clock ∧
    (r.verdict = none → ∀ k, i < k → k ≤ w.clock → w.dataAt k r.op.addr2 = .tag tid seq)
  decided : ∀ success instant, r.verdict = some (success, instant) → ∃ i, r.installed = some i ∧
    i < instant ∧
    instant < w.clock ∧ w.dataAt instant r.op.addr2 = .tag tid seq ∧
      w.dataAt (instant + 1) r.op.addr2 = .tag tid seq ∧
    (success = true ↔ w.controlAt instant r.op.addr1 = r.op.old1)
  returned : ∀ finished result, r.returned = some (finished, result) → finished < w.clock ∧
    ReturnOk w r finished result

structure History (w : World V) : Prop where
  dataNow : w.dataAt w.clock = w.data
  controlNow : w.controlAt w.clock = w.control
  records : ∀ tid seq r, w.record tid seq = some r → RecordOk w tid seq r
  known : ∀ k, k ≤ w.clock → ∀ a tid seq, w.dataAt k a = .tag tid seq →
    ∃ r i, w.record tid seq = some r ∧ r.op.addr2 = a ∧ r.installed = some i ∧ i < k
  changes : ∀ k, k < w.clock → ∀ a, Change w k a
  reads : ∀ c ∈ w.reads, c.finished < w.clock ∧ ∃ k, c.started ≤ k ∧ k ≤ c.finished ∧
    w.dataAt k c.addr = .value c.value

-- An undecided call that has installed its tagptr still has it in memory.
theorem History.open_now (history : History w) {tid seq i : Nat} {r : Record V}
    (issued : w.record tid seq = some r) (installed : r.installed = some i)
    (undecided : r.verdict = none) : w.data r.op.addr2 = .tag tid seq := by
  obtain ⟨_, early, open_⟩ := (history.records tid seq r issued).opened i installed
  rw [← history.dataNow]
  exact open_ undecided w.clock early (le_refl _)

theorem History.holds_now (history : History w) {a tid seq : Nat} (tag : w.data a = .tag tid seq) :
    ∃ r i, w.record tid seq = some r ∧ r.op.addr2 = a ∧ r.installed = some i ∧ i < w.clock := by
  rw [← history.dataNow] at tag
  exact history.known w.clock (le_refl _) a tid seq tag

/-! One more instant. -/

structure Later (w after : World V) : Prop where
  clock : after.clock = w.clock + 1
  data : ∀ k, k ≤ w.clock → after.dataAt k = w.dataAt k
  control : ∀ k, k ≤ w.clock → after.controlAt k = w.controlAt k
  dataNow : after.dataAt after.clock = after.data
  controlNow : after.controlAt after.clock = after.control

theorem tick_later (w : World V) {data : Nat → Word V} {control : Nat → V} {desc : Nat → Desc V}
    {thread : Nat → Thread V} {record : Nat → Nat → Option (Record V)} {reads : List (ReadCall V)} :
    Later w (World.tick ⟨control, data, desc, thread, w.clock, w.controlAt, w.dataAt, record,
      reads⟩) := by
  refine ⟨rfl, fun k early => ?_, fun k early => ?_, ?_, ?_⟩
  · exact Function.update_of_ne (by simp only []; omega) _ _
  · exact Function.update_of_ne (by simp only []; omega) _ _
  · exact Function.update_self _ _ _
  · exact Function.update_self _ _ _

/-- What later steps may add to a record. -/
structure Grows (r r' : Record V) : Prop where
  op : r'.op = r.op
  started : r'.started = r.started
  installed : ∀ i, r.installed = some i → r'.installed = some i
  verdict : ∀ x, r.verdict = some x → r'.verdict = some x

theorem Grows.refl (r : Record V) : Grows r r := ⟨rfl, rfl, fun _ => id, fun _ => id⟩

section

variable (later : Later w after)
include later

theorem ReturnOk.extend {r : Record V} {finished : Nat} {result : Result V}
    (early : finished ≤ w.clock) (ok : ReturnOk w r finished result) :
    ReturnOk after r finished result := by
  cases result with
  | success => exact ok
  | failedAddr1 val => exact ok
  | failedAddr2 val =>
      obtain ⟨fresh, differs, k, low, high, held⟩ := ok
      refine ⟨fresh, differs, k, low, high, ?_⟩
      rw [later.data k (by omega)]
      exact held
  | ignored => exact ok

/-- A record that the step does not touch: an open tagptr stays where it is. -/
theorem RecordOk.extend {tid seq : Nat} {r : Record V} (ok : RecordOk w tid seq r)
    (stays : ∀ i, r.installed = some i → r.verdict = none → after.data r.op.addr2 = .tag tid seq) :
    RecordOk after tid seq r := by
  refine ⟨?_, ok.fresh, fun i installed => ?_, fun success instant verdict => ?_,
    fun finished result returned => ?_⟩
  · rw [later.clock]
    exact ok.begun.trans (Nat.le_succ _)
  · obtain ⟨begun, early, open_⟩ := ok.opened i installed
    refine ⟨begun, by rw [later.clock]; omega, fun undecided k low high => ?_⟩
    rcases Nat.lt_or_ge w.clock k with last | before
    · have now : k = after.clock := by have := later.clock; omega
      rw [now, later.dataNow]
      exact stays i installed undecided
    · rw [later.data k before]
      exact open_ undecided k low before
  · obtain ⟨i, installed, low, high, here, next, read⟩ := ok.decided success instant verdict
    refine ⟨i, installed, low, by rw [later.clock]; omega, ?_, ?_, ?_⟩
    · rw [later.data instant (by omega)]
      exact here
    · rw [later.data (instant + 1) (by omega)]
      exact next
    · rw [later.control instant (by omega)]
      exact read
  · obtain ⟨early, result_⟩ := ok.returned finished result returned
    exact ⟨by rw [later.clock]; omega, result_.extend later early.le⟩

theorem Change.extend {k a : Nat} (early : k < w.clock)
    (grows : ∀ tid seq r, w.record tid seq = some r → ∃ r', after.record tid seq = some r' ∧
      Grows r r')
    (change : Change w k a) : Change after k a := by
  have here := congrFun (later.data k (by omega)) a
  have next := congrFun (later.data (k + 1) (by omega)) a
  cases change with
  | same kept => exact .same (by rw [here, next]; exact kept)
  | install tid seq r issued installed place before now =>
      obtain ⟨r', issued', grown⟩ := grows tid seq r issued
      exact .install tid seq r' issued' (grown.installed k installed)
        (by rw [grown.op]; exact place)
        (by rw [here, grown.op]; exact before) (by rw [next]; exact now)
  | remove tid seq r success instant issued verdict before place held now =>
      obtain ⟨r', issued', grown⟩ := grows tid seq r issued
      exact .remove tid seq r' success instant issued' (grown.verdict _ verdict) before
        (by rw [grown.op]; exact place)
        (by rw [here]; exact held) (by rw [next, grown.op]; exact now)

/-- A step extends the history when its records are sound, its change of memory is one
of the three, and every tagptr in memory is accounted for. -/
theorem History.extend (history : History w)
    (grows : ∀ tid seq r, w.record tid seq = some r → ∃ r', after.record tid seq = some r' ∧
      Grows r r')
    (records : ∀ tid seq r, after.record tid seq = some r → RecordOk after tid seq r)
    (known : ∀ a tid seq, after.data a = .tag tid seq → ∃ r i, after.record tid seq = some r ∧
      r.op.addr2 = a ∧ r.installed = some i ∧ i < after.clock)
    (change : ∀ a, Change after w.clock a)
    (reads : ∀ c ∈ after.reads, c.finished < after.clock ∧ ∃ k, c.started ≤ k ∧ k ≤ c.finished ∧
      after.dataAt k c.addr = .value c.value) :
    History after := by
  refine ⟨later.dataNow, later.controlNow, records, fun k high a tid seq held => ?_,
    fun k high a => ?_, reads⟩
  · rcases Nat.lt_or_ge w.clock k with last | before
    · have now : k = after.clock := by have := later.clock; omega
      subst now
      rw [later.dataNow] at held
      exact known a tid seq held
    · rw [later.data k before] at held
      obtain ⟨r, i, issued, place, installed, low⟩ := history.known k before a tid seq held
      obtain ⟨r', issued', grown⟩ := grows tid seq r issued
      exact ⟨r', i, issued', by rw [grown.op]; exact place, grown.installed i installed, low⟩
  · rcases Nat.lt_or_ge k w.clock with before | last
    · exact (history.changes k before a).extend later before grows
    · have now : k = w.clock := by have := later.clock; omega
      rw [now]
      exact change a

theorem History.known_now (history : History w)
    (grows : ∀ tid seq r, w.record tid seq = some r → ∃ r', after.record tid seq = some r' ∧
      Grows r r')
    {a tid seq : Nat} (tag : w.data a = .tag tid seq) :
    ∃ r i, after.record tid seq = some r ∧ r.op.addr2 = a ∧ r.installed = some i ∧
      i < after.clock := by
  obtain ⟨r, i, issued, place, installed, early⟩ := history.holds_now tag
  obtain ⟨r', issued', grown⟩ := grows tid seq r issued
  exact ⟨r', i, issued', by rw [grown.op]; exact place, grown.installed i installed, by
    rw [later.clock]; omega⟩

theorem reads_later (history : History w) : ∀ c ∈ w.reads, c.finished < after.clock ∧
    ∃ k, c.started ≤ k ∧ k ≤ c.finished ∧ after.dataAt k c.addr = .value c.value := by
  intro c member
  obtain ⟨early, k, low, high, held⟩ := history.reads c member
  refine ⟨by rw [later.clock]; omega, k, low, high, ?_⟩
  rw [later.data k (by omega)]
  exact held

-- The change at the last instant, in terms of the two memories.
theorem same_now (history : History w) {a : Nat} (kept : after.data a = w.data a) :
    Change after w.clock a := by
  refine .same ?_
  rw [← later.clock, later.dataNow, later.data w.clock (le_refl _), history.dataNow]
  exact kept

end

end SetBench.Dcss
