import SetBench.DcssSteps

/-! The steps of dcss that write a shared word. -/
namespace SetBench.Dcss

open Transition

variable {V : Type} {w after : World V} {tid seq : Nat} {op : Op V}

/-! The owner renews and fills its descriptor while no call has its sequence number. -/

theorem ownDesc_inv (inv : Inv w) {desc : Desc V} {pc : Pc V} (later : Later w after)
    (same : after = ({ w with desc := Function.update w.desc tid desc } : World V).goto tid pc)
    (up : (w.desc tid).mutables.seq ≤ desc.mutables.seq)
    (unissued : w.record tid desc.mutables.seq = none)
    (ok : PcOk after tid (w.thread tid).started pc)
    (unowned : ∀ op seq place, (w.thread tid).pc ≠ .work (.dcss op seq) place) : Inv after := by
  have record : after.record = w.record := by rw [same]; rfl
  have data : after.data = w.data := by rw [same]; rfl
  have reads : after.reads = w.reads := by rw [same]; rfl
  have here : after.desc tid = desc := by rw [same]; exact Function.update_self _ _ _
  have there (t : Nat) (differ : t ≠ tid) : after.desc t = w.desc t := by
    rw [same]
    exact Function.update_of_ne differ _ _
  have self : after.thread tid = ⟨pc, (w.thread tid).started⟩ := by
    rw [same]; exact Function.update_self _ _ _
  have others (t : Nat) (differ : t ≠ tid) : after.thread t = w.thread t := by
    rw [same]
    exact Function.update_of_ne differ _ _
  have grows : ∀ t seq r, w.record t seq = some r → ∃ r', after.record t seq = some r' ∧
    Grows r r' := by
    intro t seq r issued
    exact ⟨r, by rw [record]; exact issued, .refl r⟩
  refine inv.move ⟨later, grows, fun t => ?_⟩ (fun t differ => ?_) others
    (quiet_history later record inv.history data
      (by rw [reads]; exact reads_later later inv.history))
    (fun seq r issued => ?_) (fun t r issued => ?_) ?_ (by rw [self]; exact ok)
    (fun t seq _ unissued => by rw [record]; exact unissued)
    fun a t seq tag => ?_
  · by_cases same : t = tid
    · subst same
      rw [here]
      exact up
    · rw [there t same]
  · refine ⟨by rw [there t differ], by rw [there t differ],
      fun unissued => ⟨there t differ, by rw [record]; exact unissued⟩, ?_⟩
    intro seq r issued
    exact ⟨r, by rw [record]; exact issued, .refl r, rfl, rfl⟩
  · rw [record] at issued
    rw [here]
    exact (inv.bounded tid seq r issued).trans up
  · rw [record] at issued
    by_cases same : t = tid
    · subst same
      rw [here, unissued] at issued
      cases issued
    · rw [there t same] at issued ⊢
      exact inv.current t r issued
  · rw [self, later.clock]
    exact (inv.threads tid).1.trans (Nat.le_succ _)
  · rw [data] at tag
    obtain ⟨op, place, held, own⟩ := inv.owners a t seq tag
    by_cases same : t = tid
    · subst same
      exact absurd held (unowned op seq place)
    · exact ⟨op, place, by rw [others t same]; exact held, own⟩

theorem renew_inv (inv : Inv w) {seen : Mutables} (here : (w.thread tid).pc = .renew op seen) :
    Inv ((w.setMutables tid ⟨seen.seq + 1, .undecided⟩).goto tid (.fill op .addr1)) := by
  have fine := (inv.threads tid).2
  rw [here] at fine
  have read : seen.seq = (w.desc tid).mutables.seq := fine
  have unissued : w.record tid (seen.seq + 1) = none := by
    cases issued : w.record tid (seen.seq + 1) with
    | none => rfl
    | some r =>
        have bound := inv.bounded tid _ r issued
        omega
  refine ownDesc_inv inv (tick_later w) rfl (by simp only []; omega) unissued ?_
    (by rw [here]; simp)
  have self : ((w.setMutables tid ⟨seen.seq + 1, .undecided⟩).goto tid (.fill op .addr1)).desc tid =
      ⟨⟨seen.seq + 1, .undecided⟩, (w.desc tid).op⟩ := Function.update_self _ _ _
  exact ⟨⟨by rw [self]; exact unissued, by rw [self]⟩, trivial⟩

theorem fill_inv (inv : Inv w) {field : Field} (here : (w.thread tid).pc = .fill op field)
    {pc : Pc V}
    (next : match field.next with
      | some next => pc = .fill op next
      | none => pc = .initialized op) :
    Inv ((w.setOp tid ((w.desc tid).op.put op field)).goto tid pc) := by
  have fine := (inv.threads tid).2
  rw [here] at fine
  obtain ⟨filling, agree⟩ := fine
  have self : ((w.setOp tid ((w.desc tid).op.put op field)).goto tid pc).desc tid =
      ⟨(w.desc tid).mutables, (w.desc tid).op.put op field⟩ := Function.update_self _ _ _
  have filling' : Filling ((w.setOp tid ((w.desc tid).op.put op field)).goto tid pc) tid :=
    ⟨by rw [self]; exact filling.unissued, by rw [self]; exact filling.undecided⟩
  refine ownDesc_inv inv (tick_later w) rfl (le_refl _) filling.unissued ?_ (by rw [here]; simp)
  cases last : field.next with
  | some more =>
      simp only [last] at next
      subst next
      exact ⟨filling', by rw [self]; exact agree.next last⟩
  | none =>
      simp only [last] at next
      subst next
      exact ⟨filling', by rw [self]; exact agree.last last⟩

/-! Steps that change one record. -/

theorem setRecord_self (w : World V) (tid seq : Nat) (record : Option (Record V)) :
    (w.setRecord tid seq record).record tid seq = record := by
  simp [World.setRecord]

theorem setRecord_other (w : World V) {tid seq t s : Nat} (record : Option (Record V))
    (differ : ¬ (t = tid ∧ s = seq)) :
    (w.setRecord tid seq record).record t s = w.record t s := by
  by_cases same : t = tid
  · subst same
    have apart : s ≠ seq := fun same => differ ⟨rfl, same⟩
    simp [World.setRecord, Function.update_of_ne apart]
  · simp [World.setRecord, Function.update_of_ne same]

section Written

variable {r : Record V} {record' : Option (Record V)}
  (written : after.record tid seq = record')
  (rest : ∀ t s, ¬ (t = tid ∧ s = seq) → after.record t s = w.record t s)
include written rest

theorem written_grows
    (grown : ∀ r, w.record tid seq = some r → ∃ r', record' = some r' ∧ Grows r r') :
    ∀ t s r, w.record t s = some r → ∃ r', after.record t s = some r' ∧ Grows r r' := by
  intro t s r issued
  by_cases same : t = tid ∧ s = seq
  · obtain ⟨rfl, rfl⟩ := same
    obtain ⟨r', here, grows⟩ := grown r issued
    exact ⟨r', by rw [written]; exact here, grows⟩
  · exact ⟨r, by rw [rest t s same]; exact issued, .refl r⟩

theorem written_records (later : Later w after) (history : History w)
    (ok : ∀ r', record' = some r' → RecordOk after tid seq r')
    (stays : ∀ a t s, ¬ (t = tid ∧ s = seq) → w.data a = .tag t s → after.data a = .tag t s ∨
      ∃ r, w.record t s = some r ∧ r.verdict ≠ none) :
    ∀ t s r', after.record t s = some r' → RecordOk after t s r' := by
  intro t s r' issued
  by_cases same : t = tid ∧ s = seq
  · obtain ⟨rfl, rfl⟩ := same
    rw [written] at issued
    exact ok r' issued
  · rw [rest t s same] at issued
    refine (history.records t s r' issued).extend later fun i installed undecided => ?_
    rcases stays _ t s same (history.open_now issued installed undecided) with kept | ⟨r, held,
      decided⟩
    · exact kept
    · rw [issued] at held
      cases held
      exact absurd undecided decided

end Written

theorem publish_inv (inv : Inv w) {seen : Mutables} (here : (w.thread tid).pc = .publish op seen) :
    Inv (((w.setMutables tid ⟨seen.seq + 1, seen.state⟩).setRecord tid (seen.seq + 1)
      (some ⟨op, (w.thread tid).started, none, none, none⟩)).goto tid (.makeTag op)) := by
  obtain ⟨begun, fine⟩ := inv.threads tid
  rw [here] at fine
  obtain ⟨filling, filled, rfl⟩ := fine
  generalize made : ((w.setMutables tid ⟨(w.desc tid).mutables.seq + 1,
    (w.desc tid).mutables.state⟩).setRecord tid
    ((w.desc tid).mutables.seq + 1) (some ⟨op, (w.thread tid).started, none, none, none⟩)).goto tid
      (.makeTag op) = after
  have later : Later w after := by rw [← made]; exact tick_later w
  have data : after.data = w.data := by rw [← made]; rfl
  have reads : after.reads = w.reads := by rw [← made]; rfl
  have self : after.thread tid = ⟨.makeTag op, (w.thread tid).started⟩ := by
    rw [← made]; exact Function.update_self _ _ _
  have others (t : Nat) (differ : t ≠ tid) : after.thread t = w.thread t := by
    rw [← made]
    exact Function.update_of_ne differ _ _
  have mine : after.desc tid = ⟨⟨(w.desc tid).mutables.seq + 1, .undecided⟩, op⟩ := by
    rw [← made, ← filling.undecided, ← filled]
    exact Function.update_self _ _ _
  have theirs (t : Nat) (differ : t ≠ tid) : after.desc t = w.desc t := by
    rw [← made]
    exact Function.update_of_ne differ _ _
  have written : after.record tid ((w.desc tid).mutables.seq + 1) =
    some ⟨op, (w.thread tid).started, none, none, none⟩ := by
    rw [← made]
    exact setRecord_self _ _ _ _
  have rest (t s : Nat) (differ : ¬ (t = tid ∧ s = (w.desc tid).mutables.seq + 1)) :
    after.record t s = w.record t s := by
    rw [← made]
    exact setRecord_other _ _ differ
  have fresh : w.record tid ((w.desc tid).mutables.seq + 1) = none := by
    cases issued : w.record tid ((w.desc tid).mutables.seq + 1) with
    | none => rfl
    | some r =>
        have bound := inv.bounded tid _ r issued
        omega
  have grows := written_grows written rest (by simp [fresh])
  have history : History after := by
    refine inv.history.extend later grows
      (written_records written rest later inv.history ?_ fun a t s _ tag => ?_)
      (fun a t s tag => ?_) (fun a => same_now later inv.history (by rw [data]))
      (by rw [reads]; exact reads_later later inv.history)
    · rintro _ ⟨⟩
      refine ⟨by rw [later.clock]; exact begun.trans (Nat.le_succ _), fun _ => rfl, ?_, ?_, ?_⟩
      · rintro _ ⟨⟩
      · rintro _ _ ⟨⟩
      · rintro _ _ ⟨⟩
    · rw [data]
      exact .inl tag
    · rw [data] at tag
      exact inv.history.known_now later grows tag
  refine inv.move ⟨later, grows, fun t => ?_⟩ (fun t differ => ?_) others history
    (fun s r issued => ?_) (fun t r issued => ?_) ?_ ?_
    (fun t s differ unissued => ?_) fun a t s tag => ?_
  · by_cases same : t = tid
    · subst same
      rw [mine]
      exact Nat.le_succ _
    · rw [theirs t same]
  · have record (s : Nat) := rest t s (fun same => differ same.1)
    refine ⟨by rw [theirs t differ], by rw [theirs t differ],
      fun unissued => ⟨theirs t differ, by rw [record]; exact unissued⟩, ?_⟩
    intro s r issued
    exact ⟨r, by rw [record]; exact issued, .refl r, rfl, rfl⟩
  · rw [mine]
    by_cases same : s = (w.desc tid).mutables.seq + 1
    · exact same.le
    · rw [rest tid s (fun both => same both.2)] at issued
      exact (inv.bounded tid s r issued).trans (Nat.le_succ _)
  · by_cases same : t = tid
    · subst same
      rw [mine] at issued ⊢
      rw [written] at issued
      cases issued
      exact ⟨rfl, rfl⟩
    · rw [theirs t same] at issued ⊢
      rw [rest t _ (fun both => same both.1)] at issued
      exact inv.current t r issued
  · rw [self, later.clock]
    exact begun.trans (Nat.le_succ _)
  · rw [self]
    refine ⟨⟨op, (w.thread tid).started, none, none, none⟩, ⟨rfl, ?_, rfl, rfl, rfl⟩, rfl⟩
    rw [mine]
    exact written
  · rw [rest t s (fun both => differ both.1)]
    exact unissued
  · rw [data] at tag
    obtain ⟨op', place, held, own⟩ := inv.owners a t s tag
    by_cases same : t = tid
    · subst same
      rw [here] at held
      cases held
    · exact ⟨op', place, by rw [others t same]; exact held, own⟩

section Install

variable (inv : Inv w) (here : (w.thread tid).pc = .work (.dcss op seq) .attempt)
    (held : w.data op.addr2 = .value op.old2)
include inv here held

theorem install_inv :
    Inv ((w.install tid seq op).goto tid
      (.work (.dcss op seq) (.readAddr1 ⟨tid, seq, seq, op, false⟩))) := by
  obtain ⟨begun, fine⟩ := inv.threads tid
  rw [here] at fine
  obtain ⟨_, r, live, ⟨_, fresh⟩ | ⟨owned, _⟩⟩ := fine
  swap
  · cases owned
  have ok := inv.history.records tid seq r live.issued
  have undecided := ok.fresh fresh
  generalize made : (w.install tid seq op).goto tid
    (.work (.dcss op seq) (.readAddr1 ⟨tid, seq, seq, op, false⟩)) = after
  have later : Later w after := by rw [← made]; exact tick_later w
  have desc : after.desc = w.desc := by rw [← made]; rfl
  have reads : after.reads = w.reads := by rw [← made]; rfl
  have self : after.thread tid = ⟨.work (.dcss op seq) (.readAddr1 ⟨tid, seq, seq, op, false⟩),
    (w.thread tid).started⟩ := by
    rw [← made]
    exact Function.update_self _ _ _
  have others (t : Nat) (differ : t ≠ tid) : after.thread t = w.thread t := by
    rw [← made]
    exact Function.update_of_ne differ _ _
  have tagged : after.data op.addr2 = .tag tid seq := by
    rw [← made]
    exact Function.update_self _ _ _
  have kept (a : Nat) (differ : a ≠ op.addr2) : after.data a = w.data a := by
    rw [← made]
    exact Function.update_of_ne differ _ _
  have written : after.record tid seq = some { r with installed := some w.clock } := by
    rw [← made]
    refine (setRecord_self _ _ _ _).trans ?_
    rw [live.issued]
    rfl
  have rest (t s : Nat) (differ : ¬ (t = tid ∧ s = seq)) : after.record t s = w.record t s := by
    rw [← made]
    exact setRecord_other _ _ differ
  have now (a : Nat) : after.dataAt (w.clock + 1) a = after.data a := by
    rw [← later.clock, later.dataNow]
  have before (a : Nat) : after.dataAt w.clock a = w.data a := by
    rw [later.data w.clock (le_refl _), inv.history.dataNow]
  have grows := written_grows written rest fun r' issued => by
    rw [live.issued] at issued
    cases issued
    exact ⟨_, rfl, rfl, rfl, fun i installed => absurd installed (by simp [fresh]), fun _ => id⟩
  have history : History after := by
    refine inv.history.extend later grows
      (written_records written rest later inv.history ?_ fun a t s _ tag => ?_)
      (fun a t s tag => ?_) (fun a => ?_) (by rw [reads]; exact reads_later later inv.history)
    · rintro _ ⟨⟩
      refine ⟨by rw [later.clock]; exact ok.begun.trans (Nat.le_succ _),
        (fun absurd => nomatch absurd), ?_, ?_, ?_⟩
      · rintro _ ⟨⟩
        refine ⟨ok.begun, by rw [later.clock]; omega, fun _ k low high => ?_⟩
        have last : k = w.clock + 1 := by have := later.clock; omega
        simp only [last, live.op]
        rw [now]
        exact tagged
      · intro success instant verdict
        rw [undecided] at verdict
        cases verdict
      · intro finished result returned
        rw [live.waiting] at returned
        cases returned
    · refine .inl ?_
      rw [kept a]
      · exact tag
      · rintro rfl
        rw [held] at tag
        cases tag
    · by_cases same : a = op.addr2
      · subst same
        rw [tagged] at tag
        cases tag
        exact ⟨_, w.clock, written, live.op ▸ rfl, rfl, by rw [later.clock]; omega⟩
      · rw [kept a same] at tag
        exact inv.history.known_now later grows tag
    · by_cases same : a = op.addr2
      · subst same
        refine .install tid seq _ written rfl (by rw [live.op]) ?_ ?_
        · rw [before, held, live.op]
        · rw [now]
          exact tagged
      · exact same_now later inv.history (kept a same)
  refine inv.move ⟨later, grows, fun t => by rw [desc]⟩ (fun t differ => ?_) others history
    (fun s r' issued => ?_)
    (fun t r' issued => ?_) ?_ ?_ (fun t s differ unissued => ?_) fun a t s tag => ?_
  · have record (s : Nat) := rest t s (fun same => differ same.1)
    refine ⟨by rw [desc], by rw [desc],
      fun unissued => ⟨by rw [desc], by rw [record]; exact unissued⟩, ?_⟩
    intro s r issued
    exact ⟨r, by rw [record]; exact issued, .refl r, rfl, rfl⟩
  · rw [desc]
    by_cases same : s = seq
    · rw [same, live.current]
    · rw [rest tid s (fun both => same both.2)] at issued
      exact inv.bounded tid s r' issued
  · rw [desc] at issued ⊢
    by_cases same : t = tid
    · subst same
      rw [live.current, written] at issued
      cases issued
      exact inv.current t r (by rw [live.current]; exact live.issued)
    · rw [rest t _ (fun both => same both.1)] at issued
      exact inv.current t r' issued
  · rw [self, later.clock]
    exact begun.trans (Nat.le_succ _)
  · rw [self]
    refine ⟨⟨_, w.clock, ⟨written, rfl⟩, rfl, live.op.symm⟩, _,
      ⟨by rw [desc]; exact live.current, written, live.op, live.started, live.waiting⟩,
      .inr ⟨rfl, by simp⟩⟩
  · rw [rest t s (fun both => differ both.1)]
    exact unissued
  · by_cases same : a = op.addr2
    · subst same
      rw [tagged] at tag
      cases tag
      exact ⟨op, _, by rw [self], rfl⟩
    · rw [kept a same] at tag
      obtain ⟨op', place, there, own⟩ := inv.owners a t s tag
      by_cases mine : t = tid
      · subst mine
        rw [here] at there
        cases there
        cases own
      · exact ⟨op', place, by rw [others t mine]; exact there, own⟩

end Install

-- The record of an undecided descriptor holds no verdict.
theorem Inv.open_of_undecided (inv : Inv w) {t : Nat} {r : Record V}
    (issued : w.record t (w.desc t).mutables.seq = some r)
    (undecided : (w.desc t).mutables.state = .undecided) : r.verdict = none := by
  have state := (inv.current t r issued).2
  rw [undecided] at state
  cases decided : r.verdict with
  | none => rfl
  | some x =>
      obtain ⟨b, _⟩ := x
      rw [decided] at state
      cases b <;> cases state

-- A call that has returned is decided or was never installed.
theorem RecordOk.not_returned {t i : Nat} {r : Record V} (ok : RecordOk w t seq r)
    (installed : r.installed = some i) (open_ : r.verdict = none) {finished : Nat}
    {result : Result V} (returned : r.returned = some (finished, result)) : False := by
  obtain ⟨_, result_⟩ := ok.returned finished result returned
  cases result with
  | success =>
      obtain ⟨_, old, _⟩ := result_
      rw [open_] at old
      cases old
  | failedAddr1 val =>
      obtain ⟨_, old, _⟩ := result_
      rw [open_] at old
      cases old
  | failedAddr2 val =>
      obtain ⟨none_, _⟩ := result_
      rw [installed] at none_
      cases none_
  | ignored => exact result_

/-- The verdict of an installed call speaks of an instant at which its tagptr was in memory. -/
theorem RecordOk.decide {t i instant : Nat} {r : Record V} {success : Bool}
    (ok : RecordOk w t seq r) (later : Later w after) (installed : r.installed = some i)
    (open_ : r.verdict = none) (low : i < instant) (high : instant < w.clock)
    (value : success = true ↔ w.controlAt instant r.op.addr1 = r.op.old1) :
    RecordOk after t seq { r with verdict := some (success, instant) } := by
  obtain ⟨started, early, tagged⟩ := ok.opened i installed
  refine ⟨by rw [later.clock]; exact ok.begun.trans (Nat.le_succ _), ?_, ?_, ?_, ?_⟩
  · intro none_
    rw [installed] at none_
    cases none_
  · intro i' same
    rw [installed] at same
    cases same
    exact ⟨started, by rw [later.clock]; omega, fun absurd => nomatch absurd⟩
  · rintro _ _ ⟨⟩
    refine ⟨i, installed, low, by rw [later.clock]; omega, ?_, ?_, ?_⟩
    · rw [later.data instant high.le]
      exact tagged open_ instant low high.le
    · rw [later.data (instant + 1) high]
      exact tagged open_ (instant + 1) (by omega) high
    · rw [later.control instant high.le]
      exact value
  · exact fun finished result returned => (ok.not_returned installed open_ returned).elim

/-- The exchange of the state succeeds: the descriptor still has the tagptr's sequence
number, so its call is the one whose tagptr the thread saw. -/
theorem decide_inv (inv : Inv w) {task : Task V} {help : Help V} {val1 : V} {instant seen : Nat}
    {success : Bool} (here : (w.thread tid).pc = .work task (.casState help val1 instant seen))
    (free : (w.desc help.tid).mutables = ⟨seen, .undecided⟩)
    (verdict : success = true ↔ val1 = help.snap.old1) :
    Inv ((w.decide help.tid seen success instant).goto tid
      (.work task (.finish help val1 success))) := by
  obtain ⟨begun, fine⟩ := inv.threads tid
  rw [here] at fine
  obtain ⟨⟨r, i, known, fits, low, high, read, rfl⟩, taskOk⟩ := fine
  obtain ⟨issued, installed⟩ := known
  have seqNow : (w.desc help.tid).mutables.seq = help.seq := by rw [free]
  have open_ : r.verdict = none :=
    inv.open_of_undecided (by rw [seqNow]; exact issued) (by rw [free])
  have ok := inv.history.records help.tid help.seq r issued
  generalize made : (w.decide help.tid help.seq success instant).goto tid
    (.work task (.finish help val1 success)) = after
  have later : Later w after := by rw [← made]; exact tick_later w
  have data : after.data = w.data := by rw [← made]; rfl
  have reads : after.reads = w.reads := by rw [← made]; rfl
  have self : after.thread tid = ⟨.work task (.finish help val1 success),
    (w.thread tid).started⟩ := by
    rw [← made]
    exact Function.update_self _ _ _
  have others (t : Nat) (differ : t ≠ tid) : after.thread t = w.thread t := by
    rw [← made]
    exact Function.update_of_ne differ _ _
  have decided : after.desc help.tid = ⟨⟨help.seq, if success then .succeeded else .failed⟩,
    (w.desc help.tid).op⟩ := by
    rw [← made]
    exact Function.update_self _ _ _
  have theirs (t : Nat) (differ : t ≠ help.tid) : after.desc t = w.desc t := by
    rw [← made]
    exact Function.update_of_ne differ _ _
  have written : after.record help.tid help.seq =
    some { r with verdict := some (success, instant) } := by
    rw [← made]
    refine (setRecord_self _ _ _ _).trans ?_
    rw [issued]
    rfl
  have rest (t s : Nat) (differ : ¬ (t = help.tid ∧ s = help.seq)) : after.record t s =
    w.record t s := by
    rw [← made]
    exact setRecord_other _ _ differ
  have grown : Grows r { r with verdict := some (success, instant) } :=
    ⟨rfl, rfl, fun _ => id, fun x old => absurd old (by simp [open_])⟩
  have grows := written_grows written rest fun r' old => by
    rw [issued] at old
    cases old
    exact ⟨_, rfl, grown⟩
  have seqs (t : Nat) : (after.desc t).mutables.seq = (w.desc t).mutables.seq := by
    by_cases same : t = help.tid
    · rw [same, decided, free]
    · rw [theirs t same]
  have spares (t : Nat) : Spares w after t := by
    refine ⟨seqs t, ?_, fun unissued => ?_, fun s r' old => ?_⟩
    · by_cases same : t = help.tid
      · rw [same, decided]
      · rw [theirs t same]
    · by_cases same : t = help.tid
      · rw [same, seqNow, issued] at unissued
        cases unissued
      · exact ⟨theirs t same, by rw [rest t _ (fun both => same both.1)]; exact unissued⟩
    · by_cases same : t = help.tid ∧ s = help.seq
      · obtain ⟨rfl, rfl⟩ := same
        rw [issued] at old
        cases old
        exact ⟨_, written, grown, rfl, rfl⟩
      · exact ⟨r', by rw [rest t s same]; exact old, .refl r', rfl, rfl⟩
  have history : History after := by
    refine inv.history.extend later grows
      (written_records written rest later inv.history ?_ fun a t s _ tag => ?_)
      (fun a t s tag => ?_) (fun a => same_now later inv.history (by rw [data]))
      (by rw [reads]; exact reads_later later inv.history)
    · rintro _ ⟨⟩
      refine ok.decide later installed open_ low high ?_
      rw [verdict, fits.snap, ← read]
    · rw [data]
      exact .inl tag
    · rw [data] at tag
      exact inv.history.known_now later grows tag
  refine inv.move ⟨later, grows, fun t => (seqs t).ge⟩ (fun t _ => spares t) others history
    (fun s r' old => ?_)
    (fun t r' old => ?_) ?_ ?_ (fun t s _ unissued => ?_) fun a t s tag => ?_
  · rw [seqs]
    by_cases same : tid = help.tid ∧ s = help.seq
    · rw [same.1, same.2, seqNow]
    · rw [rest tid s same] at old
      exact inv.bounded tid s r' old
  · by_cases same : t = help.tid
    · subst same
      rw [seqs, seqNow, written] at old
      cases old
      rw [decided]
      refine ⟨(inv.current help.tid r (by rw [seqNow]; exact issued)).1, ?_⟩
      cases success <;> rfl
    · rw [seqs, rest t _ (fun both => same both.1)] at old
      rw [theirs t same]
      exact inv.current t r' old
  · rw [self, later.clock]
    exact begun.trans (Nat.le_succ _)
  · rw [self]
    exact ⟨⟨_, i, ⟨written, installed⟩, ⟨fits.seq, fits.snap⟩, .inl ⟨instant, rfl⟩⟩,
      taskOk.extend (spares tid)⟩
  · by_cases same : t = help.tid ∧ s = help.seq
    · rw [same.1, same.2, issued] at unissued
      cases unissued
    · rw [rest t s same]
      exact unissued
  · rw [data] at tag
    obtain ⟨op', place, there, own⟩ := inv.owners a t s tag
    by_cases same : t = tid
    · subst same
      rw [here] at there
      cases there
      exact ⟨op', .finish help val1 success, by rw [self], own⟩
    · exact ⟨op', place, by rw [others t same]; exact there, own⟩

/-! Steps that remove a decided tagptr or return from dcssPtr, or do both at once. -/

structure Settles (w after : World V) (tid : Nat) : Prop where
  later : Later w after
  desc : after.desc = w.desc
  reads : after.reads = w.reads
  others : ∀ t, t ≠ tid → after.thread t = w.thread t
  data : ∀ a, after.data a = w.data a ∨ ∃ t s r success instant, w.record t s = some r ∧
    r.verdict = some (success, instant) ∧ r.op.addr2 = a ∧ w.data a = .tag t s ∧
    after.data a = .value (if success then r.op.new2 else r.op.old2)
  record : ∀ t s, after.record t s = w.record t s ∨ t = tid ∧ ∃ r result, w.record t s = some r ∧
    after.record t s = some { r with returned := some (w.clock, result) } ∧
      ReturnOk w r w.clock result
  gone : ∀ a s, after.data a ≠ .tag tid s

theorem Settles.grows (settles : Settles w after tid) :
    ∀ t s r, w.record t s = some r → ∃ r', after.record t s = some r' ∧ Grows r r' := by
  intro t s r issued
  rcases settles.record t s with same | ⟨_, r', result, old, new, _⟩
  · exact ⟨r, by rw [same]; exact issued, .refl r⟩
  · rw [issued] at old
    cases old
    exact ⟨_, new, rfl, rfl, fun _ => id, fun _ => id⟩

theorem Settles.tag (settles : Settles w after tid) {a t s : Nat} (tag : after.data a = .tag t s) :
    w.data a = .tag t s := by
  rcases settles.data a with same | ⟨_, _, _, _, _, _, _, _, _, value⟩
  · rw [← same]
    exact tag
  · rw [value] at tag
    cases tag

theorem Settles.history (settles : Settles w after tid) (history : History w) : History after := by
  have later := settles.later
  have old {t s : Nat} {r : Record V} (issued : w.record t s = some r) : RecordOk after t s r := by
    refine (history.records t s r issued).extend later fun i installed undecided => ?_
    have held := history.open_now issued installed undecided
    rcases settles.data r.op.addr2 with same | ⟨t', s', r', success, instant, issued', verdict, _,
      held', _⟩
    · rw [same]
      exact held
    · rw [held] at held'
      cases held'
      rw [issued] at issued'
      cases issued'
      rw [undecided] at verdict
      cases verdict
  refine history.extend later settles.grows (fun t s r issued => ?_) (fun a t s tag => ?_)
    (fun a => ?_)
    (by rw [settles.reads]; exact reads_later later history)
  · rcases settles.record t s with same | ⟨_, r', result, before, new, ok⟩
    · rw [same] at issued
      exact old issued
    · rw [new] at issued
      cases issued
      obtain ⟨begun, fresh, opened, decided, _⟩ := old before
      refine ⟨begun, fresh, opened, decided, ?_⟩
      rintro _ _ ⟨⟩
      refine ⟨by rw [later.clock]; omega, ?_⟩
      have ok' := ok.extend later (le_refl _)
      cases result <;> exact ok'
  · exact history.known_now later settles.grows (settles.tag tag)
  · rcases settles.data a with same | ⟨t, s, r, success, instant, issued, verdict, place, held,
      value⟩
    · exact same_now later history same
    · obtain ⟨r', issued', grown⟩ := settles.grows t s r issued
      obtain ⟨_, _, _, early, _⟩ := (history.records t s r issued).decided success instant verdict
      refine .remove t s r' success instant issued' (grown.verdict _ verdict) early
        (by rw [grown.op]; exact place) ?_ ?_
      · rw [later.data w.clock (le_refl _), history.dataNow]
        exact held
      · rw [← later.clock, later.dataNow, grown.op]
        exact value

theorem Settles.inv (settles : Settles w after tid) (inv : Inv w)
    (begun : (after.thread tid).started ≤ after.clock)
    (ok : PcOk after tid (after.thread tid).started (after.thread tid).pc) : Inv after := by
  have record {t s : Nat} {r' : Record V} (issued : after.record t s = some r') :
      ∃ r, w.record t s = some r ∧ r'.op = r.op ∧ r'.verdict = r.verdict := by
    rcases settles.record t s with same | ⟨_, r, result, before, new, _⟩
    · exact ⟨r', by rw [← same]; exact issued, rfl, rfl⟩
    · rw [new] at issued
      cases issued
      exact ⟨r, before, rfl, rfl⟩
  have theirs (t s : Nat) (differ : t ≠ tid) : after.record t s = w.record t s := by
    rcases settles.record t s with same | ⟨same, _⟩
    · exact same
    · exact absurd same differ
  refine inv.move ⟨settles.later, settles.grows, fun t => by rw [settles.desc]⟩ (fun t differ => ?_)
    settles.others
    (settles.history inv.history) (fun s r issued => ?_) (fun t r issued => ?_) begun ok
    (fun t s differ unissued => by rw [theirs t s differ]; exact unissued) fun a t s tag => ?_
  · refine ⟨by rw [settles.desc], by rw [settles.desc], fun unissued => ⟨by rw [settles.desc], ?_⟩,
      fun s r issued => ?_⟩
    · rw [theirs t _ differ]
      exact unissued
    · exact ⟨r, by rw [theirs t s differ]; exact issued, .refl r, rfl, rfl⟩
  · obtain ⟨r', before, _⟩ := record issued
    rw [settles.desc]
    exact inv.bounded tid s r' before
  · obtain ⟨r', before, op, verdict⟩ := record issued
    rw [settles.desc] at before ⊢
    rw [op, verdict]
    exact inv.current t r' before
  · obtain ⟨op', place, there, own⟩ := inv.owners a t s (settles.tag tag)
    have differ : t ≠ tid := by
      rintro rfl
      exact settles.gone a s tag
    exact ⟨op', place, by rw [settles.others t differ]; exact there, own⟩

/-- The tagptr of a call is not in memory when its owner is not in dcssHelp for it. -/
theorem unowned_gone (inv : Inv w) {task : Task V} {place : Place V}
    (here : (w.thread tid).pc = .work task place) (own : place.own = none) (a s : Nat) :
    w.data a ≠ .tag tid s := by
  intro tag
  obtain ⟨op', place', there, own'⟩ := inv.owners a tid s tag
  rw [here] at there
  cases there
  rw [own] at own'
  cases own'

-- A return of dcssPtr, together with what its last exchange did to memory.
theorem returnDcss_settles (inv : Inv w) {data : Nat → Word V} {r : Record V} {result : Result V}
    (issued : w.record tid seq = some r) (ok : ReturnOk w r w.clock result)
    (change : ∀ a, data a = w.data a ∨ ∃ t s r success instant, w.record t s = some r ∧
      r.verdict = some (success, instant) ∧ r.op.addr2 = a ∧ w.data a = .tag t s ∧
      data a = .value (if success then r.op.new2 else r.op.old2))
    (gone : ∀ a s, data a ≠ .tag tid s) :
    Inv (({ w with data := data } : World V).returnDcss tid seq result) := by
  have self : (({ w with data := data } : World V).returnDcss tid seq result).thread tid =
    ⟨.idle, (w.thread tid).started⟩ :=
    Function.update_self _ _ _
  have settles : Settles w (({ w with data := data } : World V).returnDcss tid seq result) tid := by
    refine ⟨tick_later w, rfl, rfl, fun t differ => Function.update_of_ne differ _ _, change,
      fun t s => ?_, gone⟩
    by_cases same : t = tid ∧ s = seq
    · obtain ⟨rfl, rfl⟩ := same
      refine .inr ⟨rfl, r, result, issued, (setRecord_self _ _ _ _).trans ?_, ok⟩
      simp [issued]
    · exact .inl (setRecord_other _ _ same)
  refine settles.inv inv ?_ ?_
  · rw [self, settles.later.clock]
    exact (inv.threads tid).1.trans (Nat.le_succ _)
  · rw [self]
    trivial

theorem failedAddr2_inv (inv : Inv w) (here : (w.thread tid).pc = .work (.dcss op seq) .attempt)
    {v : V} (held : w.data op.addr2 = .value v) (differ : v ≠ op.old2) :
    Inv (w.returnDcss tid seq (.failedAddr2 v)) := by
  have fine := (inv.threads tid).2
  rw [here] at fine
  obtain ⟨_, r, live, ⟨_, fresh⟩ | ⟨owned, _⟩⟩ := fine
  swap
  · cases owned
  refine returnDcss_settles inv live.issued ⟨fresh, ?_, w.clock, ?_, le_refl _, ?_⟩
    (fun a => .inl rfl) (unowned_gone inv here rfl)
  · rw [live.op]
    exact differ.symm
  · exact (inv.history.records tid seq r live.issued).begun
  · rw [inv.history.dataNow, live.op]
    exact held

section Finish

variable [DecidableEq V] {task : Task V} {help : Help V} {val1 : V} {success : Bool}

/-- The last exchange of dcssHelp on addr2. -/
def finishData (w : World V) (help : Help V) (success : Bool) : Nat → Word V :=
  if w.data help.snap.addr2 = .tag help.tid help.seq then
    Function.update w.data help.snap.addr2
      (.value (if success then help.snap.new2 else help.snap.old2))
  else w.data

variable (inv : Inv w) (here : (w.thread tid).pc = .work task (.finish help val1 success))
include inv here

-- Where the exchange takes effect the owner is still in dcssHelp, so the state read is its own.
theorem finish_change (a : Nat) :
    finishData w help success a = w.data a ∨ ∃ t s r verdict instant, w.record t s = some r ∧
    r.verdict = some (verdict, instant) ∧ r.op.addr2 = a ∧ w.data a = .tag t s ∧
    finishData w help success a = .value (if verdict then r.op.new2 else r.op.old2) := by
  have fine := (inv.threads tid).2
  rw [here] at fine
  obtain ⟨⟨r, i, ⟨issued, installed⟩, fits, done⟩, _⟩ := fine
  unfold finishData
  split
  · rename_i tag
    by_cases same : a = help.snap.addr2
    · subst same
      have current : (w.desc help.tid).mutables.seq = help.seq := by
        obtain ⟨op', place, there, _⟩ := inv.owners _ _ _ tag
        have fine := (inv.threads help.tid).2
        rw [there] at fine
        obtain ⟨_, r', live, _⟩ := fine
        exact live.current
      rcases done with ⟨instant, verdict⟩ | moved
      · refine .inr ⟨help.tid, help.seq, r, success, instant, issued, verdict, by rw [fits.snap],
          tag, ?_⟩
        rw [Function.update_self, fits.snap]
      · exact absurd current moved.ne'
    · exact .inl (Function.update_of_ne same _ _)
  · exact .inl rfl

theorem finish_gone (a : Nat) : finishData w help success a ≠ .tag help.tid help.seq := by
  intro tag
  have fine := (inv.threads tid).2
  rw [here] at fine
  obtain ⟨⟨r, i, ⟨issued, installed⟩, fits, _⟩, _⟩ := fine
  have before : w.data a = .tag help.tid help.seq := by
    rcases finish_change inv here a with same | ⟨_, _, _, _, _, _, _, _, _, value⟩
    · rw [← same]
      exact tag
    · rw [value] at tag
      cases tag
  obtain ⟨r', _, issued', place, _⟩ := inv.history.holds_now before
  rw [issued] at issued'
  cases issued'
  have at_ : a = help.snap.addr2 := by rw [fits.snap]; exact place.symm
  subst at_
  rw [finishData, if_pos before, Function.update_self] at tag
  cases tag

theorem finish_inv (taskOk : TaskOk w tid (w.thread tid).started help.own task) :
    Inv (({ w with data := finishData w help success } : World V).leave tid task help.helpingOther
      (if success then .success else .failedAddr1 val1)) := by
  have change := finish_change inv here
  have tagKept {a t s : Nat} (tag : finishData w help success a = .tag t s) :
    w.data a = .tag t s := by
    rcases change a with same | ⟨_, _, _, _, _, _, _, _, _, value⟩
    · rw [← same]
      exact tag
    · rw [value] at tag
      cases tag
  cases other : help.helpingOther with
  | true =>
      have own : help.own = none := by simp [Help.own, other]
      have gone := unowned_gone inv here own
      have self : (({ w with data := finishData w help success } : World V).goto tid
        (.work task .attempt)).thread tid =
          ⟨.work task .attempt, (w.thread tid).started⟩ := Function.update_self _ _ _
      have settles : Settles w (({ w with data := finishData w help success } : World V).goto tid
        (.work task .attempt)) tid :=
        ⟨tick_later w, rfl, rfl, fun t differ => Function.update_of_ne differ _ _, change,
          fun _ _ => .inl rfl,
          fun a s tag => gone a s (tagKept tag)⟩
      unfold World.leave
      rw [if_pos rfl]
      refine settles.inv inv ?_ ?_
      · rw [self, settles.later.clock]
        exact (inv.threads tid).1.trans (Nat.le_succ _)
      · rw [self]
        rw [own] at taskOk
        exact ⟨trivial, taskOk.extend (quiet_spares (by rfl) (by rfl) tid)⟩
  | false =>
      have own : help.own = some (help.tid, help.seq) := by simp [Help.own, other]
      unfold World.leave
      rw [if_neg (by simp)]
      rw [own] at taskOk
      cases task with
      | read a => cases taskOk
      | dcss op seq =>
          obtain ⟨r, live, ⟨absurd, _⟩ | ⟨mine, _⟩⟩ := taskOk
          · cases absurd
          simp only [Option.some.injEq, Prod.mk.injEq] at mine
          obtain ⟨rfl, rfl⟩ := mine
          refine returnDcss_settles inv live.issued ?_ change fun a s tag => ?_
          · have fine := (inv.threads help.tid).2
            rw [here] at fine
            obtain ⟨⟨r', i, ⟨issued, installed⟩, fits, done⟩, _⟩ := fine
            rw [live.issued] at issued
            cases issued
            rcases done with ⟨instant, verdict⟩ | moved
            · have ok := inv.history.records help.tid help.seq r live.issued
              obtain ⟨i', installed', low, high, _⟩ := ok.decided success instant verdict
              obtain ⟨begun, _⟩ := ok.opened i' installed'
              cases success
              · exact ⟨instant, verdict, by omega, high⟩
              · exact ⟨instant, verdict, by omega, high⟩
            · exact absurd live.current moved.ne'
          · -- the owner has one call, and its tagptr is gone
            obtain ⟨op', place', there, own'⟩ := inv.owners a help.tid s (tagKept tag)
            rw [here] at there
            cases there
            exact finish_gone inv here a tag

end Finish

end SetBench.Dcss
