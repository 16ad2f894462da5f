import SetBench.DcssAtomic

/-! What a failed dcssPtr reports. The value beside DCSS_FAILED_ADDR1 is the caller's own read of
addr1, while the verdict may be a helper's, which read addr1 at another moment. -/
namespace SetBench.Dcss

open Transition

variable {V : Type} {w after : World V} {blank : Op V}

/-- `x` differs from old1 and stood in addr1 at an instant of the call, before `finished`. -/
def Witness (w : World V) (r : Record V) (x : V) (finished : Nat) : Prop :=
  x ≠ r.op.old1 ∧ ∃ k, r.started ≤ k ∧ k < finished ∧ w.controlAt k r.op.addr1 = x

/-- Every failure that was returned names a value that explains it. -/
def Reported (w : World V) : Prop :=
  ∀ tid seq r finished result, w.record tid seq = some r → r.returned = some (finished, result) →
    match result with
    | .failedAddr1 x => Witness w r x finished
    | .failedAddr2 x => x ≠ r.op.old2
    | _ => True

/-- Between the two reads of addr1 a store gives old1 back and it stands when the caller reads, or a
store takes it away that stood when the caller read. -/
def Parted (w : World V) (op : Op V) (helper caller : Nat) : Prop :=
  (∃ k, k < caller ∧ helper ≤ k ∧ w.controlAt k op.addr1 ≠ op.old1 ∧
    ∀ j, j ≤ caller → k < j → w.controlAt j op.addr1 = op.old1) ∨
  ∃ k, k < helper ∧ caller ≤ k ∧ w.controlAt (k + 1) op.addr1 ≠ op.old1 ∧
    ∀ j, j ≤ k → caller ≤ j → w.controlAt j op.addr1 = op.old1

instance [DecidableEq V] (w : World V) (op : Op V) (helper caller : Nat) :
    Decidable (Parted w op helper caller) := inferInstanceAs (Decidable (_ ∨ _))

/-- The call whose state a thread is about to compare and swap, and when it read addr1. -/
def Pc.casting : Pc V → Option (Help V × Nat)
  | .work _ (.casState help _ instant _) => some (help, instant)
  | _ => none

/-- Where a caller comes to its state after a helper has failed it, no store to addr1 parts the two
reads. -/
def Agreeing (w : World V) : Event V → Prop
  | .move tid => ∀ cast ∈ (w.thread tid).pc.casting, cast.1.helpingOther = false →
      ∀ r ∈ w.record cast.1.tid cast.1.seq, ∀ decided ∈ r.verdict, decided.1 = false →
        ¬ Parted w r.op decided.2 cast.2
  | _ => True

instance [DecidableEq V] (w : World V) : (event : Event V) → Decidable (Agreeing w event)
  | .move tid => inferInstanceAs (Decidable (∀ cast ∈ (w.thread tid).pc.casting, _))
  | .call _ _ => .isTrue trivial
  | .store _ _ => .isTrue trivial

/-- What a caller is about to return beside DCSS_FAILED_ADDR1 differs from old1. -/
def Settled (w : World V) : Prop :=
  ∀ tid task help x, (w.thread tid).pc = .work task (.finish help x false) →
    help.helpingOther = false →
    ∀ r, w.record help.tid help.seq = some r → x ≠ r.op.old1

/-! A word that holds a value at one instant and not at another is stored to in between. -/

theorem exists_last {p : Nat → Prop} {low high : Nat} (before : low ≤ high) (lacks : ¬ p low)
    (has : p high) : ∃ k, k < high ∧ low ≤ k ∧ ¬ p k ∧ ∀ j, j ≤ high → k < j → p j := by
  induction high, before using Nat.le_induction with
  | base => exact absurd has lacks
  | succ high before ih =>
      by_cases here : p high
      · obtain ⟨k, below, above, gone, stands⟩ := ih here
        refine ⟨k, by omega, above, gone, fun j least less => ?_⟩
        rcases Nat.lt_or_ge high j with top | rest
        · rw [show j = high + 1 by omega]
          exact has
        · exact stands j rest less
      · refine ⟨high, by omega, before, here, fun j least less => ?_⟩
        rw [show j = high + 1 by omega]
        exact has

open Classical in
theorem exists_first {p : Nat → Prop} {low high : Nat} (before : low ≤ high) (has : p low)
    (lacks : ¬ p high) : ∃ k, k < high ∧ low ≤ k ∧ ¬ p (k + 1) ∧ ∀ j, j ≤ k → low ≤ j → p j := by
  have lost : ∃ n, low ≤ n ∧ ¬ p n := ⟨high, before, lacks⟩
  obtain ⟨above, gone⟩ := Nat.find_spec lost
  have least : Nat.find lost ≤ high := Nat.find_min' lost ⟨before, lacks⟩
  have later : low ≠ Nat.find lost := by
    intro same
    rw [← same] at gone
    exact gone has
  refine ⟨Nat.find lost - 1, by omega, by omega, ?_, fun j below past => ?_⟩
  · rw [Nat.sub_add_cancel (by omega)]
    exact gone
  · by_contra missing
    exact Nat.find_min lost (show j < Nat.find lost by omega) ⟨past, missing⟩

/-- After a helper has read something else, a caller reads old1 exactly when a store parts the
reads. -/
theorem parted_iff {op : Op V} {helper caller : Nat}
    (failed : w.controlAt helper op.addr1 ≠ op.old1) :
    Parted w op helper caller ↔ w.controlAt caller op.addr1 = op.old1 := by
  constructor
  · rintro (⟨k, below, _, _, stands⟩ | ⟨k, _, above, _, stood⟩)
    · exact stands caller le_rfl below
    · exact stood caller above le_rfl
  · intro read
    let p (k : Nat) : Prop := w.controlAt k op.addr1 = op.old1
    rcases Nat.le_total helper caller with first | last
    · exact .inl (exists_last (p := p) first failed read)
    · exact .inr (exists_first (p := p) last read failed)

structure Genuine (w : World V) : Prop where
  finishing : ∀ tid task help x, (w.thread tid).pc = .work task (.finish help x false) →
    help.helpingOther = false →
    ∃ r, w.record help.tid help.seq = some r ∧ Witness w r x w.clock
  returned : ∀ tid seq r finished x, w.record tid seq = some r →
    r.returned = some (finished, .failedAddr1 x) →
    finished ≤ w.clock ∧ Witness w r x finished

/-! What one step does to the calls. -/

def RecordStep (w : World V) (r r' : Record V) : Prop :=
  r'.op = r.op ∧ r'.started = r.started ∧
    (r'.returned = r.returned ∨ ∃ result, r'.returned = some (w.clock, result) ∧
    ∀ x, result = .failedAddr1 x → Witness w r x w.clock)

structure Follows (w after : World V) (tid : Nat) : Prop where
  clock : after.clock = w.clock + 1
  control : ∀ k, k ≤ w.clock → after.controlAt k = w.controlAt k
  others : ∀ t, t ≠ tid → (after.thread t).pc = (w.thread t).pc
  grows : ∀ t s r, w.record t s = some r → ∃ r', after.record t s = some r'
  kept : ∀ t s r r', w.record t s = some r → after.record t s = some r' → RecordStep w r r'
  fresh : ∀ t s r', w.record t s = none → after.record t s = some r' → r'.returned = none
  own : ∀ task help x, (after.thread tid).pc = .work task (.finish help x false) →
    help.helpingOther = false →
    ∃ r, w.record help.tid help.seq = some r ∧ Witness w r x w.clock

theorem RecordStep.refl (r : Record V) : RecordStep w r r := ⟨rfl, rfl, .inl rfl⟩

theorem Witness.later {r r' : Record V} {x : V} {finished : Nat}
    (witness : Witness w r x finished) (op : r'.op = r.op) (started : r'.started = r.started)
    (early : finished ≤ w.clock) (control : ∀ k, k ≤ w.clock → after.controlAt k = w.controlAt k) :
    Witness after r' x finished := by
  obtain ⟨differs, k, low, high, held⟩ := witness
  refine ⟨by rw [op]; exact differs, k, by rw [started]; exact low, high, ?_⟩
  rw [control k (by omega), op]
  exact held

theorem Witness.mono {r : Record V} {x : V} {finished bound : Nat}
    (witness : Witness w r x finished) (le : finished ≤ bound) :
    Witness w r x bound := by
  obtain ⟨differs, k, low, high, held⟩ := witness
  exact ⟨differs, k, low, by omega, held⟩

theorem Genuine.follow (genuine : Genuine w) (tid : Nat) (follows : Follows w after tid) :
    Genuine after := by
  refine ⟨fun t task help x here own => ?_, fun t s r' finished x issued returned => ?_⟩
  · obtain ⟨r, issued, witness⟩ : ∃ r, w.record help.tid help.seq = some r ∧
      Witness w r x w.clock := by
      by_cases same : t = tid
      · subst same
        exact follows.own task help x here own
      · rw [follows.others t same] at here
        exact genuine.finishing t task help x here own
    obtain ⟨r', issued'⟩ := follows.grows _ _ r issued
    obtain ⟨op, started, _⟩ := follows.kept _ _ r r' issued issued'
    refine ⟨r', issued', (witness.later op started (le_refl _) follows.control).mono ?_⟩
    rw [follows.clock]
    exact Nat.le_succ _
  · cases before : w.record t s with
    | none =>
        rw [follows.fresh t s r' before issued] at returned
        cases returned
    | some r =>
        obtain ⟨op, started, same | ⟨result, now, witness⟩⟩ := follows.kept t s r r' before issued
        · rw [same] at returned
          obtain ⟨early, witness⟩ := genuine.returned t s r finished x before returned
          exact ⟨by rw [follows.clock]; omega, witness.later op started early follows.control⟩
        · rw [now, Option.some.injEq, Prod.mk.injEq] at returned
          obtain ⟨rfl, failed⟩ := returned
          exact ⟨by rw [follows.clock]; omega, (witness x failed).later op started (le_refl _)
            follows.control⟩

section Follow

variable {w' : World V} {tid : Nat}

theorem tick_follows (clock : w'.clock = w.clock) (control : w'.controlAt = w.controlAt)
    (others : ∀ t, t ≠ tid → (w'.thread t).pc = (w.thread t).pc)
    (grows : ∀ t s r, w.record t s = some r → ∃ r', w'.record t s = some r')
    (kept : ∀ t s r r', w.record t s = some r → w'.record t s = some r' → RecordStep w r r')
    (fresh : ∀ t s r', w.record t s = none → w'.record t s = some r' → r'.returned = none)
    (own : ∀ task help x, (w'.thread tid).pc = .work task (.finish help x false) →
      help.helpingOther = false →
      ∃ r, w.record help.tid help.seq = some r ∧ Witness w r x w.clock) :
    Follows w w'.tick tid := by
  refine ⟨by rw [← clock]; rfl, fun k early => ?_, others, grows, kept, fresh, own⟩
  rw [← control]
  exact Function.update_of_ne (by omega) _ _

/-- A step that touches no record. -/
theorem goto_follows {pc : Pc V} (clock : w'.clock = w.clock)
    (control : w'.controlAt = w.controlAt) (threads : w'.thread = w.thread)
    (records : w'.record = w.record)
    (own : ∀ task help x, pc = .work task (.finish help x false) → help.helpingOther = false →
      ∃ r, w.record help.tid help.seq = some r ∧ Witness w r x w.clock) :
    Follows w (w'.goto tid pc) tid := by
  refine tick_follows clock control (fun t apart => ?_) (fun t s r issued => ?_)
    (fun t s r r' issued issued' => ?_)
    (fun t s r' none issued => ?_) (fun task help x here => ?_)
  · simp only [Function.update_of_ne apart, threads]
  · exact ⟨r, by simp only [records]; exact issued⟩
  · simp only [records, issued, Option.some.injEq] at issued'
    subst issued'
    exact .refl r
  · simp only [records, none] at issued
    cases issued
  · simp only [Function.update_self] at here
    exact own task help x here

/-- A step that changes the record of one call, keeping what the call was asked. -/
theorem record_follows (w w' : World V) {pc : Pc V} (tid seq : Nat) (change : Record V → Record V)
    (clock : w'.clock = w.clock) (control : w'.controlAt = w.controlAt)
    (threads : w'.thread = w.thread)
    (written : w'.record = (w.setRecord tid seq ((w.record tid seq).map change)).record)
    (changed : ∀ r, w.record tid seq = some r → RecordStep w r (change r))
    (own : ∀ task help x, pc = .work task (.finish help x false) → help.helpingOther = false →
      ∃ r, w.record help.tid help.seq = some r ∧ Witness w r x w.clock)
    {actor : Nat} : Follows w (w'.goto actor pc) actor := by
  have at_seq : w'.record tid seq = (w.record tid seq).map change := by
    rw [written]
    exact setRecord_self w tid seq _
  have elsewhere (t s : Nat) (differ : ¬ (t = tid ∧ s = seq)) : w'.record t s = w.record t s := by
    rw [written]
    exact setRecord_other w _ differ
  refine tick_follows clock control (fun t apart => ?_) (fun t s r issued => ?_)
    (fun t s r r' issued issued' => ?_)
    (fun t s r' none issued => ?_) (fun task help x here => ?_)
  · simp only [Function.update_of_ne apart, threads]
  · by_cases same : t = tid ∧ s = seq
    · obtain ⟨rfl, rfl⟩ := same
      exact ⟨change r, by simp only [at_seq, issued, Option.map_some]⟩
    · exact ⟨r, by simp only [elsewhere t s same]; exact issued⟩
  · by_cases same : t = tid ∧ s = seq
    · obtain ⟨rfl, rfl⟩ := same
      simp only [at_seq, issued, Option.map_some, Option.some.injEq] at issued'
      subst issued'
      exact changed r issued
    · simp only [elsewhere t s same, issued, Option.some.injEq] at issued'
      subst issued'
      exact .refl r
  · by_cases same : t = tid ∧ s = seq
    · obtain ⟨rfl, rfl⟩ := same
      simp only [at_seq, none, Option.map_none] at issued
      cases issued
    · simp only [elsewhere t s same, none] at issued
      cases issued
  · simp only [Function.update_self] at here
    exact own task help x here

theorem leave_follows {task : Task V} {helpingOther : Bool} {result : Result V}
    (clock : w'.clock = w.clock) (control : w'.controlAt = w.controlAt)
    (threads : w'.thread = w.thread) (records : w'.record = w.record)
    (witness : ∀ op seq r x, helpingOther = false → task = .dcss op seq →
      w.record tid seq = some r → result = .failedAddr1 x → Witness w r x w.clock) :
    Follows w (w'.leave tid task helpingOther result) tid := by
  unfold World.leave
  cases helpingOther with
  | true => exact goto_follows clock control threads records fun _ _ _ here => by cases here
  | false =>
      cases task with
      | read a => exact goto_follows clock control threads records fun _ _ _ here => by cases here
      | dcss op seq =>
          refine record_follows w (w'.setRecord tid seq
            ((w'.record tid seq).map fun r => { r with returned := some (w'.clock, result) }))
            tid seq (fun r => { r with returned := some (w'.clock, result) }) clock control
              threads ?_
            (fun r issued => ⟨rfl, rfl, .inr ⟨result, by rw [clock], ?_⟩⟩) fun _ _ _ here => ?_
          · rw [World.setRecord, World.setRecord, records]
          · exact fun x failed => witness op seq r x rfl rfl issued failed
          · cases here

end Follow

section Steps

variable [DecidableEq V] {tid : Nat}

omit [DecidableEq V] in
-- The state of a caller's own descriptor is that of its call.
theorem own_state (inv : Inv w) {task : Task V} {help : Help V} {val1 : V} {instant seen : Nat}
    {r : Record V}
    (taskOk : TaskOk w tid (w.thread tid).started (Place.casState help val1 instant seen).own task)
    (own : help.helpingOther = false) (issued : w.record help.tid help.seq = some r) :
    (w.desc help.tid).mutables.state = stateOf r.verdict := by
  cases task with
  | read a => simp [TaskOk, Place.own, Help.own, own] at taskOk
  | dcss op seq =>
      obtain ⟨r', live, ⟨none, _⟩ | ⟨mine, _⟩⟩ := taskOk
      · simp [Place.own, Help.own, own] at none
      · simp only [Place.own, Help.own, own, Bool.false_eq_true, if_false, Option.some.injEq,
          Prod.mk.injEq] at mine
        obtain ⟨same, rfl⟩ := mine
        have current := live.current
        rw [← same] at current
        rw [← current] at issued
        exact (inv.current help.tid r issued).2

theorem workStep_follows (inv : Inv w) (genuine : Genuine w) (agreeing : Agreeing w (.move tid))
    {task : Task V} {place : Place V} (here : (w.thread tid).pc = .work task place) :
    Follows w (workStep blank w tid task place) tid := by
  have fine := (inv.threads tid).2
  rw [here] at fine
  obtain ⟨placeOk, taskOk⟩ := fine
  have quiet {pc : Pc V} (other : ∀ task help x, pc ≠ .work task (.finish help x false)) :
    Follows w (w.goto tid pc) tid :=
    goto_follows rfl rfl rfl rfl fun task help x same => absurd same (other task help x)
  cases place with
  | attempt =>
      cases task with
      | dcss op seq =>
          simp only [workStep]
          cases held : w.data op.addr2 with
          | tag other otherSeq => exact quiet (by simp)
          | value v =>
              by_cases same : v = op.old2
              · simp only [same, if_true]
                refine record_follows w (w.install tid seq op) tid seq
                  (fun r => { r with installed := some w.clock }) rfl rfl rfl rfl
                  (fun r _ => ⟨rfl, rfl, .inl rfl⟩) fun _ _ _ here => ?_
                cases here
              · simp only [same, if_false]
                refine record_follows w
                  (w.setRecord tid seq ((w.record tid seq).map fun r =>
                    { r with returned := some (w.clock, .failedAddr2 v) })) tid seq
                  (fun r => { r with returned := some (w.clock, .failedAddr2 v) }) rfl rfl rfl rfl
                  (fun r _ => ⟨rfl, rfl, .inr ⟨_, rfl, fun x failed => by cases failed⟩⟩)
                  fun _ _ _ here => ?_
                cases here
      | read a =>
          simp only [workStep]
          cases held : w.data a with
          | tag other otherSeq => exact quiet (by simp)
          | value v => exact goto_follows rfl rfl rfl rfl fun _ _ _ here => by cases here
  | copyMutables other seq => exact quiet (by simp)
  | copy other seq snapSeq got field =>
      simp only [workStep]
      cases more : field.next with
      | some next => exact quiet (by simp)
      | none => exact quiet (by simp)
  | validate other seq snapSeq got =>
      simp only [workStep]
      split
      · exact quiet (by simp)
      · exact quiet (by simp)
  | readAddr1 help => exact quiet (by simp)
  | readMutables help val1 instant =>
      simp only [workStep]
      split
      · exact leave_follows rfl rfl rfl rfl fun _ _ _ _ _ _ _ failed => by cases failed
      · exact quiet (by simp)
  | casState help val1 instant seen =>
      obtain ⟨r, i, known, fits, low, high, read, _⟩ := placeOk
      have begun := ((inv.history.records _ _ r known.issued).opened i known.installed).1
      have witness (differs : val1 ≠ help.snap.old1) : ∃ r, w.record help.tid help.seq = some r ∧
        Witness w r val1 w.clock := by
        rw [fits.snap] at differs
        exact ⟨r, known.issued, differs, instant, by omega, high, read⟩
      simp only [workStep]
      split
      · refine record_follows w (w.decide help.tid seen (val1 = help.snap.old1) instant)
          help.tid seen
          (fun r => { r with verdict := some (Decidable.decide (val1 = help.snap.old1), instant) })
          rfl rfl rfl rfl
          (fun r _ => ⟨rfl, rfl, .inl rfl⟩) fun task help' x same own => ?_
        simp only [Pc.work.injEq, Place.finish.injEq] at same
        obtain ⟨_, rfl, rfl, differs⟩ := same
        exact witness (by simpa using differs)
      · split
        · rename_i decided
          refine goto_follows rfl rfl rfl rfl fun task' help' x same own => ?_
          simp only [Pc.work.injEq, Place.finish.injEq] at same
          obtain ⟨_, rfl, rfl, notSucceeded⟩ := same
          have failed : (w.desc help.tid).mutables.state = .failed := by
            cases state : (w.desc help.tid).mutables.state with
            | undecided => exact absurd state decided
            | succeeded => simp [state] at notSucceeded
            | failed => rfl
          obtain ⟨helper, verdict⟩ : ∃ helper, r.verdict = some (false, helper) := by
            rw [own_state inv taskOk own known.issued] at failed
            unfold stateOf at failed
            split at failed
            · cases failed
            · cases failed
            · exact ⟨_, ‹_›⟩
          have other := ((inv.history.records _ _ r known.issued).decided false helper
            verdict).choose_spec.2.2.2.2.2
          refine witness fun equal => ?_
          refine agreeing (help, instant) (by rw [here]; rfl) own r known.issued (false, helper)
            verdict rfl ((parted_iff (by simpa using other)).mpr ?_)
          rw [read, equal, fits.snap]
        · split
          · exact leave_follows rfl rfl rfl rfl fun _ _ _ _ _ _ _ failed => by cases failed
          · exact quiet (by simp)
  | finish help val1 success =>
      have witness (op : Op V) (seq : Nat) (r : Record V) (x : V) (own : help.helpingOther = false)
        (dcss : task = .dcss op seq)
          (issued : w.record tid seq = some r)
          (failed : (if success then Result.success else .failedAddr1 val1) = .failedAddr1 x) :
          Witness w r x w.clock := by
        subst dcss
        cases success with
        | true => cases failed
        | false =>
            cases failed
            obtain ⟨_, _, ⟨none, _⟩ | ⟨mine, _⟩⟩ := taskOk
            · simp [Place.own, Help.own, own] at none
            · simp only [Place.own, Help.own, own, Bool.false_eq_true, if_false, Option.some.injEq,
                Prod.mk.injEq] at mine
              obtain ⟨r', issued', witness⟩ := genuine.finishing tid _ help val1 here own
              rw [mine.1, mine.2, issued, Option.some.injEq] at issued'
              subst issued'
              exact witness
      simp only [workStep]
      split
      · exact leave_follows rfl rfl rfl rfl witness
      · exact leave_follows rfl rfl rfl rfl witness

theorem step_genuine (inv : Inv w) (genuine : Genuine w) {event : Event V}
    (agreeing : Agreeing w event) (stepped : step blank w event = some after) : Genuine after := by
  have start {tid : Nat} {pc : Pc V}
    (other : ∀ task help x, pc ≠ .work task (.finish help x false)) :
    Follows w (w.start tid pc) tid := by
    refine tick_follows rfl rfl (fun t apart => ?_) (fun t s r issued => ⟨r, issued⟩)
      (fun t s r r' issued issued' => ?_)
      (fun t s r' none issued => ?_) (fun task help x here => ?_)
    · simp only [Function.update_of_ne apart]
    · simp only [issued, Option.some.injEq] at issued'
      exact issued' ▸ .refl r
    · simp only [none] at issued
      cases issued
    · simp only [Function.update_self] at here
      exact absurd here (other task help x)
  cases event with
  | store a v =>
      cases stepped
      refine genuine.follow 0 (tick_follows rfl rfl (fun _ _ => rfl)
        (fun t s r issued => ⟨r, issued⟩)
        (fun t s r r' issued issued' => ?_) (fun t s r' none issued => ?_)
        fun task help x here own => genuine.finishing 0 task help x here own)
      · simp only [issued, Option.some.injEq] at issued'
        exact issued' ▸ .refl r
      · simp only [none] at issued
        cases issued
  | call tid job =>
      cases idle : (w.thread tid).pc with
      | idle =>
          cases job with
          | dcssPtr op =>
              simp only [step, idle, Option.some.injEq] at stepped
              subst stepped
              exact genuine.follow _ (start (by simp))
          | dcssRead a =>
              simp only [step, idle, Option.some.injEq] at stepped
              subst stepped
              exact genuine.follow _ (start (by simp))
      | _ => simp [step, idle] at stepped
  | move tid =>
      have fine := (inv.threads tid).2
      have quiet {w' : World V} {pc : Pc V} (clock : w'.clock = w.clock)
        (control : w'.controlAt = w.controlAt)
          (threads : w'.thread = w.thread) (records : w'.record = w.record)
          (other : ∀ task help x, pc ≠ .work task (.finish help x false)) :
          Genuine (w'.goto tid pc) :=
        genuine.follow _ (goto_follows clock control threads records fun task help x same =>
          absurd same (other task help x))
      simp only [step] at stepped
      cases here : (w.thread tid).pc with
      | idle => simp [here] at stepped
      | descNew op =>
          simp only [here, Option.some.injEq] at stepped
          subst stepped
          exact quiet rfl rfl rfl rfl (by simp)
      | renew op seen =>
          simp only [here, Option.some.injEq] at stepped
          subst stepped
          exact quiet rfl rfl rfl rfl (by simp)
      | fill op field =>
          simp only [here] at stepped
          cases more : field.next with
          | some next =>
              simp only [more, Option.some.injEq] at stepped
              subst stepped
              exact quiet rfl rfl rfl rfl (by simp)
          | none =>
              simp only [more, Option.some.injEq] at stepped
              subst stepped
              exact quiet rfl rfl rfl rfl (by simp)
      | initialized op =>
          simp only [here, Option.some.injEq] at stepped
          subst stepped
          exact quiet rfl rfl rfl rfl (by simp)
      | publish op seen =>
          simp only [here, Option.some.injEq] at stepped
          subst stepped
          rw [here] at fine
          obtain ⟨_, _, rfl⟩ := fine
          have unissued : w.record tid ((w.desc tid).mutables.seq + 1) = none := by
            cases issued : w.record tid ((w.desc tid).mutables.seq + 1) with
            | none => rfl
            | some r =>
                have := inv.bounded tid _ r issued
                omega
          refine genuine.follow tid
            (tick_follows rfl rfl (fun t apart => ?_) (fun t s r issued => ?_)
            (fun t s r r' issued issued' => ?_) (fun t s r' none issued => ?_)
            fun task help x now => ?_)
          · exact congrArg Thread.pc (Function.update_of_ne apart _ _)
          · have apart : ¬ (t = tid ∧ s = (w.desc tid).mutables.seq + 1) := by
              rintro ⟨rfl, rfl⟩
              rw [unissued] at issued
              cases issued
            exact ⟨r, (setRecord_other _ _ apart).trans issued⟩
          · have apart : ¬ (t = tid ∧ s = (w.desc tid).mutables.seq + 1) := by
              rintro ⟨rfl, rfl⟩
              rw [unissued] at issued
              cases issued
            have same := (setRecord_other _ _ apart).symm.trans issued'
            have equal := Option.some.inj (issued.symm.trans same)
            exact equal ▸ .refl r
          · by_cases same : t = tid ∧ s = (w.desc tid).mutables.seq + 1
            · obtain ⟨rfl, rfl⟩ := same
              have made := (setRecord_self _ _ _ _).symm.trans issued
              cases made
              rfl
            · have old := (setRecord_other _ _ same).symm.trans issued
              have equal := none.symm.trans old
              cases equal
          · simp at now
      | makeTag op =>
          simp only [here, Option.some.injEq] at stepped
          subst stepped
          exact quiet rfl rfl rfl rfl (by simp)
      | work task place =>
          simp only [here, Option.some.injEq] at stepped
          subst stepped
          exact genuine.follow _ (workStep_follows inv genuine agreeing here)

omit [DecidableEq V] in
theorem Genuine.reported (inv : Inv w) (genuine : Genuine w) : Reported w ∧ Settled w := by
  refine ⟨fun tid seq r finished result issued returned => ?_, fun tid task help x here own r
    issued => ?_⟩
  · cases result with
    | success => trivial
    | ignored => trivial
    | failedAddr1 x => exact (genuine.returned tid seq r finished x issued returned).2
    | failedAddr2 x =>
        obtain ⟨_, differs, _⟩ :=
          ((inv.history.records tid seq r issued).returned finished _ returned).2
        exact Ne.symm differs
  · obtain ⟨r', issued', differs, _⟩ := genuine.finishing tid task help x here own
    rw [issued, Option.some.injEq] at issued'
    exact issued' ▸ differs

/-- A caller whose read is parted from that of its helper goes on to return old1. -/
theorem parted_lost (inv : Inv w) {event : Event V} (parted : ¬ Agreeing w event)
    (stepped : step blank w event = some after) : ¬ Settled after := by
  cases event with
  | store a v => exact absurd trivial parted
  | call tid job => exact absurd trivial parted
  | move tid =>
      simp only [Agreeing, not_forall, not_not] at parted
      obtain ⟨⟨help, instant⟩, casting, own, r, issued, ⟨_, helper⟩, verdict, rfl, parted⟩ := parted
      obtain ⟨task, val1, seen, here⟩ : ∃ task val1 seen,
          (w.thread tid).pc = .work task (.casState help val1 instant seen) := by
        unfold Pc.casting at casting
        split at casting
        · rename_i task help' val1 instant' seen here
          cases casting
          exact ⟨task, val1, seen, here⟩
        · cases casting
      have fine := (inv.threads tid).2
      rw [here] at fine
      obtain ⟨⟨r', i, known, fits, low, high, read, _⟩, taskOk⟩ := fine
      have same := known.issued
      rw [Option.mem_def.mp issued, Option.some.injEq] at same
      subst same
      have record := inv.history.records _ _ r known.issued
      have other := (record.decided false helper verdict).choose_spec.2.2.2.2.2
      have failed := own_state inv taskOk own known.issued
      rw [Option.mem_def.mp verdict] at failed
      have equal := (parted_iff (by simpa using other)).mp parted
      rw [read] at equal
      have result : workStep blank w tid task (.casState help val1 instant seen) =
          w.goto tid (.work task (.finish help val1 false)) := by
        have decided : (w.desc help.tid).mutables ≠ ⟨seen, .undecided⟩ := by
          intro open_
          rw [open_] at failed
          cases failed
        simp only [workStep, if_neg decided, failed]
        rfl
      simp only [step, here, result, Option.some.injEq] at stepped
      subst stepped
      intro settled
      exact settled tid task help val1 (by simp [World.goto, World.tick]) own r known.issued equal

structure Sure (w : World V) : Prop where
  inv : Inv w
  genuine : Genuine w

omit [DecidableEq V] in
theorem initial_sure (control data : Nat → V) (blank : Op V) :
    Sure (initial control data blank) := by
  refine ⟨initial_inv control data blank, ?_, ?_⟩
  · intro tid task help x here
    cases here
  · intro tid seq r finished x issued
    cases issued

theorem step_sure (sure : Sure w) {event : Event V} (agreeing : Agreeing w event)
    (stepped : step blank w event = some after) : Sure after :=
  ⟨step_inv sure.inv event stepped, step_genuine sure.inv sure.genuine agreeing stepped⟩

/-- The runs in which no caller returns, or is about to return, a value that explains nothing are
those in which no store to addr1 parts the reads of a caller and of the helper that failed it. -/
theorem agreeing_reported (control data : Nat → V) (blank : Op V) {events : List (Event V)}
    {last : World V} :
    (Run (step blank) Agreeing (initial control data blank) events last → Reported last) ∧
    (Run (step blank) (leading (step blank) fun w => Reported w ∧ Settled w)
        (initial control data blank) events last ↔
      Run (step blank) Agreeing (initial control data blank) events last) := by
  have start := initial_sure control data blank
  refine ⟨fun run => ?_, run_leading_iff start ?_ ?_⟩
  · have sure := run_invariant Sure start (fun _ _ _ sure => step_sure sure) run
    exact (sure.genuine.reported sure.inv).1
  · intro before event after sure agreeing stepped
    have next := step_sure sure agreeing stepped
    exact ⟨next, next.genuine.reported next.inv⟩
  · intro before event after sure parted stepped good
    exact parted_lost sure.inv parted stepped good.2

end Steps

-- Thread 1 reads and fails the call of thread 0, which then reads addr1 itself; later a call of
-- thread 1 meets another value in addr2.
def twoFailures : List (Event Nat) :=
  List.flatten [[.call 0 (.dcssPtr ⟨0, 5, 0, 1, 2⟩)], List.replicate 11 (.move 0),
    [.call 1 (.dcssRead 0)], List.replicate 11 (.move 1), List.replicate 4 (.move 0),
    List.replicate 2 (.move 1), [.call 1 (.dcssPtr ⟨0, 9, 0, 3, 2⟩)], List.replicate 11 (.move 1)]

theorem two_failures_reported : ∃ last,
    Run (step ⟨0, 0, 0, 0, 0⟩) Agreeing (initial (fun _ => 9) (fun _ => 1) ⟨0, 0, 0, 0, 0⟩)
      twoFailures last ∧
    (last.record 0 3).bind (fun r => r.returned.map Prod.snd) = some (.failedAddr1 9) ∧
    (last.record 1 3).bind (fun r => r.returned.map Prod.snd) = some (.failedAddr2 1) ∧
    Reported last := by
  obtain ⟨last, replayed, facts⟩ : ∃ last,
      replay (step ⟨0, 0, 0, 0, 0⟩) Agreeing twoFailures
        (initial (fun _ => 9) (fun _ => 1) ⟨0, 0, 0, 0, 0⟩) = some last ∧
      (last.record 0 3).bind (fun r => r.returned.map Prod.snd) = some (.failedAddr1 9) ∧
      (last.record 1 3).bind (fun r => r.returned.map Prod.snd) = some (.failedAddr2 1) :=
    ⟨_, rfl, rfl, rfl⟩
  have run := run_of_replay twoFailures replayed
  exact ⟨last, run, facts.1, facts.2, (agreeing_reported (fun _ => 9) (fun _ => 1)
    ⟨0, 0, 0, 0, 0⟩).1 run⟩

-- Thread 1 helps while addr1 holds 9 and fails the call of thread 0; addr1 is 5 again when
-- thread 0 looks.
def changedBack : List (Event Nat) :=
  .call 0 (.dcssPtr ⟨0, 5, 0, 1, 2⟩) :: List.replicate 11 (.move 0) ++
    .call 1 (.dcssRead 0) :: List.replicate 11 (.move 1) ++
    .store 0 5 :: List.replicate 4 (.move 0)

theorem changed_back_run : ∃ last,
    Run (step ⟨0, 0, 0, 0, 0⟩) free (initial (fun _ => 9) (fun _ => 1) ⟨0, 0, 0, 0, 0⟩) changedBack
      last ∧
    (last.record 0 3).map (fun r => (r.op, r.returned)) =
    some (⟨0, 5, 0, 1, 2⟩, some (28, .failedAddr1 5)) := by
  obtain ⟨last, replayed, facts⟩ : ∃ last,
      replay (step ⟨0, 0, 0, 0, 0⟩) free changedBack
        (initial (fun _ => 9) (fun _ => 1) ⟨0, 0, 0, 0, 0⟩) = some last ∧
      (last.record 0 3).map (fun r => (r.op, r.returned)) =
      some (⟨0, 5, 0, 1, 2⟩, some (28, .failedAddr1 5)) :=
    ⟨_, rfl, rfl⟩
  exact ⟨last, run_of_replay changedBack replayed, facts⟩

/-- The caller reports its own read of addr1, which is old1. -/
theorem failed_with_old1 : ¬ ∀ (events : List (Event Nat)) (last : World Nat),
    Run (step ⟨0, 0, 0, 0, 0⟩) free (initial (fun _ => 9) (fun _ => 1) ⟨0, 0, 0, 0, 0⟩) events
      last → Reported last := by
  intro claim
  obtain ⟨last, run, record⟩ := changed_back_run
  obtain ⟨r, issued, same⟩ := Option.map_eq_some_iff.mp record
  simp only [Prod.mk.injEq] at same
  obtain ⟨op, returned⟩ := same
  obtain ⟨differs, _⟩ := claim changedBack last run 0 3 r 28 (.failedAddr1 5) issued returned
  rw [op] at differs
  exact differs rfl

end SetBench.Dcss
