import SetBench.DcssWrites

/-! Every run of dcss has a logical history: each word holds its untagged value, and an
installed tagptr stands for old2 until the deciding thread has read addr1, then for new2
if that thread decided for success. -/
namespace SetBench.Dcss

open Transition

variable {V : Type} {w after : World V} {blank : Op V}

theorem initial_inv (control data : Nat → V) (blank : Op V) : Inv (initial control data blank) := by
  refine ⟨⟨rfl, rfl, ?_, ?_, ?_, ?_⟩, ?_, ?_, fun tid => ⟨le_refl _, trivial⟩, ?_⟩
  · rintro _ _ _ ⟨⟩
  · rintro _ _ _ _ _ ⟨⟩
  · intro k early
    cases early
  · rintro _ ⟨⟩
  · rintro _ _ _ ⟨⟩
  · rintro _ _ ⟨⟩
  · rintro _ _ _ ⟨⟩

section Work

variable {tid : Nat} {task : Task V} {place : Place V} (inv : Inv w)
include inv

theorem copy_ok {other seq snapSeq : Nat} {got : Op V} {field : Field}
    (ok : PlaceOk w (.copy other seq snapSeq got field)) :
    ∃ r i, Seen w other seq r i ∧ ((w.desc other).mutables.seq = seq →
      snapSeq = seq ∧ got.Upto r.op field ∧ (w.desc other).op = r.op) := by
  obtain ⟨r, i, seen, agree⟩ := ok
  refine ⟨r, i, seen, fun same => ?_⟩
  obtain ⟨good, upto⟩ := agree same
  exact ⟨good, upto, (inv.current other r (by rw [same]; exact seen.issued)).1⟩

-- The owner's descriptor keeps its sequence number, so only a helper's access can fail.
theorem leave_ignored (here : (w.thread tid).pc = .work task place) {help : Help V}
    (own : place.own = help.own) (known : ∃ r i, Seen w help.tid help.seq r i ∧ Fits help r)
    (moved : (w.desc help.tid).mutables.seq ≠ help.snapSeq) :
    Inv (w.leave tid task help.helpingOther .ignored) := by
  unfold World.leave
  cases other : help.helpingOther with
  | true =>
      rw [if_pos rfl]
      refine place_inv inv here ?_ trivial
      rw [own]
      simp [Place.own, Help.own, other]
  | false =>
      have fine := (inv.threads tid).2
      rw [here] at fine
      have taskOk := fine.2
      have mine : place.own = some (help.tid, help.seq) := by rw [own]; simp [Help.own, other]
      rw [mine] at taskOk
      obtain ⟨_, _, _, fits⟩ := known
      cases task with
      | read a => cases taskOk
      | dcss op seq =>
          obtain ⟨r, live, ⟨absurd, _⟩ | ⟨same, _⟩⟩ := taskOk
          · cases absurd
          simp only [Option.some.injEq, Prod.mk.injEq] at same
          obtain ⟨rfl, rfl⟩ := same
          exact absurd (live.current.trans fits.seq.symm) moved

theorem workStep_inv [DecidableEq V] (here : (w.thread tid).pc = .work task place) :
    Inv (workStep blank w tid task place) := by
  have fine := (inv.threads tid).2
  rw [here] at fine
  obtain ⟨placeOk, taskOk⟩ := fine
  have seen {a other seq : Nat} {pc : Pc V} (tag : w.data a = .tag other seq) :
    ∃ r i, Seen (w.goto tid pc) other seq r i := by
    obtain ⟨r, i, issued, _, installed, _⟩ := inv.history.holds_now tag
    exact ⟨r, i, issued, installed⟩
  cases place with
  | attempt =>
      cases task with
      | dcss op seq =>
          simp only [workStep]
          cases held : w.data op.addr2 with
          | tag other otherSeq => exact place_inv inv here rfl (seen held)
          | value v =>
              by_cases same : v = op.old2
              · subst same
                simp only [if_true]
                exact install_inv inv here held
              · simp only [same, if_false]
                exact failedAddr2_inv inv here held same
      | read a =>
          simp only [workStep]
          cases held : w.data a with
          | tag other otherSeq => exact place_inv inv here rfl (seen held)
          | value v => exact returnRead_inv inv here held
  | copyMutables other seq =>
      obtain ⟨r, i, known⟩ := placeOk
      exact place_inv inv here rfl ⟨r, i, ⟨known.issued, known.installed⟩,
        fun same => ⟨same, trivial⟩⟩
  | copy other seq snapSeq got field =>
      obtain ⟨r, i, known, agree⟩ := copy_ok inv placeOk
      simp only [workStep]
      cases more : field.next with
      | some next =>
          refine place_inv inv here rfl ⟨r, i, ⟨known.issued, known.installed⟩, fun same => ?_⟩
          obtain ⟨good, upto, current⟩ := agree same
          exact ⟨good, by rw [current]; exact upto.next more⟩
      | none =>
          refine place_inv inv here rfl ⟨r, i, ⟨known.issued, known.installed⟩, fun same => ?_⟩
          obtain ⟨good, upto, current⟩ := agree same
          exact ⟨good, by rw [current]; exact upto.last more⟩
  | validate other seq snapSeq got =>
      obtain ⟨r, i, known, agree⟩ := placeOk
      simp only [workStep]
      by_cases same : (w.desc other).mutables.seq = seq
      · rw [if_pos same]
        obtain ⟨good, copied⟩ := agree same
        exact place_inv inv here rfl ⟨r, i, ⟨known.issued, known.installed⟩, good, copied⟩
      · rw [if_neg same]
        exact place_inv inv here rfl trivial
  | readAddr1 help =>
      obtain ⟨r, i, known, fits⟩ := placeOk
      obtain ⟨_, early, _⟩ := (inv.history.records _ _ r known.issued).opened i known.installed
      refine place_inv inv here rfl ⟨r, i, ⟨known.issued, known.installed⟩, fits, early,
        Nat.lt_succ_self _, ?_⟩
      rw [(goto_later w tid _).control w.clock (le_refl _), inv.history.controlNow, fits.snap]
  | readMutables help val1 instant =>
      obtain ⟨r, i, known, fits, low, high, read⟩ := placeOk
      simp only [workStep]
      by_cases same : (w.desc help.tid).mutables.seq = help.snapSeq
      · rw [if_neg (not_not.mpr same)]
        refine place_inv inv here rfl ⟨r, i, ⟨known.issued, known.installed⟩, fits, low,
          high.trans (Nat.lt_succ_self _), ?_, ?_⟩
        · rw [(goto_later w tid _).control instant high.le]
          exact read
        · rw [same]
          exact fits.seq
      · rw [if_pos same]
        exact leave_ignored inv here rfl ⟨r, i, known, fits⟩ same
  | casState help val1 instant seenSeq =>
      obtain ⟨r, i, known, fits, low, high, read, rfl⟩ := placeOk
      simp only [workStep]
      by_cases free : (w.desc help.tid).mutables = ⟨help.seq, .undecided⟩
      · rw [if_pos free]
        exact decide_inv inv here free (by simp)
      · rw [if_neg free]
        by_cases decided : (w.desc help.tid).mutables.state = .undecided
        · rw [if_neg (not_not.mpr decided)]
          by_cases same : (w.desc help.tid).mutables.seq = help.snapSeq
          · -- an undecided state under the same sequence number would have been exchanged
            refine absurd ?_ free
            cases now : (w.desc help.tid).mutables with
            | mk seq state =>
                rw [now] at same decided
                simp only at same decided
                rw [same, decided, fits.seq]
          · rw [if_pos same]
            exact leave_ignored inv here rfl ⟨r, i, known, fits⟩ same
        · rw [if_pos decided]
          refine place_inv inv here rfl ⟨r, i, ⟨known.issued, known.installed⟩, fits, ?_⟩
          rcases (inv.bounded _ _ r known.issued).eq_or_lt with same | moved
          · have state := (inv.current help.tid r (by rw [← same]; exact known.issued)).2
            rcases verdict : r.verdict with _ | ⟨success, instant'⟩
            · rw [verdict] at state
              exact absurd state decided
            · rw [verdict] at state
              refine .inl ⟨instant', ?_⟩
              cases success <;> simp [state, stateOf]
          · exact .inr moved
  | finish help val1 success =>
      have done := finish_inv inv here taskOk
      simp only [workStep]
      unfold finishData at done
      split at done
      · rename_i tag
        rw [if_pos tag]
        exact done
      · rename_i tag
        rw [if_neg tag]
        exact done

end Work

theorem step_inv [DecidableEq V] (inv : Inv w) (event : Event V)
    (stepped : step blank w event = some after) : Inv after := by
  cases event with
  | store a v =>
      cases stepped
      exact store_inv inv a v
  | call tid job =>
      cases idle : (w.thread tid).pc with
      | idle =>
          cases job with
          | dcssPtr op =>
              simp only [step, idle, Option.some.injEq] at stepped
              subst stepped
              exact start_inv inv idle trivial
          | dcssRead a =>
              simp only [step, idle, Option.some.injEq] at stepped
              subst stepped
              exact start_inv inv idle ⟨trivial, rfl⟩
      | _ => simp [step, idle] at stepped
  | move tid =>
      have fine := (inv.threads tid).2
      simp only [step] at stepped
      cases here : (w.thread tid).pc with
      | idle => simp [here] at stepped
      | descNew op =>
          simp only [here, Option.some.injEq] at stepped
          subst stepped
          exact goto_inv inv rfl (by simp [here])
      | renew op seen =>
          simp only [here, Option.some.injEq] at stepped
          subst stepped
          exact renew_inv inv here
      | fill op field =>
          simp only [here] at stepped
          cases more : field.next with
          | some next =>
              simp only [more, Option.some.injEq] at stepped
              subst stepped
              exact fill_inv inv here (by simp [more])
          | none =>
              simp only [more, Option.some.injEq] at stepped
              subst stepped
              exact fill_inv inv here (by simp [more])
      | initialized op =>
          simp only [here, Option.some.injEq] at stepped
          subst stepped
          rw [here] at fine
          obtain ⟨filling, filled⟩ := fine
          exact goto_inv inv ⟨⟨filling.unissued, filling.undecided⟩, filled, rfl⟩ (by simp [here])
      | publish op seen =>
          simp only [here, Option.some.injEq] at stepped
          subst stepped
          exact publish_inv inv here
      | makeTag op =>
          simp only [here, Option.some.injEq] at stepped
          subst stepped
          rw [here] at fine
          obtain ⟨r, live, fresh⟩ := fine
          refine goto_inv inv ⟨trivial, r, ?_, .inl ⟨rfl, fresh⟩⟩ (by simp [here])
          exact ⟨live.current, live.issued, live.op, live.started, live.waiting⟩
      | work task place =>
          simp only [here, Option.some.injEq] at stepped
          subst stepped
          exact workStep_inv inv here

/-! The logical history. -/

/-- A logical value of every word at every instant and the instants at which the calls
take effect. Words change only where a call takes effect; there addr1 holds old1 and the
word goes from old2 to new2. -/
structure Linearized (w : World V) (logical : Nat → Nat → V) (point : Nat → Nat → Option Nat) :
    Prop where
  plain : ∀ k, k ≤ w.clock → ∀ a v, w.dataAt k a = .value v → logical k a = v
  change : ∀ k, k < w.clock → ∀ a, logical (k + 1) a ≠ logical k a →
    ∃ tid seq r, w.record tid seq = some r ∧ r.op.addr2 = a ∧ point tid seq = some k
  effect : ∀ tid seq k, point tid seq = some k → k < w.clock ∧ ∃ r, w.record tid seq = some r ∧
    r.started ≤ k ∧
    w.controlAt k r.op.addr1 = r.op.old1 ∧ logical k r.op.addr2 = r.op.old2 ∧
      logical (k + 1) r.op.addr2 = r.op.new2
  alone : ∀ tid seq tid' seq' k r r', point tid seq = some k → point tid' seq' = some k →
    w.record tid seq = some r →
    w.record tid' seq' = some r' → r.op.addr2 = r'.op.addr2 → tid = tid' ∧ seq = seq'
  success : ∀ tid seq r finished result, w.record tid seq = some r →
    r.returned = some (finished, result) →
    (result = .success ↔ ∃ k, r.started ≤ k ∧ k < finished ∧ point tid seq = some k)
  failure : ∀ tid seq r finished result, w.record tid seq = some r →
    r.returned = some (finished, result) →
    result ≠ .success → point tid seq = none ∧
      ((∃ val1, result = .failedAddr1 val1) ∧
        (∃ k, r.started ≤ k ∧ k < finished ∧ w.controlAt k r.op.addr1 ≠ r.op.old1 ∧
        logical k r.op.addr2 = r.op.old2) ∨
      ∃ v, result = .failedAddr2 v ∧ v ≠ r.op.old2 ∧ ∃ k, r.started ≤ k ∧ k ≤ finished ∧
        logical k r.op.addr2 = v)
  read : ∀ c ∈ w.reads, ∃ k, c.started ≤ k ∧ k ≤ c.finished ∧ logical k c.addr = c.value

def standsFor (r : Record V) (k : Nat) : V :=
  match r.verdict with
  | some (true, instant) => if instant < k then r.op.new2 else r.op.old2
  | _ => r.op.old2

def logicalAt (blank : Op V) (w : World V) (k a : Nat) : V :=
  match w.dataAt k a with
  | .value v => v
  | .tag tid seq =>
      match w.record tid seq with
      | some r => standsFor r k
      | none => blank.old2

def pointOf (w : World V) (tid seq : Nat) : Option Nat :=
  match w.record tid seq with
  | some r =>
      match r.verdict with
      | some (true, instant) => some instant
      | _ => none
  | none => none

theorem pointOf_iff {tid seq k : Nat} : pointOf w tid seq = some k ↔
    ∃ r, w.record tid seq = some r ∧ r.verdict = some (true, k) := by
  unfold pointOf
  rcases w.record tid seq with _ | r
  · simp
  · rcases verdict : r.verdict with _ | ⟨_ | _, instant⟩ <;> simp [verdict]

theorem logicalAt_tag {k a tid seq : Nat} {r : Record V} (tag : w.dataAt k a = .tag tid seq)
    (issued : w.record tid seq = some r) :
    logicalAt blank w k a = standsFor r k := by
  simp only [logicalAt, tag, issued]

theorem logicalAt_value {k a : Nat} {v : V} (value : w.dataAt k a = .value v) :
    logicalAt blank w k a = v := by
  simp only [logicalAt, value]

theorem standsFor_before {r : Record V} {k : Nat}
    (early : ∀ success instant, r.verdict = some (success, instant) → k ≤ instant) :
    standsFor r k = r.op.old2 := by
  unfold standsFor
  split
  · rename_i instant verdict
    exact if_neg (Nat.not_lt.mpr (early true instant verdict))
  · rfl

theorem standsFor_decided {r : Record V} {k instant : Nat} {success : Bool}
    (verdict : r.verdict = some (success, instant)) (late : instant < k) :
    standsFor r k = if success then r.op.new2 else r.op.old2 := by
  unfold standsFor
  rw [verdict]
  cases success
  · rfl
  · exact if_pos late

-- Installing and removing a tagptr leave the logical value as it is.
theorem logical_change (history : History w) {k a : Nat} (early : k < w.clock)
    (differs : logicalAt blank w (k + 1) a ≠ logicalAt blank w k a) :
    ∃ tid seq r, w.record tid seq = some r ∧ r.op.addr2 = a ∧ pointOf w tid seq = some k := by
  cases history.changes k early a with
  | same kept =>
      cases held : w.dataAt k a with
      | value v =>
          refine absurd ?_ differs
          rw [logicalAt_value held, logicalAt_value (kept.trans held)]
      | tag tid seq =>
          obtain ⟨r, i, issued, place, _, _⟩ := history.known k early.le a tid seq held
          refine ⟨tid, seq, r, issued, place, pointOf_iff.mpr ⟨r, issued, ?_⟩⟩
          rw [logicalAt_tag held issued, logicalAt_tag (kept.trans held) issued] at differs
          unfold standsFor at differs
          rcases verdict : r.verdict with _ | ⟨_ | _, instant⟩
          · simp [verdict] at differs
          · simp [verdict] at differs
          · have same : instant = k := by
              by_contra apart
              have both : instant < k + 1 ↔ instant < k := by omega
              simp [verdict, both] at differs
            rw [same]
  | install tid seq r issued installed place before now =>
      refine absurd ?_ differs
      rw [logicalAt_value before, logicalAt_tag now issued]
      refine standsFor_before fun success instant verdict => ?_
      obtain ⟨i, installed', low, _⟩ :=
        (history.records tid seq r issued).decided success instant verdict
      rw [installed] at installed'
      cases installed'
      exact low
  | remove tid seq r success instant issued verdict late place before now =>
      refine absurd ?_ differs
      rw [logicalAt_value now, logicalAt_tag before issued]
      exact (standsFor_decided verdict late).symm

theorem Inv.linearized (inv : Inv w) (blank : Op V) :
    Linearized w (logicalAt blank w) (pointOf w) := by
  have history := inv.history
  have decided {tid seq : Nat} {r : Record V} {success : Bool} {instant : Nat}
    (issued : w.record tid seq = some r)
      (verdict : r.verdict = some (success, instant)) :=
      (history.records tid seq r issued).decided success instant verdict
  -- at the instant of its verdict a call's tagptr stands for old2
  have before {tid seq : Nat} {r : Record V} {success : Bool} {instant : Nat}
    (issued : w.record tid seq = some r)
      (verdict : r.verdict = some (success, instant)) : logicalAt blank w instant r.op.addr2 =
      r.op.old2 := by
    obtain ⟨i, _, _, _, tag, _, _⟩ := decided issued verdict
    rw [logicalAt_tag tag issued]
    refine standsFor_before fun success' instant' verdict' => ?_
    rw [verdict] at verdict'
    cases verdict'
    exact le_refl _
  refine ⟨?_, ?_, ?_, ?_, ?_, ?_, ?_⟩
  · intro k _ a v value
    exact logicalAt_value value
  · intro k early a differs
    exact logical_change history early differs
  · intro tid seq k point
    obtain ⟨r, issued, verdict⟩ := pointOf_iff.mp point
    obtain ⟨i, installed, low, high, _, tag, read⟩ := decided issued verdict
    obtain ⟨begun, _⟩ := (history.records tid seq r issued).opened i installed
    refine ⟨high, r, issued, by omega, read.mp rfl, before issued verdict, ?_⟩
    rw [logicalAt_tag tag issued]
    exact standsFor_decided verdict (Nat.lt_succ_self k)
  · intro tid seq tid' seq' k r r' point point' issued issued' same
    obtain ⟨r₁, issued₁, verdict⟩ := pointOf_iff.mp point
    obtain ⟨r₂, issued₂, verdict'⟩ := pointOf_iff.mp point'
    rw [issued] at issued₁
    rw [issued'] at issued₂
    cases issued₁
    cases issued₂
    obtain ⟨_, _, _, _, tag, _⟩ := decided issued verdict
    obtain ⟨_, _, _, _, tag', _⟩ := decided issued' verdict'
    rw [same, tag'] at tag
    cases tag
    exact ⟨rfl, rfl⟩
  · intro tid seq r finished result issued returned
    obtain ⟨_, ok⟩ := (history.records tid seq r issued).returned finished result returned
    constructor
    · rintro rfl
      obtain ⟨instant, verdict, low, high⟩ := ok
      exact ⟨instant, low, high, pointOf_iff.mpr ⟨r, issued, verdict⟩⟩
    · rintro ⟨k, _, _, point⟩
      obtain ⟨r', issued', verdict⟩ := pointOf_iff.mp point
      rw [issued] at issued'
      cases issued'
      cases result with
      | success => rfl
      | failedAddr1 val =>
          obtain ⟨_, verdict', _⟩ := ok
          rw [verdict] at verdict'
          cases verdict'
      | failedAddr2 val =>
          obtain ⟨i, installed, _⟩ := decided issued verdict
          rw [ok.1] at installed
          cases installed
      | ignored => exact ok.elim
  · intro tid seq r finished result issued returned failed
    obtain ⟨_, ok⟩ := (history.records tid seq r issued).returned finished result returned
    have none_ (open_ : ∀ k, r.verdict ≠ some (true, k)) : pointOf w tid seq = none := by
      rw [Option.eq_none_iff_forall_ne_some]
      intro k point
      obtain ⟨r', issued', verdict⟩ := pointOf_iff.mp point
      rw [issued] at issued'
      cases issued'
      exact open_ k verdict
    cases result with
    | success => exact absurd rfl failed
    | failedAddr1 val =>
        obtain ⟨instant, verdict, low, high⟩ := ok
        obtain ⟨_, _, _, _, _, _, read⟩ := decided issued verdict
        refine ⟨none_ (by simp [verdict]),
          .inl ⟨⟨val, rfl⟩, instant, low, high, fun held => ?_, before issued verdict⟩⟩
        exact absurd (read.mpr held) (by simp)
    | failedAddr2 val =>
        obtain ⟨fresh, differ, k, low, high, held⟩ := ok
        have undecided := (history.records tid seq r issued).fresh fresh
        exact ⟨none_ (by simp [undecided]),
          .inr ⟨val, rfl, differ.symm, k, low, high, logicalAt_value held⟩⟩
    | ignored => exact ok.elim
  · intro c member
    obtain ⟨_, k, low, high, held⟩ := history.reads c member
    exact ⟨k, low, high, logicalAt_value held⟩

/-- Every run of any number of threads, in any interleaving, has a logical history in
which every call of dcssPtr and dcssRead is atomic. -/
theorem dcss_atomic [DecidableEq V] (control data : Nat → V) (blank : Op V)
    {events : List (Event V)} {last : World V}
    (run : Run (step blank) free (initial control data blank) events last) :
    ∃ logical point, Linearized last logical point := by
  have inv : Inv last := run_invariant Inv (initial_inv control data blank)
    (fun _ event _ inv _ stepped => step_inv inv event stepped) run
  exact ⟨_, _, inv.linearized blank⟩

-- Thread 1 reads the word, finds the tagptr of thread 0 and decides its call; addr1 has
-- changed by the time thread 0 looks.
def helpedCall : List (Event Nat) :=
  .call 0 (.dcssPtr ⟨0, 5, 0, 1, 2⟩) :: List.replicate 11 (.move 0) ++
    .call 1 (.dcssRead 0) :: List.replicate 11 (.move 1) ++
    .store 0 9 :: List.replicate 4 (.move 0) ++ List.replicate 2 (.move 1)

theorem helped_call_atomic : ∃ last,
    Run (step ⟨0, 0, 0, 0, 0⟩) free (initial (fun _ => 5) (fun _ => 1) ⟨0, 0, 0, 0, 0⟩) helpedCall
      last ∧
    (last.record 0 3).map (fun r => (r.verdict, r.returned)) =
    some (some (true, 21), some (28, .success)) ∧
    last.reads.map (fun c => c.value) = [2] ∧
    ∃ logical point, Linearized last logical point := by
  obtain ⟨last, replayed, facts⟩ : ∃ last,
      replay (step ⟨0, 0, 0, 0, 0⟩) free helpedCall
        (initial (fun _ => 5) (fun _ => 1) ⟨0, 0, 0, 0, 0⟩) = some last ∧
      (last.record 0 3).map (fun r => (r.verdict, r.returned)) =
      some (some (true, 21), some (28, .success)) ∧
      last.reads.map (fun c => c.value) = [2] :=
    ⟨_, rfl, rfl, rfl⟩
  have run := run_of_replay helpedCall replayed
  exact ⟨last, run, facts.1, facts.2, dcss_atomic (fun _ => 5) (fun _ => 1) ⟨0, 0, 0, 0, 0⟩ run⟩

end SetBench.Dcss
