import Mathlib
import SetBench.SiloSteps

/-! Runs of transactions under Silo: each one that decides to commit has read what the ones
before it in the order of their lock points wrote. -/
namespace SetBench.Silo

open Transition

variable {data : RowId → Nat} {tids : Nat → Nat} {s s' : State} {x : Txn} {t u w : Nat}
    {a b : Access}
    {held rest done checked : List Access}
  {noWait preAbort : Bool}

theorem Inv.placed (inv : Inv data s) (here : (s.txns t).stage = .locking held []) :
    Inv data { s.setTxn t { s.txns t with
      stage := .validating [] (s.txns t).readSet
      before := s.order } with order := s.order ++ [t] } := by
  obtain ⟨s', at_s'⟩ : ∃ s', s' = ({ s.setTxn t { s.txns t with
    stage := .validating [] (s.txns t).readSet
    before := s.order } with
    order := s.order ++ [t] } : State) := ⟨_, rfl⟩
  have mine :
    s'.txns t =
    { s.txns t with stage := .validating [] (s.txns t).readSet, before := s.order } := by
    rw [at_s']
    exact Function.update_self ..
  have there {u : Nat} (apart : u ≠ t) : s'.txns u = s.txns u := by
    rw [at_s']
    exact Function.update_of_ne apart ..
  have rows : s'.rows = s.rows := by rw [at_s']; rfl
  have order : s'.order = s.order ++ [t] := by rw [at_s']
  have fits := (inv.one t).fits
  have locks := (inv.one t).locks
  have kept := (inv.one t).kept
  simp only [Txn.Fits, Txn.holds, Txn.kept, here, List.append_nil] at fits locks kept
  have absent : t ∉ s.order := (inv.one t).early (by simp only [Txn.Early, here])
  have unwritten : (s.txns t).written = [] := by simp only [Txn.written, here]
  have written (u : Nat) : (s'.txns u).written = (s.txns u).written := by
    by_cases own : u = t
    · subst own
      rw [mine, unwritten]
      rfl
    · rw [there own]
  have wrote : s'.wrote = s.wrote := by
    funext u r
    unfold State.wrote Txn.wrote
    rw [written]
  rw [← at_s']
  refine ⟨fun u => ?_, ?_, fun r => ?_⟩
  · by_cases own : u = t
    · subst own
      have old := inv.one u
      have unplaced : ∀ {v : Nat}, v ∈ s.order → v ≠ u := fun inside same => absent (same ▸ inside)
      have settled : (s'.txns u).settled = (s.txns u).writeSet := by rw [mine]; rfl
      have read : ∀ b ∈ (s.txns u).writeSet, b ∈ (s.txns u).accesses :=
        fun b member => (mem_writeSet.mp member).1
      constructor
      case fits =>
        rw [mine]
        exact ⟨rfl, fits.1 ▸ fits.2⟩
      case below =>
        rw [mine, rows]
        exact old.below
      case same =>
        rw [mine, rows]
        exact old.same
      case locks =>
        rw [mine, rows]
        exact fun b member => locks b (fits.1 ▸ member)
      case kept =>
        rw [mine, rows]
        exact fun b member => kept b (fits.1 ▸ member)
      case early =>
        rw [mine]
        exact False.elim
      case queued => exact fun _ => order ▸ List.mem_append_right _ List.mem_cons_self
      case split =>
        rw [mine, order]
        exact fun _ => ⟨[], rfl⟩
      case ahead =>
        intro v inside c claimed b member same
        rw [mine] at inside
        rw [settled] at member
        rw [there (unplaced inside)] at claimed ⊢
        rcases (inv.one v).fits.claimed claimed with done | holds
        · exact done
        · have one := (inv.one v).locks c holds
          have two := locks b (fits.1 ▸ member)
          rw [same, two] at one
          exact absurd (Option.some.inj one).symm (unplaced inside)
      case seen =>
        intro b member
        rw [settled] at member
        rw [mine, wrote, old.same b (read b member) (kept b (fits.1 ▸ member)).symm, inv.value]
      case later =>
        intro rest shape w inside
        rw [order, mine] at shape
        cases List.append_cancel_left shape
        cases inside
    · have old := inv.one u
      constructor
      case fits =>
        rw [there own]
        exact old.fits
      case below =>
        rw [there own, rows]
        exact old.below
      case same =>
        rw [there own, rows]
        exact old.same
      case locks =>
        rw [there own, rows]
        exact old.locks
      case kept =>
        rw [there own, rows]
        exact old.kept
      case early =>
        rw [there own, order]
        intro is inside
        rcases List.mem_append.mp inside with was | new
        · exact old.early is was
        · exact own (List.mem_singleton.mp new)
      case queued =>
        rw [there own, order]
        exact fun is => List.mem_append_left _ (old.queued is)
      case split =>
        rw [there own, order]
        intro inside
        obtain ⟨rest, shape⟩ := old.split ((List.mem_append.mp inside).resolve_right fun new =>
          own (List.mem_singleton.mp new))
        exact ⟨rest ++ [t], by rw [shape, List.append_assoc]; rfl⟩
      case ahead =>
        intro v inside c claimed b member same
        rw [there own] at inside member
        have apart : v ≠ t := by
          rintro rfl
          obtain ⟨rest, shape⟩ := old.split (old.queued (queued_of_settled member))
          exact absent (shape ▸ List.mem_append_left _ inside)
        rw [there apart] at claimed ⊢
        exact old.ahead v inside c claimed b member same
      case seen =>
        rw [there own, wrote]
        exact old.seen
      case later =>
        intro rest shape w inside c done b member same
        rw [order, there own] at shape
        rw [written] at done
        rw [there own] at member
        rw [rows]
        have placed : u ∈ s.order := by
          have whole : u ∈ s.order ++ [t] := shape ▸ List.mem_append_right _ List.mem_cons_self
          exact (List.mem_append.mp whole).resolve_right fun new => own (List.mem_singleton.mp new)
        obtain ⟨first, was⟩ := old.split placed
        rw [was, List.append_assoc] at shape
        have tail : first ++ [t] = rest := (List.cons.inj (List.append_cancel_left shape)).2
        rw [← tail] at inside
        rcases List.mem_append.mp inside with earlier | new
        · exact old.later first was w earlier c done b member same
        · cases List.mem_singleton.mp new
          rw [unwritten] at done
          cases done
  · rw [order]
    refine List.nodup_append.mpr ⟨inv.nodup, List.nodup_singleton t,
      fun v inside v' single same => ?_⟩
    exact absent (List.mem_singleton.mp single ▸ same ▸ inside)
  · have silent : s.wrote t r = none := wrote_none (unwritten ▸ List.forall_mem_nil _)
    rw [rows, order, wrote, serial_append, inv.value]
    exact (fold_silent (fun v member => List.mem_singleton.mp member ▸ silent) _).symm

-- In an order without repeats, a transaction stands before the ones that come after it.
theorem Inv.stands_before (inv : Inv data s) {rest : List Nat}
    (shape : s.order = (s.txns t).before ++ t :: rest) (behind : w ∈ rest) :
    t ∈ (s.txns w).before := by
  have placed : w ∈ s.order := shape ▸ List.mem_append_right _ (List.mem_cons_of_mem t behind)
  obtain ⟨later, split⟩ := (inv.one w).split placed
  obtain ⟨first, second, rfl⟩ := List.append_of_mem behind
  have nodup := inv.nodup
  have same : (s.txns w).before ++ w :: later =
    ((s.txns t).before ++ t :: first) ++ w :: second := by
    rw [← split, shape, List.append_assoc]
    rfl
  have left : w ∉ (s.txns w).before := fun member =>
    (List.nodup_append.mp (split ▸ nodup)).2.2 w member w List.mem_cons_self rfl
  have right : w ∉ later :=
    fun member => (List.nodup_cons.mp (List.nodup_append.mp (split ▸ nodup)).2.1).1 member
  have parts := (List.append_cons_inj_of_notMem left right).mp same
  rw [parts.1]
  exact List.mem_append_right _ List.mem_cons_self

theorem Inv.write (inv : Inv data s) (here : (s.txns t).stage = .writing done (a :: rest)) :
    Inv data ((s.setRow a.row ⟨(s.txns t).curTid, none, a.data⟩).stageOf t
      (.writing (done ++ [a]) rest)) := by
  obtain ⟨s', at_s'⟩ : ∃ s', s' = (s.setRow a.row ⟨(s.txns t).curTid, none, a.data⟩).stageOf t
    (.writing (done ++ [a]) rest) := ⟨_, rfl⟩
  have mine : s'.txns t = { s.txns t with stage := .writing (done ++ [a]) rest } := by
    rw [at_s']
    exact Function.update_self ..
  have there {u : Nat} (apart : u ≠ t) : s'.txns u = s.txns u := by
    rw [at_s']
    exact Function.update_of_ne apart ..
  have row : s'.rows a.row = ⟨(s.txns t).curTid, none, a.data⟩ := by
    rw [at_s']
    exact Function.update_self ..
  have other {r : RowId} (apart : r ≠ a.row) : s'.rows r = s.rows r := by
    rw [at_s']
    exact Function.update_of_ne apart ..
  have order : s'.order = s.order := by rw [at_s']; rfl
  have fits := (inv.one t).fits
  have locks := (inv.one t).locks
  have kept := (inv.one t).kept
  simp only [Txn.Fits, Txn.holds, Txn.kept, here] at fits locks kept
  obtain ⟨whole, distinct, above⟩ := fits
  have owned := locks a List.mem_cons_self
  have current := kept a List.mem_cons_self
  have claimed : a ∈ (s.txns t).claims := by
    simp only [Txn.claims, here]
    exact whole ▸ List.mem_append_right _ List.mem_cons_self
  have read : a ∈ (s.txns t).accesses :=
    (mem_writeSet.mp (whole ▸ List.mem_append_right done List.mem_cons_self)).1
  have less := above a read
  have parts : ((done.map Access.row) ++ a.row :: rest.map Access.row).Nodup := by
    rw [← whole, List.map_append] at distinct
    exact distinct
  have not_done : ∀ c ∈ done, c.row ≠ a.row := fun c member same =>
    (List.nodup_append.mp parts).2.2 c.row (List.mem_map_of_mem member) a.row
    List.mem_cons_self same
  have not_rest : ∀ c ∈ rest, c.row ≠ a.row := fun c member same =>
    (List.nodup_cons.mp (List.nodup_append.mp parts).2.1).1 (same ▸ List.mem_map_of_mem member)
  have inside : t ∈ s.order := (inv.one t).queued (by simp only [Txn.Queued, here])
  have was : (s.txns t).written = done := by simp only [Txn.written, here]
  have now : (s'.txns t).written = done ++ [a] := by rw [mine]; rfl
  have grown {u : Nat} {c : Access} (member : c ∈ (s.txns u).written) :
    c ∈ (s'.txns u).written := by
    by_cases own : u = t
    · subst own
      rw [now]
      exact List.mem_append_left _ (was ▸ member)
    · rwa [there own]
  have accesses (u : Nat) : (s'.txns u).accesses = (s.txns u).accesses := by
    by_cases own : u = t
    · rw [own, mine]
    · rw [there own]
  have before (u : Nat) : (s'.txns u).before = (s.txns u).before := by
    by_cases own : u = t
    · rw [own, mine]
    · rw [there own]
  have claims (u : Nat) : (s'.txns u).claims = (s.txns u).claims := by
    by_cases own : u = t
    · subst own
      rw [mine]
      simp only [Txn.claims, here]
      rfl
    · rw [there own]
  have settled (u : Nat) : (s'.txns u).settled = (s.txns u).settled := by
    by_cases own : u = t
    · subst own
      rw [mine]
      simp only [Txn.settled, here]
    · rw [there own]
  have apart_row {u : Nat} {c : Access} (own : u ≠ t) (member : c ∈ (s.txns u).holds) :
    c.row ≠ a.row := by
    intro same
    have locked := (inv.one u).locks c member
    rw [same, owned] at locked
    exact own (Option.some.inj locked).symm
  have wrote_other {u : Nat} {r : RowId} (fine : u ≠ t ∨ r ≠ a.row) :
    s'.wrote u r = s.wrote u r := by
    unfold State.wrote Txn.wrote
    by_cases own : u = t
    · subst own
      have away : a.row ≠ r := (fine.resolve_left fun apart => apart rfl).symm
      rw [now, was, List.find?_append]
      simp [away]
    · rw [there own]
  have wrote_here : s'.wrote t a.row = some a.data := by
    unfold State.wrote Txn.wrote
    have none_ : done.find? (·.row = a.row) = none := List.find?_eq_none.mpr fun c member => by
      simpa using not_done c member
    rw [now, List.find?_append, none_]
    simp
  -- Nobody who comes later has touched the row, for its lock was held from before.
  have untouched {u : Nat} {b : Access} (ahead : t ∈ (s.txns u).before)
    (member : b ∈ (s.txns u).settled) : b.row ≠ a.row := by
    intro same
    have earlier := (inv.one u).ahead t ahead a claimed b member same.symm
    rw [was] at earlier
    exact not_done a earlier rfl
  have tid_grows (r : RowId) : (s.rows r).tid ≤ (s'.rows r).tid := by
    by_cases same : r = a.row
    · subst same
      rw [row, current]
      exact less.le
    · rw [other same]
  rw [← at_s']
  refine ⟨fun u => ?_, order ▸ inv.nodup, fun r => ?_⟩
  · have old := inv.one u
    constructor
    case fits =>
      by_cases own : u = t
      · subst own
        rw [mine]
        exact ⟨by rw [List.append_assoc]; exact whole, distinct, above⟩
      · rw [there own]
        exact old.fits
    case below =>
      rw [accesses]
      exact fun b member => (old.below b member).trans (tid_grows b.row)
    case same =>
      rw [accesses]
      intro b member at_tid
      by_cases same : b.row = a.row
      · have le := old.below b member
        rw [same, row] at at_tid
        rw [same, current] at le
        dsimp only at at_tid
        omega
      · rw [other same] at at_tid ⊢
        exact old.same b member at_tid
    case locks =>
      intro b member
      by_cases own : u = t
      · subst own
        rw [mine] at member
        have left : b ∈ rest := member
        rw [other (not_rest b left)]
        exact locks b (List.mem_cons_of_mem _ left)
      · rw [there own] at member
        rw [other (apart_row own member)]
        exact old.locks b member
    case kept =>
      intro b member
      by_cases own : u = t
      · subst own
        rw [mine] at member
        have left : b ∈ rest := member
        rw [other (not_rest b left)]
        exact kept b (List.mem_cons_of_mem _ left)
      · rw [there own] at member
        rw [other (apart_row own (kept_held member))]
        exact old.kept b member
    case early =>
      rw [order]
      by_cases own : u = t
      · subst own
        rw [mine]
        exact False.elim
      · rw [there own]
        exact old.early
    case queued =>
      rw [order]
      by_cases own : u = t
      · exact fun _ => own ▸ inside
      · rw [there own]
        exact old.queued
    case split =>
      rw [order, before]
      exact old.split
    case ahead =>
      intro v ahead c claim b member same
      rw [before] at ahead
      rw [claims] at claim
      rw [settled] at member
      exact grown (old.ahead v ahead c claim b member same)
    case seen =>
      intro b member
      rw [settled] at member
      rw [before, old.seen b member]
      apply serial_congr
      intro v ahead
      by_cases own : v = t
      · subst own
        exact (wrote_other (.inr (untouched ahead member))).symm
      · exact (wrote_other (.inl own)).symm
    case later =>
      intro behind shape w later c done' b member same
      rw [order, before] at shape
      rw [accesses] at member
      by_cases own : w = t
      · subst own
        rw [now] at done'
        rcases List.mem_append.mp done' with early | new
        · exact Nat.lt_of_lt_of_le (old.later behind shape w later c (was ▸ early) b member same)
            (tid_grows b.row)
        · cases List.mem_singleton.mp new
          have le := old.below b member
          rw [← same, current] at le
          rw [← same, row]
          exact Nat.lt_of_le_of_lt le less
      · rw [there own] at done'
        exact Nat.lt_of_lt_of_le (old.later behind shape w later c done' b member same)
          (tid_grows b.row)
  · rw [order]
    by_cases same : r = a.row
    · subst same
      obtain ⟨behind, shape⟩ := (inv.one t).split inside
      have silent : ∀ w ∈ behind, s'.wrote w a.row = none := by
        intro w later
        have ahead := inv.stands_before shape later
        have apart : w ≠ t := by
          rintro rfl
          exact (List.nodup_cons.mp (List.nodup_append.mp (shape ▸ inv.nodup)).2.1).1 later
        rw [wrote_other (.inl apart)]
        exact wrote_none fun c done' => untouched ahead ((inv.one w).fits.settled done')
      rw [row, shape, serial_append, List.foldl_cons, wrote_here, fold_silent silent]
      rfl
    · rw [other same, inv.value]
      exact serial_congr fun v _ => (wrote_other (.inr same)).symm

theorem Inv.step (inv : Inv data s) {event : Event}
    (stepped : step noWait preAbort s event = some s') : Inv data s' := by
  cases event with
  | access t row write =>
      rw [Silo.step] at stepped
      split at stepped
      · rename_i fine
        cases stepped
        exact inv.access fine.1
      · cases stepped
  | advance t =>
      have moved : advance noWait preAbort s t = some s' := stepped
      unfold advance at moved
      dsimp only at moved
      have idle {stage : Stage} (here : (s.txns t).stage = stage)
        (plain : stage = .running ∨ ∃ rest, stage = .checking rest) :
          (s.txns t).Early ∧ (s.txns t).written = [] := by
        rcases plain with rfl | ⟨rest, rfl⟩ <;> simp [Txn.Early, Txn.written, here]
      cases here : (s.txns t).stage with
      | running =>
          rw [here] at moved
          cases moved
          exact inv.enter (idle here (.inl rfl))
      | checking rest =>
          rw [here] at moved
          have was := idle here (.inr ⟨rest, rfl⟩)
          cases rest with
          | nil =>
              cases moved
              exact inv.start_locking was
          | cons a rest =>
              cases moved
              by_cases current : (s.rows a.row).tid = a.tid
              · rw [if_pos current]
                exact inv.idle (.inr ⟨rest, rfl⟩) was
              · rw [if_neg current]
                exact inv.idle (.inl rfl) was
      | locking held rest =>
          rw [here] at moved
          cases rest with
          | nil =>
              cases moved
              exact inv.placed here
          | cons a rest =>
              dsimp only at moved
              by_cases free : (s.rows a.row).lock = none
              · rw [if_pos free] at moved
                cases moved
                exact inv.lock here free
              · rw [if_neg free] at moved
                split at moved
                · cases moved
                  exact inv.backOff here
                · cases moved
      | validating checked rest =>
          rw [here] at moved
          cases rest with
          | nil =>
              cases moved
              split
              · exact inv.commit here
              · exact inv.giveUp here
          | cons a rest =>
              cases moved
              by_cases fine : (s.rows a.row).lock = none ∧ (s.rows a.row).tid = a.tid
              · rw [if_pos fine]
                exact inv.check here fine.1 fine.2
              · rw [if_neg fine]
                exact inv.giveUp here
      | writing done rest =>
          rw [here] at moved
          cases rest with
          | nil =>
              cases moved
              exact inv.finish here
          | cons a rest =>
              cases moved
              exact inv.write here
      | releasing held again =>
          rw [here] at moved
          cases held with
          | nil =>
              cases moved
              exact inv.released here
          | cons a held =>
              cases moved
              exact inv.release here
      | committed =>
          rw [here] at moved
          cases moved
      | aborted =>
          rw [here] at moved
          cases moved

theorem inv_run {events : List Event}
    (run : Run (step noWait preAbort) free (start data tids) events s) : Inv data s :=
  run_invariant (Inv data) (inv_start data tids) (fun _ _ _ inv _ stepped => inv.step stepped) run

/-- Past the validation: its writes are done or will be. -/
def Txn.Decided (x : Txn) : Prop :=
  match x.stage with
  | .writing _ _ => True
  | .committed => True
  | _ => False

theorem Txn.Decided.settled (decided : x.Decided) : x.settled = x.accesses := by
  unfold Txn.Decided at decided
  unfold Txn.settled
  cases here : x.stage <;> rw [here] at decided <;> exact decided.elim

theorem Txn.Decided.queued (decided : x.Decided) : x.Queued := by
  unfold Txn.Decided at decided
  unfold Txn.Queued
  cases here : x.stage <;> rw [here] at decided <;> first | exact decided.elim | trivial

-- Where a row's writes have all been made, they are the ones decided on.
theorem Txn.Fits.commits {r : RowId} (fits : x.Fits)
    (made : ∀ a ∈ x.claims, a.row = r → a ∈ x.written) : x.commits r = x.wrote r := by
  unfold Txn.Fits at fits
  unfold Txn.claims Txn.written at made
  unfold Txn.commits Txn.wrote Txn.written
  cases here : x.stage <;> rw [here] at fits made <;> try rfl
  case writing done rest =>
    obtain ⟨whole, distinct, _⟩ := fits
    dsimp only at made ⊢
    have parts : (done.map Access.row ++ rest.map Access.row).Nodup := by
      rw [← List.map_append, whole]
      exact distinct
    have none_ : rest.find? (·.row = r) = none := by
      refine List.find?_eq_none.mpr fun a member => ?_
      have apart : a.row ≠ r := by
        intro same
        have early := made a (whole ▸ List.mem_append_right done member) same
        exact (List.nodup_append.mp parts).2.2 a.row (List.mem_map_of_mem early) a.row
          (List.mem_map_of_mem member) rfl
      simpa using apart
    rw [← whole, List.find?_append, none_, Option.or_none]

/-- Silo commits in one order: each transaction that has passed its validation read every row as
the decided ones before it leave it, one at a time, and a row that is not locked is as all of
them leave it. -/
theorem commits_serializable {events : List Event}
    (run : Run (step noWait preAbort) free (start data tids) events s) :
    s.order.Nodup ∧
    (∀ t, (s.txns t).Decided → ∃ rest, s.order = (s.txns t).before ++ t :: rest ∧
      ∀ a ∈ (s.txns t).accesses, a.copy = serial data (fun u r => (s.txns u).commits r)
        (s.txns t).before a.row) ∧
    ∀ r, (s.rows r).lock = none → (s.rows r).data = serial data (fun u r => (s.txns u).commits r)
      s.order r := by
  have inv := inv_run run
  refine ⟨inv.nodup, fun t decided => ?_, fun r free => ?_⟩
  · have one := inv.one t
    obtain ⟨rest, shape⟩ := one.split (one.queued decided.queued)
    refine ⟨rest, shape, fun a read => ?_⟩
    have settled : a ∈ (s.txns t).settled := decided.settled ▸ read
    rw [one.seen a settled]
    apply serial_congr
    intro u ahead
    exact ((inv.one u).fits.commits fun c claimed same => one.ahead u ahead c claimed a settled
      same).symm
  · rw [inv.value]
    apply serial_congr
    intro u _
    refine ((inv.one u).fits.commits fun c claimed same => ?_).symm
    rcases (inv.one u).fits.claimed claimed with done | holds
    · exact done
    · have locked := (inv.one u).locks c holds
      rw [same, free] at locked
      cases locked

-- Of the first two, each reads the row that the other writes, and the first to commit makes the
-- other abort; the third reads what the first has written and writes it anew.
def writeSkew : List Event :=
  List.flatten [[.access 1 ⟨0, 0⟩ none, .access 1 ⟨1, 0⟩ (some 7), .access 2 ⟨1, 0⟩ none,
    .access 2 ⟨0, 0⟩ (some 9)], List.replicate 10 (.advance 1), List.replicate 3 (.advance 2),
    [.access 3 ⟨1, 0⟩ (some 8)], List.replicate 8 (.advance 3)]

theorem write_skew_serializable :
    ∃ s, Run (step true true) free (start (fun _ => 0) fun _ => 0) writeSkew s ∧
    (s.txns 2).stage = .aborted ∧ (s.txns 3).before = [1] ∧ s.order.Nodup ∧
    (∀ t ∈ [1, 3], (s.txns t).stage = .committed ∧
      ∃ rest, s.order = (s.txns t).before ++ t :: rest ∧
      ∀ a ∈ (s.txns t).accesses, a.copy = serial (fun _ => 0) (fun u r => (s.txns u).commits r)
        (s.txns t).before a.row) ∧
    8 = serial (fun _ => 0) (fun u r => (s.txns u).commits r) s.order ⟨1, 0⟩ := by
  have replayed : (replay (step true true) free writeSkew (start (fun _ => 0) fun _ => 0)).map
    (fun s => ((s.txns 1).stage, (s.txns 2).stage, (s.txns 3).stage, (s.txns 3).before,
      s.rows ⟨1, 0⟩)) =
      some (.committed, .aborted, .committed, [1], ⟨2, none, 8⟩) := by decide +kernel
  obtain ⟨s, same, facts⟩ := Option.map_eq_some_iff.mp replayed
  simp only [Prod.mk.injEq] at facts
  obtain ⟨first, second, third, before, row⟩ := facts
  have run := run_of_replay _ same
  obtain ⟨once, decided, settled⟩ := commits_serializable run
  have committed {t : Nat} (stage : (s.txns t).stage = .committed) : (s.txns t).Decided := by
    unfold Txn.Decided
    rw [stage]
    trivial
  have value := settled ⟨1, 0⟩ (congrArg Row.lock row)
  rw [row] at value
  refine ⟨s, run, second, before, once, fun t member => ?_, value⟩
  rcases List.mem_cons.mp member with rfl | last
  · exact ⟨first, decided 1 (committed first)⟩
  · cases List.mem_singleton.mp last
    exact ⟨third, decided 3 (committed third)⟩

end SetBench.Silo
