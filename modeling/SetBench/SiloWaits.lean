import Mathlib
import SetBench.SiloRuns

/-! Silo without no-wait: who waits for whom. Rows are locked in primary key order, and no order is
kept between rows of one key. -/
namespace SetBench.Silo

open Transition

variable {data : RowId → Nat} {tids : Nat → Nat} {s s' : State} {x : Txn} {t u v : Nat}
    {a b : Access}
    {held rest done checked : List Access}
  {noWait preAbort : Bool}

/-- `t` is at the lock of a row that `u` has locked. -/
def WaitsFor (s : State) (t u : Nat) : Prop :=
  ∃ held a rest, (s.txns t).stage = .locking held (a :: rest) ∧ (s.rows a.row).lock = some u

theorem setTxn_self : (s.setTxn t x).txns t = x := Function.update_self ..

theorem setTxn_other (apart : u ≠ t) : (s.setTxn t x).txns u = s.txns u :=
  Function.update_of_ne apart ..

theorem setRow_self {r : RowId} {row : Row} : (s.setRow r row).rows r = row :=
  Function.update_self ..

theorem setRow_other {r i : RowId} {row : Row} (apart : i ≠ r) :
    (s.setRow r row).rows i = s.rows i := Function.update_of_ne apart ..

def Owned (s : State) : Prop := ∀ r u, (s.rows r).lock = some u → ∃ c ∈ (s.txns u).holds, c.row = r

theorem Owned.stage (owned : Owned s) (holds : ∀ c ∈ (s.txns t).holds, c ∈ x.holds) :
    Owned (s.setTxn t x) := by
  intro r u locked
  obtain ⟨c, member, same⟩ := owned r u locked
  refine ⟨c, ?_, same⟩
  by_cases own : u = t
  · subst own
    rw [setTxn_self]
    exact holds c member
  · rw [setTxn_other own]
    exact member

theorem Owned.nothing (owned : Owned s) (none_ : (s.txns t).holds = []) : Owned (s.setTxn t x) :=
  owned.stage fun _ member => absurd (none_ ▸ member) List.not_mem_nil

theorem Owned.lock (owned : Owned s) (kept : ∀ c ∈ (s.txns t).holds, c ∈ x.holds)
    (new : a ∈ x.holds) :
    Owned ((s.lock t a.row).setTxn t x) := by
  intro r u locked
  have locked' : ((s.setRow a.row { s.rows a.row with lock := some t }).rows r).lock = some u :=
    locked
  by_cases here : r = a.row
  · subst here
    rw [setRow_self] at locked'
    cases Option.some.inj locked'
    rw [setTxn_self]
    exact ⟨a, new, rfl⟩
  · rw [setRow_other here] at locked'
    exact owned.stage kept r u locked'

-- The row that a transaction lets go of is the first that it held.
theorem Owned.let_go (owned : Owned s) {row : Row} (free : row.lock = none)
    (kept : ∀ c ∈ (s.txns t).holds, c = a ∨ c ∈ x.holds) :
    Owned ((s.setRow a.row row).setTxn t x) := by
  intro r u locked
  have locked' : ((s.setRow a.row row).rows r).lock = some u := locked
  by_cases here : r = a.row
  · subst here
    rw [setRow_self, free] at locked'
    cases locked'
  · rw [setRow_other here] at locked'
    obtain ⟨c, member, same⟩ := owned r u locked'
    refine ⟨c, ?_, same⟩
    by_cases own : u = t
    · subst own
      rw [setTxn_self]
      exact (kept c member).resolve_left fun first => here (same ▸ congrArg Access.row first)
    · rw [setTxn_other own]
      exact member

theorem Owned.step (owned : Owned s) (inv : Inv data s) {event : Event}
    (stepped : step noWait preAbort s event = some s') : Owned s' := by
  cases event with
  | access t row write =>
      rw [Silo.step] at stepped
      split at stepped
      · rename_i fine
        cases stepped
        apply owned.nothing
        simp only [Txn.holds, fine.1]
      · cases stepped
  | advance t =>
      have moved : advance noWait preAbort s t = some s' := stepped
      unfold advance at moved
      dsimp only at moved
      have fits := (inv.one t).fits
      cases here : (s.txns t).stage with
      | running =>
          rw [here] at moved
          cases moved
          apply owned.nothing
          simp only [Txn.holds, here]
      | checking rest =>
          rw [here] at moved
          have none_ : (s.txns t).holds = [] := by simp only [Txn.holds, here]
          cases rest <;> cases moved <;> exact owned.nothing none_
      | locking held rest =>
          rw [here] at moved
          simp only [Txn.Fits, here] at fits
          have held_now : (s.txns t).holds = held := by simp only [Txn.holds, here]
          cases rest with
          | nil =>
              cases moved
              have whole : held = (s.txns t).writeSet := by rw [← fits.1, List.append_nil]
              have all : ∀ c ∈ (s.txns t).holds, c ∈ (s.txns t).writeSet :=
                fun c member => whole ▸ held_now ▸ member
              have placed : Owned (s.setTxn t
                { s.txns t with stage := .validating [] (s.txns t).readSet, before := s.order }) :=
                owned.stage all
              exact placed
          | cons a rest =>
              dsimp only at moved
              by_cases free : (s.rows a.row).lock = none
              · rw [if_pos free] at moved
                cases moved
                have kept : ∀ c ∈ (s.txns t).holds, c ∈ held ++ [a] :=
                  fun c member => List.mem_append_left _ (held_now ▸ member)
                have new : a ∈ held ++ [a] := List.mem_append_right _ List.mem_cons_self
                split
                · exact owned.lock kept new
                · exact owned.lock kept new
              · rw [if_neg free] at moved
                split at moved
                · cases moved
                  exact owned.stage fun c member => held_now ▸ member
                · cases moved
      | validating checked rest =>
          rw [here] at moved
          have held_now : (s.txns t).holds = (s.txns t).writeSet := by simp only [Txn.holds, here]
          have all : ∀ c ∈ (s.txns t).holds, c ∈ (s.txns t).writeSet :=
            fun c member => held_now ▸ member
          cases rest with
          | nil =>
              cases moved
              split
              · exact owned.stage all
              · exact owned.stage all
          | cons a rest =>
              cases moved
              split
              · exact owned.stage all
              · exact owned.stage all
      | writing done rest =>
          rw [here] at moved
          have held_now : (s.txns t).holds = rest := by simp only [Txn.holds, here]
          cases rest with
          | nil =>
              cases moved
              exact owned.nothing held_now
          | cons a rest =>
              cases moved
              exact owned.let_go rfl fun c member => List.mem_cons.mp (held_now ▸ member)
      | releasing held again =>
          rw [here] at moved
          have held_now : (s.txns t).holds = held := by simp only [Txn.holds, here]
          cases held with
          | nil =>
              cases moved
              exact owned.nothing held_now
          | cons a held =>
              cases moved
              exact owned.let_go rfl fun c member => List.mem_cons.mp (held_now ▸ member)
      | committed =>
          rw [here] at moved
          cases moved
      | aborted =>
          rw [here] at moved
          cases moved

instance : Std.Total fun a b : Access => a.row.primaryKey ≤ b.row.primaryKey :=
  ⟨fun a b => Nat.le_total a.row.primaryKey b.row.primaryKey⟩

instance : IsTrans Access fun a b => a.row.primaryKey ≤ b.row.primaryKey :=
  ⟨fun _ _ _ => Nat.le_trans⟩

theorem writeSet_sorted (x : Txn) :
    x.writeSet.Pairwise fun a b => a.row.primaryKey ≤ b.row.primaryKey :=
  List.pairwise_insertionSort ..

-- The one waited for has locked that row, and the next it is to lock has no smaller key.
theorem waits_rise (inv : Inv data s) (owned : Owned s) (waits : WaitsFor s t u)
    (here : (s.txns t).stage = .locking held (a :: rest)) {held' rest' : List Access}
    (there : (s.txns u).stage = .locking held' (b :: rest')) :
    a.row.primaryKey ≤ b.row.primaryKey ∧ ∃ c ∈ held', c.row = a.row := by
  obtain ⟨_, _, _, same, locked⟩ := waits
  rw [here] at same
  cases same
  obtain ⟨c, member, at_a⟩ := owned _ _ locked
  simp only [Txn.holds, there] at member
  have fits := (inv.one u).fits
  simp only [Txn.Fits, there] at fits
  have sorted := fits.1 ▸ writeSet_sorted (s.txns u)
  have le := (List.pairwise_append.mp sorted).2.2 c member b List.mem_cons_self
  exact ⟨at_a ▸ le, c, member, at_a⟩

theorem chain_rises (inv : Inv data s) (owned : Owned s)
    (chain : Relation.ReflTransGen (WaitsFor s) t u)
    (here : (s.txns t).stage = .locking held (a :: rest)) :
    ∀ {held' rest' : List Access} {b : Access}, (s.txns u).stage = .locking held' (b :: rest') →
      a.row.primaryKey ≤ b.row.primaryKey := by
  induction chain with
  | refl =>
      intro _ _ _ there
      rw [here] at there
      cases there
      exact Nat.le_refl _
  | tail _ waits ih =>
      intro _ _ _ there
      obtain ⟨_, c, _, middle, locked⟩ := waits
      exact (ih middle).trans (waits_rise inv owned ⟨_, c, _, middle, locked⟩ middle there).1

/-- Where a lock is waited for, rows being locked in primary key order: each transaction of a
circle is at a row of the same primary key as one it has locked. So where the key tells its rows
apart, it waits for itself, as it writes a row twice. -/
theorem waits_in_circle {events : List Event}
    (run : Run (step false preAbort) free (start data tids) events s)
    (circle : Relation.TransGen (WaitsFor s) t t) :
    ∃ held a rest, (s.txns t).stage = .locking held (a :: rest) ∧
      (∃ c ∈ held, c.row.primaryKey = a.row.primaryKey) ∧
      ((∀ c ∈ held, c.row.primaryKey = a.row.primaryKey → c.row = a.row) → WaitsFor s t t) := by
  have inv := inv_run run
  have owned : Owned s := by
    have both := run_invariant (fun s => Inv data s ∧ Owned s)
      ⟨inv_start data tids, fun r u locked => by cases locked⟩
      (fun _ _ _ both _ stepped => ⟨both.1.step stepped, both.2.step both.1 stepped⟩) run
    exact both.2
  obtain ⟨u, chain, last⟩ := Relation.TransGen.tail'_iff.mp circle
  obtain ⟨held, a, rest, here⟩ : ∃ held a rest, (s.txns t).stage = .locking held (a :: rest) := by
    rcases Relation.TransGen.head'_iff.mp circle with ⟨_, ⟨held, a, rest, here, _⟩, _⟩
    exact ⟨held, a, rest, here⟩
  obtain ⟨before, b, later, there, locked⟩ := last
  -- Around the circle the keys do not fall, so they are all one.
  have up := chain_rises inv owned chain here there
  obtain ⟨back, c, member, at_b⟩ :=
    waits_rise inv owned ⟨before, b, later, there, locked⟩ there here
  have same : c.row.primaryKey = a.row.primaryKey := by
    rw [at_b]
    exact Nat.le_antisymm back up
  refine ⟨held, a, rest, here, ⟨c, member, same⟩, fun apart => ⟨held, a, rest, here, ?_⟩⟩
  have own := (inv.one t).locks c (by simp only [Txn.holds, here]; exact member)
  rwa [apart c member same] at own

-- Two rows of one key, which the two transactions access in opposite orders.
def oneKey : List Event :=
  [.access 1 ⟨5, 0⟩ (some 7), .access 1 ⟨5, 1⟩ (some 7), .access 2 ⟨5, 1⟩ (some 9),
    .access 2 ⟨5, 0⟩ (some 9), .advance 1, .advance 1, .advance 2, .advance 2]

theorem one_key_waits :
    ∃ s, Run (step false false) free (start (fun _ => 0) fun _ => 0) oneKey s ∧
    WaitsFor s 1 2 ∧ WaitsFor s 2 1 ∧
    ∃ held a rest, (s.txns 1).stage = .locking held (a :: rest) ∧
      (∃ c ∈ held, c.row.primaryKey = a.row.primaryKey) ∧
      ((∀ c ∈ held, c.row.primaryKey = a.row.primaryKey → c.row = a.row) → WaitsFor s 1 1) := by
  have replayed : (replay (step false false) free oneKey (start (fun _ => 0) fun _ => 0)).map
      (fun s => ((s.txns 1).stage, (s.txns 2).stage, (s.rows ⟨5, 0⟩).lock, (s.rows ⟨5, 1⟩).lock)) =
      some (.locking [⟨⟨5, 0⟩, 0, 0, some 7⟩] [⟨⟨5, 1⟩, 0, 0, some 7⟩],
        .locking [⟨⟨5, 1⟩, 0, 0, some 9⟩] [⟨⟨5, 0⟩, 0, 0, some 9⟩], some 1, some 2) := by
    decide +kernel
  obtain ⟨s, same, facts⟩ := Option.map_eq_some_iff.mp replayed
  simp only [Prod.mk.injEq] at facts
  obtain ⟨one, two, first, second⟩ := facts
  have run := run_of_replay _ same
  have waits : WaitsFor s 1 2 := ⟨_, _, _, one, second⟩
  have back : WaitsFor s 2 1 := ⟨_, _, _, two, first⟩
  exact ⟨s, run, waits, back, waits_in_circle run (.tail (.single waits) back)⟩

end SetBench.Silo
