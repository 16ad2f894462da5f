import Mathlib
import SetBench.RowLockOk

/-! Runs of any number of transactions over any number of rows. -/
namespace SetBench.RowLock

open Transition

variable {alg : Alg} {ts : Nat → Nat} {s s' : State} {txn row : Nat} {type : LockType}

-- Two accesses of different transactions that do not commute.
def Clash (a b : Access) : Prop := a.row = b.row ∧ conflictLock a.type b.type = true ∧ a.txn ≠ b.txn

-- The first of two accesses that clash is of a transaction that began to end before the other did.
def Ahead (ended : List Nat) (a b : Access) : Prop :=
  Clash a b → a.txn ∈ ended ∧ (b.txn ∈ ended → ended.idxOf a.txn < ended.idxOf b.txn)

structure Inv (alg : Alg) (ts : Nat → Nat) (s : State) : Prop where
  locks : ∀ row, LockOk alg ts (s.lock row)
  queued : ∀ row t, (s.lock row).Queues t → (∃ type, s.pc t = .waiting row type) ∨
    s.pc t = .quitting row
  unready : ∀ row t, (s.lock row).Queues t → s.lockReady t = false
  granted : ∀ t row type, s.pc t = .waiting row type → s.lockReady t = true →
    ⟨type, t⟩ ∈ (s.lock row).owners
  waiting : ∀ t row type, s.pc t = .waiting row type → s.lockReady t = false →
    ⟨type, t⟩ ∈ (s.lock row).waiters
  quitting : ∀ t row, s.pc t = .quitting row → (s.lock row).Holds t ∨ (s.lock row).Queues t
  ended : ∀ t, t ∈ s.ended ↔ s.pc t = .ending ∨ ∃ row, s.pc t = .quitting row
  kept : ∀ a ∈ s.accesses, a.txn ∈ s.ended ∨ ⟨a.type, a.txn⟩ ∈ (s.lock a.row).owners
  order : s.accesses.Pairwise (Ahead s.ended)

theorem inv_start : Inv alg ts start where
  locks _ := ⟨⟨rfl, rfl, fun _ => rfl, nofun, nofun, nofun, List.nodup_nil,
    fun _ => List.Pairwise.nil, nofun, fun _ => rfl⟩, nofun⟩
  queued _ _ := fun ⟨_, member, _⟩ => absurd member List.not_mem_nil
  unready _ _ _ := rfl
  granted _ _ _ := nofun
  waiting _ _ _ := nofun
  quitting _ _ := nofun
  ended _ := ⟨nofun, fun either => either.elim nofun fun ⟨_, no⟩ => absurd no nofun⟩
  kept _ := nofun
  order := List.Pairwise.nil

theorem Ahead.extend {ended : List Nat} {a b : Access} (ahead : Ahead ended a b) (t : Nat) :
    Ahead (ended ++ [t]) a b := by
  intro clash
  obtain ⟨first, later⟩ := ahead clash
  refine ⟨List.mem_append_left _ first, fun member => ?_⟩
  rw [List.idxOf_append_of_mem first]
  by_cases old : b.txn ∈ ended
  · rw [List.idxOf_append_of_mem old]
    exact later old
  · rw [List.idxOf_append_of_notMem old]
    exact Nat.lt_of_lt_of_le (List.idxOf_lt_length_of_mem first) (Nat.le_add_right _ _)

theorem LockOk.owners_agree {lock : Lock} (ok : LockOk alg ts lock) {a b : LockEntry}
    (first : a ∈ lock.owners) (second : b ∈ lock.owners) (apart : a.txn ≠ b.txn) :
    conflictLock a.type b.type = false := by
  rw [ok.mid.typed a first, ok.mid.typed b second]
  cases type : lock.lockType with
  | none => rfl
  | sh => rfl
  | ex =>
      have one := ok.mid.single type
      cases owners : lock.owners with
      | nil =>
          rw [owners] at first
          cases first
      | cons o rest =>
          rw [owners, List.length_cons] at one
          have empty : rest = [] := List.length_eq_zero_iff.mp (by omega)
          rw [owners, empty] at first second
          rw [List.mem_singleton.mp first, List.mem_singleton.mp second] at apart
          exact absurd rfl apart

-- A new access: every earlier one that clashes is of a transaction that has begun to end.
theorem fresh_access {ended : List Nat} {accesses : List Access} {lock : Nat → Lock}
    (locks : ∀ row, LockOk alg ts (lock row))
    (kept : ∀ a ∈ accesses, a.txn ∈ ended ∨ ⟨a.type, a.txn⟩ ∈ (lock a.row).owners)
    (order : accesses.Pairwise (Ahead ended)) (running : txn ∉ ended)
    (owner : ⟨type, txn⟩ ∈ (lock row).owners) :
    List.Pairwise (Ahead ended) (accesses ++ [⟨txn, row, type⟩]) := by
  refine List.pairwise_append.mpr ⟨order, List.pairwise_singleton _ _, fun a member b single => ?_⟩
  cases List.mem_singleton.mp single
  rintro ⟨same, conflict, apart⟩
  refine ⟨?_, fun no => absurd no running⟩
  rcases kept a member with done | held
  · exact done
  · have same_row : a.row = row := same
    rw [same_row] at held
    have agree := (locks row).owners_agree held owner apart
    exact absurd (agree.symm.trans conflict) Bool.false_ne_true

theorem Inv.running_free (inv : Inv alg ts s) (running : s.pc txn = .running) (row : Nat) :
    ¬ (s.lock row).Queues txn := by
  intro queued
  rcases inv.queued row txn queued with ⟨type, place⟩ | place
  · exact absurd (running.symm.trans place) Pc.noConfusion
  · exact absurd (running.symm.trans place) Pc.noConfusion

theorem not_ending {pc : Pc} (running : pc = .running ∨ ∃ row type, pc = .waiting row type) :
    ¬ (pc = .ending ∨ ∃ row, pc = .quitting row) := by
  rintro (rfl | ⟨row, rfl⟩) <;> rcases running with no | ⟨_, _, no⟩ <;> cases no

theorem Inv.not_ended (inv : Inv alg ts s)
    (running : s.pc txn = .running ∨ ∃ row type, s.pc txn = .waiting row type) : txn ∉ s.ended :=
  fun member => not_ending running ((inv.ended txn).mp member)

theorem update_other {pcs : Nat → Pc} {pc place : Pc} {t : Nat}
    (at_t : Function.update pcs txn pc t = place) (apart : pc ≠ place) :
    t ≠ txn ∧ pcs t = place := by
  by_cases own : t = txn
  · rw [own, Function.update_self] at at_t
    exact absurd at_t apart
  · rw [Function.update_of_ne own] at at_t
    exact ⟨own, at_t⟩

-- A transaction that is in no queue begins to end, or gives up its place in one.
theorem Inv.goto_end (inv : Inv alg ts s) {pc : Pc}
    (ends : pc = .ending ∨ ∃ row, pc = .quitting row)
    (queued : ∀ row, (s.lock row).Queues txn → pc = .quitting row)
    (quits : ∀ row, pc = .quitting row → (s.lock row).Holds txn ∨ (s.lock row).Queues txn) :
    Inv alg ts { s.goto txn pc with ended := s.ended ++ [txn] } where
  locks := inv.locks
  queued row t member := by
    by_cases own : t = txn
    · subst own
      exact .inr ((Function.update_self ..).trans (queued row member))
    · simp only [State.goto, Function.update_of_ne own]
      exact inv.queued row t member
  unready := inv.unready
  granted t row type place := by
    have not_waiting : pc ≠ .waiting row type := by
      rcases ends with rfl | ⟨_, rfl⟩ <;> exact Pc.noConfusion
    exact inv.granted t row type (update_other place not_waiting).2
  waiting t row type place := by
    have not_waiting : pc ≠ .waiting row type := by
      rcases ends with rfl | ⟨_, rfl⟩ <;> exact Pc.noConfusion
    exact inv.waiting t row type (update_other place not_waiting).2
  quitting t row place := by
    by_cases own : t = txn
    · subst own
      exact quits row ((Function.update_self ..).symm.trans place)
    · exact inv.quitting t row ((Function.update_of_ne own ..).symm.trans place)
  ended t := by
    rw [List.mem_append, List.mem_singleton]
    by_cases own : t = txn
    · subst own
      simp only [State.goto, Function.update_self]
      exact iff_of_true (.inr trivial) ends
    · simp only [State.goto, Function.update_of_ne own]
      exact (or_iff_left own).trans (inv.ended t)
  kept a member := (inv.kept a member).imp_left (List.mem_append_left _)
  order := inv.order.imp fun ahead => ahead.extend txn

theorem setLock_self (s : State) (row : Nat) (lock : Lock) :
    (s.setLock row lock).lock row = lock := Function.update_self ..

theorem setLock_other {r : Nat} (s : State) (lock : Lock) (apart : r ≠ row) :
    (s.setLock row lock).lock r = s.lock r :=
  Function.update_of_ne apart ..

theorem Inv.get (inv : Inv alg ts s) (running : s.pc txn = .running) (real : type ≠ .none)
    (free : ¬ (s.lock row).Holds txn) (stepped : step alg ts s (.get txn row type) = some s') :
    Inv alg ts s' := by
  have unqueued := inv.running_free running
  have absent : ∀ o ∈ (s.lock row).owners ++ (s.lock row).waiters, o.txn ≠ txn := by
    intro o member same
    rcases List.mem_append.mp member with owner | waiter
    · exact free ⟨o, owner, same⟩
    · exact unqueued row ⟨o, waiter, same⟩
  have got := lockGet_cases (inv.locks row) real absent
  simp only [step, if_pos (⟨running, real, free⟩ : s.pc txn = .running ∧ type ≠ .none ∧
    ¬ (s.lock row).Holds txn)] at stepped
  revert got stepped
  generalize lockGet alg ts (s.lock row) type txn = result
  intro got stepped
  cases got with
  | abort =>
      cases stepped
      have same : s.setLock row (s.lock row) = s := by
        unfold State.setLock
        rw [Function.update_eq_self]
      rw [same]
      exact inv.goto_end (.inl rfl) (fun r queued => absurd queued (unqueued r)) fun _ => nofun
  | @ok after ids kept owners waiters joined =>
      cases stepped
      have queues (r t : Nat) : ((s.setLock row after).lock r).Queues t ↔ (s.lock r).Queues t := by
        by_cases here : r = row
        · rw [here, setLock_self]
          unfold Lock.Queues
          rw [waiters]
        · rw [setLock_other s after here]
      have grows (r : Nat) (e : LockEntry) (member : e ∈ (s.lock r).owners) :
        e ∈ ((s.setLock row after).lock r).owners := by
        by_cases here : r = row
        · rw [here] at member
          rw [here, setLock_self, owners]
          exact List.mem_cons_of_mem _ member
        · rwa [setLock_other s after here]
      have locks (r : Nat) : LockOk alg ts ((s.setLock row after).lock r) := by
        by_cases here : r = row
        · rw [here, setLock_self]
          exact kept
        · rw [setLock_other s after here]
          exact inv.locks r
      have mine : ⟨type, txn⟩ ∈ ((s.setLock row after).lock row).owners := by
        rw [setLock_self, owners]
        exact List.mem_cons_self
      have kept' : ∀ a ∈ s.accesses, a.txn ∈ s.ended ∨
        ⟨a.type, a.txn⟩ ∈ ((s.setLock row after).lock a.row).owners :=
        fun a member => (inv.kept a member).imp_right (grows _ _)
      refine ⟨locks, fun r t member => inv.queued r t ((queues r t).mp member),
        fun r t member => inv.unready r t ((queues r t).mp member),
        fun t r type' place ready => grows r _ (inv.granted t r type' place ready), ?_, ?_,
          inv.ended, ?_, ?_⟩
      · intro t r type' place unready
        have waiter := inv.waiting t r type' place unready
        by_cases here : r = row
        · rw [here] at waiter
          show _ ∈ ((s.setLock row after).lock r).waiters
          rw [here, setLock_self, waiters]
          exact waiter
        · show _ ∈ ((s.setLock row after).lock r).waiters
          rwa [setLock_other s after here]
      · intro t r place
        rcases inv.quitting t r place with ⟨e, owner, same⟩ | queued
        · exact .inl ⟨e, grows r e owner, same⟩
        · exact .inr ((queues r t).mpr queued)
      · intro a member
        rcases List.mem_append.mp member with old | new
        · exact kept' a old
        · rw [List.mem_singleton.mp new]
          exact .inr mine
      · exact fresh_access locks kept' inv.order (inv.not_ended (.inl running)) mine
  | @wait after ids kept owners waiters =>
      cases stepped
      have queues (r t : Nat) (queued : ((s.setLock row after).lock r).Queues t) :
        (t = txn ∧ r = row) ∨ (t ≠ txn ∧ (s.lock r).Queues t) := by
        by_cases here : r = row
        · rw [here, setLock_self] at queued
          obtain ⟨e, member, same⟩ := queued
          rcases List.mem_cons.mp (waiters.mem_iff.mp member) with rfl | old
          · exact .inl ⟨same.symm, here⟩
          · refine .inr ⟨?_, here ▸ ⟨e, old, same⟩⟩
            rintro rfl
            exact unqueued row ⟨e, old, same⟩
        · rw [setLock_other s after here] at queued
          refine .inr ⟨?_, queued⟩
          rintro rfl
          exact unqueued r queued
      have old_owners (r : Nat) : ((s.setLock row after).lock r).owners = (s.lock r).owners := by
        by_cases here : r = row
        · rw [here, setLock_self, owners]
        · rw [setLock_other s after here]
      have old_waiters (r : Nat) (e : LockEntry) (member : e ∈ (s.lock r).waiters) :
        e ∈ ((s.setLock row after).lock r).waiters := by
        by_cases here : r = row
        · rw [here] at member
          rw [here, setLock_self]
          exact waiters.mem_iff.mpr (List.mem_cons_of_mem _ member)
        · rwa [setLock_other s after here]
      constructor
      case locks =>
        intro r
        show LockOk alg ts ((s.setLock row after).lock r)
        by_cases here : r = row
        · rw [here, setLock_self]
          exact kept
        · rw [setLock_other s after here]
          exact inv.locks r
      case queued =>
        intro r t queued
        rcases queues r t queued with ⟨rfl, rfl⟩ | ⟨other, old⟩
        · exact .inl ⟨type, Function.update_self ..⟩
        · simp only [State.goto, State.setLock, Function.update_of_ne other]
          exact inv.queued r t old
      case unready =>
        intro r t queued
        rcases queues r t queued with ⟨rfl, rfl⟩ | ⟨other, old⟩
        · exact Function.update_self ..
        · exact (Function.update_of_ne other ..).trans (inv.unready r t old)
      case granted =>
        intro t r type' place ready
        by_cases own : t = txn
        · subst own
          exact absurd ((Function.update_self ..).symm.trans ready) Bool.false_ne_true
        · simp only [State.goto, State.setLock, Function.update_of_ne own] at place ready
          show _ ∈ ((s.setLock row after).lock r).owners
          rw [old_owners]
          exact inv.granted t r type' place ready
      case waiting =>
        intro t r type' place unready
        by_cases own : t = txn
        · subst own
          simp only [State.goto, State.setLock, Function.update_self, Pc.waiting.injEq] at place
          obtain ⟨rfl, rfl⟩ := place
          show _ ∈ ((s.setLock row after).lock row).waiters
          rw [setLock_self]
          exact waiters.mem_iff.mpr List.mem_cons_self
        · simp only [State.goto, State.setLock, Function.update_of_ne own] at place unready
          exact old_waiters r _ (inv.waiting t r type' place unready)
      case quitting =>
        intro t r place
        by_cases own : t = txn
        · subst own
          simp only [State.goto, State.setLock, Function.update_self] at place
          cases place
        · simp only [State.goto, State.setLock, Function.update_of_ne own] at place
          rcases inv.quitting t r place with ⟨e, owner, same⟩ | ⟨e, waiter, same⟩
          · exact .inl ⟨e, (old_owners r).symm ▸ owner, same⟩
          · exact .inr ⟨e, old_waiters r e waiter, same⟩
      case ended =>
        intro t
        by_cases own : t = txn
        · subst own
          simp only [State.goto, State.setLock, Function.update_self]
          exact iff_of_false (inv.not_ended (.inl running)) (not_ending (.inr ⟨row, type, rfl⟩))
        · simp only [State.goto, State.setLock, Function.update_of_ne own]
          exact inv.ended t
      case kept =>
        exact fun a member => (inv.kept a member).imp_right fun owner =>
          (old_owners a.row).symm ▸ owner
      case order => exact inv.order

theorem Inv.ready (inv : Inv alg ts s) (place : s.pc txn = .waiting row type)
    (ready : s.lockReady txn = true) :
    Inv alg ts { s.goto txn .running with accesses := s.accesses ++ [⟨txn, row, type⟩] } := by
  have owner := inv.granted txn row type place ready
  constructor
  case locks => exact inv.locks
  case queued =>
    intro r t queued
    by_cases own : t = txn
    · subst own
      exact absurd ((inv.unready r t queued).symm.trans ready) Bool.false_ne_true
    · simp only [State.goto, Function.update_of_ne own]
      exact inv.queued r t queued
  case unready => exact inv.unready
  case granted =>
    exact fun t r type' at_t => inv.granted t r type' (update_other at_t Pc.noConfusion).2
  case waiting =>
    exact fun t r type' at_t => inv.waiting t r type' (update_other at_t Pc.noConfusion).2
  case quitting => exact fun t r at_t => inv.quitting t r (update_other at_t Pc.noConfusion).2
  case ended =>
    intro t
    by_cases own : t = txn
    · subst own
      simp only [State.goto, Function.update_self]
      exact iff_of_false (inv.not_ended (.inr ⟨row, type, place⟩)) (not_ending (.inl rfl))
    · simp only [State.goto, Function.update_of_ne own]
      exact inv.ended t
  case kept =>
    intro a member
    rcases List.mem_append.mp member with old | new
    · exact inv.kept a old
    · rw [List.mem_singleton.mp new]
      exact .inr owner
  case order =>
    exact fresh_access inv.locks inv.kept inv.order (inv.not_ended (.inr ⟨row, type, place⟩)) owner

theorem Inv.release (inv : Inv alg ts s)
    (place : (s.pc txn = .ending ∧ (s.lock row).Holds txn) ∨ s.pc txn = .quitting row)
    {lock : Lock} {ready : List Nat} (spec : Released alg ts (s.lock row) txn (lock, ready)) :
    Inv alg ts (((s.setLock row lock).setReady ready).goto txn .ending) := by
  obtain ⟨kept, owners, waiters, readied⟩ := spec
  have leaves : s.pc txn = .ending ∨ ∃ r, s.pc txn = .quitting r := place.imp And.left fun quits =>
    ⟨row, quits⟩
  have past : txn ∈ s.ended := (inv.ended txn).mpr leaves
  -- Nobody becomes ready but in the queue of this row.
  have unready_other {t r : Nat} (queued : (s.lock r).Queues t) (apart : r ≠ row) : t ∉ ready := by
    intro member
    have here := (readied t member).2
    rcases inv.queued r t queued with ⟨_, at_r⟩ | at_r <;> rcases inv.queued row t here
      with ⟨_, at_row⟩ | at_row <;>
      cases at_r.symm.trans at_row <;> exact apart rfl
  have queues {r t : Nat} (queued : ((s.setLock row lock).lock r).Queues t) : (s.lock r).Queues t ∧
    t ≠ txn ∧ t ∉ ready := by
    by_cases here : r = row
    · subst here
      rw [setLock_self] at queued
      obtain ⟨e, member, rfl⟩ := queued
      obtain ⟨old, other, unready⟩ := (waiters e).mp member
      exact ⟨⟨e, old, rfl⟩, other, unready⟩
    · rw [setLock_other s lock here] at queued
      refine ⟨queued, ?_, unready_other queued here⟩
      rintro rfl
      rcases inv.queued r t queued with ⟨_, at_r⟩ | at_r <;> rcases place with ⟨ends, _⟩ | quits
      · exact absurd (ends.symm.trans at_r) Pc.noConfusion
      · exact absurd (quits.symm.trans at_r) Pc.noConfusion
      · exact absurd (ends.symm.trans at_r) Pc.noConfusion
      · exact here (Pc.quitting.inj (at_r.symm.trans quits))
  have still_owner {r : Nat} {e : LockEntry} (owner : e ∈ (s.lock r).owners) (other : e.txn ≠ txn) :
      e ∈ ((s.setLock row lock).lock r).owners := by
    by_cases here : r = row
    · subst here
      rw [setLock_self]
      exact (owners e).mpr (.inl ⟨owner, other⟩)
    · rwa [setLock_other s lock here]
  have still_waiter {r : Nat} {e : LockEntry} (waiter : e ∈ (s.lock r).waiters)
    (other : e.txn ≠ txn) (unready : e.txn ∉ ready) :
      e ∈ ((s.setLock row lock).lock r).waiters := by
    by_cases here : r = row
    · subst here
      rw [setLock_self]
      exact (waiters e).mpr ⟨waiter, other, unready⟩
    · rwa [setLock_other s lock here]
  have promoted {r : Nat} {e : LockEntry} (waiter : e ∈ (s.lock r).waiters) (other : e.txn ≠ txn)
    (now : e.txn ∈ ready) :
      e ∈ ((s.setLock row lock).lock r).owners := by
    by_cases here : r = row
    · subst here
      rw [setLock_self]
      exact (owners e).mpr (.inr ⟨waiter, other, now⟩)
    · exact absurd now (unready_other ⟨e, waiter, rfl⟩ here)
  constructor
  case locks =>
    intro r
    show LockOk alg ts ((s.setLock row lock).lock r)
    by_cases here : r = row
    · subst here
      rw [setLock_self]
      exact kept
    · rw [setLock_other s lock here]
      exact inv.locks r
  case queued =>
    intro r t queued
    obtain ⟨old, other, _⟩ := queues queued
    simp only [State.goto, State.setReady, State.setLock, Function.update_of_ne other]
    exact inv.queued r t old
  case unready =>
    intro r t queued
    obtain ⟨old, _, unready⟩ := queues queued
    simp only [State.goto, State.setReady, State.setLock, inv.unready r t old, Bool.false_or,
      decide_eq_false_iff_not]
    exact unready
  case granted =>
    intro t r type' at_t now
    obtain ⟨other, at_t⟩ := update_other at_t Pc.noConfusion
    simp only [State.goto, State.setReady, State.setLock, Bool.or_eq_true, decide_eq_true_eq] at now
    by_cases before : s.lockReady t = true
    · exact still_owner (inv.granted t r type' at_t before) other
    · exact promoted (inv.waiting t r type' at_t (Bool.eq_false_iff.mpr before)) other
        (now.resolve_left before)
  case waiting =>
    intro t r type' at_t now
    obtain ⟨other, at_t⟩ := update_other at_t Pc.noConfusion
    simp only [State.goto, State.setReady, State.setLock, Bool.or_eq_false_iff,
      decide_eq_false_iff_not] at now
    exact still_waiter (inv.waiting t r type' at_t now.1) other now.2
  case quitting =>
    intro t r at_t
    obtain ⟨other, at_t⟩ := update_other at_t Pc.noConfusion
    rcases inv.quitting t r at_t with ⟨e, owner, rfl⟩ | ⟨e, waiter, rfl⟩
    · exact .inl ⟨e, still_owner owner other, rfl⟩
    · by_cases now : e.txn ∈ ready
      · exact .inl ⟨e, promoted waiter other now, rfl⟩
      · exact .inr ⟨e, still_waiter waiter other now, rfl⟩
  case ended =>
    intro t
    show t ∈ s.ended ↔ Function.update s.pc txn .ending t = .ending ∨
      ∃ r, Function.update s.pc txn .ending t = .quitting r
    by_cases own : t = txn
    · subst own
      simp only [Function.update_self]
      exact iff_of_true past (.inl trivial)
    · simp only [Function.update_of_ne own]
      exact inv.ended t
  case kept =>
    intro a member
    rcases inv.kept a member with done | owner
    · exact .inl done
    · by_cases own : a.txn = txn
      · exact .inl (own ▸ past)
      · exact .inr (still_owner owner own)
  case order => exact inv.order

theorem Inv.step (inv : Inv alg ts s) {event : Event} (stepped : step alg ts s event = some s') :
    Inv alg ts s' := by
  cases event with
  | get txn row type =>
      by_cases allowed : s.pc txn = .running ∧ type ≠ .none ∧ ¬ (s.lock row).Holds txn
      · exact inv.get allowed.1 allowed.2.1 allowed.2.2 stepped
      · rw [RowLock.step, if_neg allowed] at stepped
        cases stepped
  | ready txn =>
      simp only [RowLock.step] at stepped
      split at stepped
      · rename_i row type place
        split at stepped
        · rename_i ready
          cases stepped
          exact inv.ready place ready
        · cases stepped
      · cases stepped
  | quit txn =>
      simp only [RowLock.step] at stepped
      split at stepped
      · rename_i row type place
        split at stepped
        · rename_i allowed
          cases stepped
          have waiter := inv.waiting txn row type place allowed.2
          refine inv.goto_end (.inr ⟨row, rfl⟩) (fun r queued => ?_) fun r same => ?_
          · rcases inv.queued r txn queued with ⟨_, at_r⟩ | at_r
            · cases place.symm.trans at_r
              rfl
            · exact absurd (place.symm.trans at_r) Pc.noConfusion
          · cases same
            exact .inr ⟨_, waiter, rfl⟩
        · cases stepped
      · cases stepped
  | finish txn =>
      simp only [RowLock.step] at stepped
      split at stepped
      · rename_i running
        cases stepped
        exact inv.goto_end (.inl rfl) (fun r queued => absurd queued (inv.running_free running r))
          fun _ => nofun
      · cases stepped
  | release txn row =>
      simp only [RowLock.step] at stepped
      split at stepped
      · rename_i place
        cases stepped
        exact inv.release place (lockRelease_spec (inv.locks row)
          (place.elim (fun ends => .inl ends.2) (inv.quitting txn row)))
      · cases stepped

theorem inv_run {events : List Event} (run : Run (step alg ts) free start events s) :
    Inv alg ts s :=
  run_invariant (Inv alg ts) inv_start (fun _ _ _ inv _ stepped => inv.step stepped) run

theorem Mid.apart {lock : Lock} {ws : List LockEntry} (mid : Mid alg ts lock ws) {o w : LockEntry}
    (owner : o ∈ lock.owners) (waiter : w ∈ ws) : o.txn ≠ w.txn := by
  have distinct := mid.distinct
  rw [List.map_append] at distinct
  exact (List.nodup_append.mp distinct).2.2 _ (List.mem_map_of_mem owner) _
    (List.mem_map_of_mem waiter)

/-- Under every algorithm and in every run: owners of a row never conflict, the first waiter of
a row conflicts with an owner, and who waits is in the queue until it is told, and from then on
an owner. -/
theorem locks_exclusive {events : List Event} (run : Run (step alg ts) free start events s)
    (row : Nat) :
    (∀ a ∈ (s.lock row).owners, ∀ b ∈ (s.lock row).owners, a.txn ≠ b.txn →
      conflictLock a.type b.type = false) ∧
      (∀ w rest, (s.lock row).waiters = w :: rest → ∃ o ∈ (s.lock row).owners, conflictLock o.type
        w.type = true) ∧
      (∀ t type, s.pc t = .waiting row type →
        if s.lockReady t then ⟨type, t⟩ ∈ (s.lock row).owners ∧ ¬ (s.lock row).Queues t
        else ⟨type, t⟩ ∈ (s.lock row).waiters ∧ ¬ (s.lock row).Holds t) := by
  have inv := inv_run run
  have ok := inv.locks row
  refine ⟨fun a first b second => ok.owners_agree first second, fun w rest same => ?_,
    fun t type place => ?_⟩
  · have front := ok.front w rest same
    cases owners : (s.lock row).owners with
    | nil =>
        rw [ok.mid.free owners, conflict_none] at front
        cases front
    | cons o others =>
        refine ⟨o, List.mem_cons_self, ?_⟩
        rwa [ok.mid.typed o (owners ▸ List.mem_cons_self)]
  · split
    · rename_i ready
      have owner := inv.granted t row type place ready
      exact ⟨owner, fun ⟨w, waiter, same⟩ => ok.mid.apart owner waiter same.symm⟩
    · rename_i unready
      have waiter := inv.waiting t row type place (Bool.eq_false_iff.mpr unready)
      exact ⟨waiter, fun ⟨o, owner, same⟩ => ok.mid.apart owner waiter same⟩

/-- `t` waits for `u`: in the queue of a row that `u` owns, or behind `u` in the queue. -/
def WaitsFor (s : State) (t u : Nat) : Prop :=
  ∃ row, ((s.lock row).Queues t ∧ (s.lock row).Holds u) ∨
    ∃ a b : LockEntry, [a, b].Sublist (s.lock row).waiters ∧ a.txn = u ∧ b.txn = t

-- A retried transaction keeps its timestamp: only those with an entry in some lock are told
-- apart by it.
def AtWork (s : State) (t : Nat) : Prop := ∃ row, (s.lock row).Holds t ∨ (s.lock row).Queues t

theorem waits_older (inv : Inv .waitDie ts s) {t u : Nat} (waits : WaitsFor s t u) :
    ts t ≤ ts u ∧ t ≠ u ∧ AtWork s t ∧ AtWork s u := by
  obtain ⟨row, ⟨⟨w, waiter, rfl⟩, o, owner, rfl⟩ | ⟨a, b, sublist, rfl, rfl⟩⟩ := waits
  · have mid := (inv.locks row).mid
    exact ⟨mid.older rfl w waiter o owner, fun same => mid.apart owner waiter same.symm,
      ⟨row, .inr ⟨w, waiter, rfl⟩⟩, ⟨row, .inl ⟨o, owner, rfl⟩⟩⟩
  · have mid := (inv.locks row).mid
    have ordered := (mid.ordered rfl).sublist sublist
    have distinct : ([a, b].map LockEntry.txn).Nodup :=
      mid.distinct.sublist ((sublist.trans (List.sublist_append_right _ _)).map LockEntry.txn)
    have first : a ∈ (s.lock row).waiters := sublist.subset List.mem_cons_self
    have second : b ∈ (s.lock row).waiters :=
      sublist.subset (List.mem_cons_of_mem a List.mem_cons_self)
    refine ⟨(List.pairwise_cons.mp ordered).1 b (List.mem_singleton_self b), fun same => ?_,
      ⟨row, .inr ⟨b, second, rfl⟩⟩,
      ⟨row, .inr ⟨a, first, rfl⟩⟩⟩
    exact (List.nodup_cons.mp distinct).1 (List.mem_singleton.mpr same.symm)

/-- WAIT_DIE: no run comes to transactions that wait for each other in a cycle, over whatever rows,
if no two of those at work have one timestamp. -/
theorem wait_die_no_cycle {events : List Event} (run : Run (step .waitDie ts) free start events s)
    (stamps : Set.InjOn ts {t | AtWork s t}) (t : Nat) : ¬ Relation.TransGen (WaitsFor s) t t := by
  have inv : Inv .waitDie ts s := inv_run run
  have waits_less {u v : Nat} (waits : WaitsFor s u v) : ts u < ts v := by
    obtain ⟨le, apart, first, second⟩ := waits_older inv waits
    exact Nat.lt_of_le_of_ne le fun same => apart (stamps first second same)
  have rises {u v : Nat} (chain : Relation.TransGen (WaitsFor s) u v) : ts u < ts v := by
    induction chain with
    | single waits => exact waits_less waits
    | tail _ waits ih => exact ih.trans (waits_less waits)
  exact fun cycle => Nat.lt_irrefl _ (rises cycle)

/-- `t` precedes `u`: an access of `t` comes before one of `u` to the same row, and they do not
commute. -/
def Precedes (s : State) (t u : Nat) : Prop :=
  ∃ a b : Access, [a, b].Sublist s.accesses ∧ Clash a b ∧ a.txn = t ∧ b.txn = u

/-- Two-phase locking under NO_WAIT, WAIT_DIE and DL_DETECT: the precedence graph of every run
has no cycle. -/
theorem runs_serializable {events : List Event} (run : Run (step alg ts) free start events s)
    (t : Nat) :
    ¬ Relation.TransGen (Precedes s) t t := by
  have inv := inv_run run
  have ahead {u v : Nat} (edge : Precedes s u v) : u ∈ s.ended ∧
    (v ∈ s.ended → s.ended.idxOf u < s.ended.idxOf v) := by
    obtain ⟨a, b, sublist, clash, rfl, rfl⟩ := edge
    exact (List.pairwise_cons.mp (inv.order.sublist sublist)).1 b (List.mem_singleton_self b) clash
  have rises {u v : Nat} (chain : Relation.TransGen (Precedes s) u v) : u ∈ s.ended ∧
    (v ∈ s.ended → s.ended.idxOf u < s.ended.idxOf v) := by
    induction chain with
    | single edge => exact ahead edge
    | tail _ edge ih =>
        obtain ⟨middle, later⟩ := ahead edge
        exact ⟨ih.1, fun last => (ih.2 middle).trans (later last)⟩
  intro cycle
  obtain ⟨first, loop⟩ := rises cycle
  exact Nat.lt_irrefl _ (loop first)

-- An older transaction waits for a younger writer; a third, younger still, dies.
def olderWaits : List Event :=
  [.get 2 0 .ex, .get 1 0 .sh, .get 3 0 .sh, .finish 2, .release 2 0, .ready 1, .finish 1,
    .release 1 0]

theorem older_waits_exclusive :
    ∃ s, Run (step .waitDie id) free start (olderWaits.take 3) s ∧ s.pc 1 = .waiting 0 .sh ∧
      s.pc 3 = .ending ∧
    (∃ o ∈ (s.lock 0).owners, conflictLock o.type .sh = true) ∧
      ⟨.sh, 1⟩ ∈ (s.lock 0).waiters ∧ ¬ (s.lock 0).Holds 1 := by
  have replayed : (replay (step .waitDie id) free (olderWaits.take 3) start).map
    (fun s => (s.pc 1, s.pc 3, s.lockReady 1, (s.lock 0).waiters)) =
      some (.waiting 0 .sh, .ending, false, [⟨.sh, 1⟩]) := by decide +kernel
  obtain ⟨s, same, facts⟩ := Option.map_eq_some_iff.mp replayed
  simp only [Prod.mk.injEq] at facts
  obtain ⟨one, three, unready, queue⟩ := facts
  have run := run_of_replay _ same
  obtain ⟨_, front, waits⟩ := locks_exclusive run 0
  have place := waits 1 .sh one
  rw [unready, if_neg Bool.false_ne_true] at place
  exact ⟨s, run, one, three, front _ _ queue, place⟩

theorem older_waits_no_cycle :
    ∃ s, Run (step .waitDie id) free start (olderWaits.take 3) s ∧ WaitsFor s 1 2 ∧
    ¬ Relation.TransGen (WaitsFor s) 1 1 := by
  have replayed : (replay (step .waitDie id) free (olderWaits.take 3) start).map
    (fun s => ((s.lock 0).owners, (s.lock 0).waiters)) =
      some ([⟨.ex, 2⟩], [⟨.sh, 1⟩]) := by decide +kernel
  obtain ⟨s, same, facts⟩ := Option.map_eq_some_iff.mp replayed
  obtain ⟨owners, queue⟩ := Prod.mk.inj facts
  have run := run_of_replay _ same
  refine ⟨s, run, ⟨0, .inl ⟨⟨⟨.sh, 1⟩, ?_, rfl⟩, ⟨.ex, 2⟩, ?_, rfl⟩⟩,
    wait_die_no_cycle run Function.injective_id.injOn 1⟩
  · rw [queue]
    exact List.mem_singleton_self _
  · rw [owners]
    exact List.mem_singleton_self _

theorem older_waits_serializable :
    ∃ s, Run (step .waitDie id) free start olderWaits s ∧ Precedes s 2 1 ∧
    ¬ Relation.TransGen (Precedes s) 2 2 := by
  have replayed : (replay (step .waitDie id) free olderWaits start).map State.accesses =
    some [⟨2, 0, .ex⟩, ⟨1, 0, .sh⟩] := by decide +kernel
  obtain ⟨s, same, accesses⟩ := Option.map_eq_some_iff.mp replayed
  have run := run_of_replay _ same
  refine ⟨s, run, ⟨⟨2, 0, .ex⟩, ⟨1, 0, .sh⟩, ?_, ⟨rfl, rfl, by decide⟩, rfl, rfl⟩,
    runs_serializable run 2⟩
  rw [accesses]

end SetBench.RowLock
