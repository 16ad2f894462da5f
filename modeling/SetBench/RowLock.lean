import Mathlib
import SetBench.Transition

/-! The lock of a row in macrobench/concurrency_control/row_lock.cpp, under NO_WAIT, WAIT_DIE and
DL_DETECT, and the transactions that take it. Under its latch each of lock_get and lock_release is
one step. The lists of entries are Lean lists, the head first. -/
namespace SetBench.RowLock

open Transition

-- lock_t, CC_ALG and RC
inductive LockType where
  | none
  | sh
  | ex
  deriving DecidableEq, Repr

inductive Alg where
  | noWait
  | waitDie
  | dlDetect
  deriving DecidableEq, Repr

inductive RC where
  | ok
  | wait
  | abort
  deriving DecidableEq, Repr

structure LockEntry where
  type : LockType
  txn : Nat
  deriving DecidableEq, Repr

structure Lock where
  owners : List LockEntry
  waiters : List LockEntry
  lockType : LockType
  ownerCnt : Nat
  waiterCnt : Nat
  deriving DecidableEq, Repr

def Lock.init : Lock := ⟨[], [], .none, 0, 0⟩

def conflictLock (l1 l2 : LockType) : Bool :=
  if l1 = .none ∨ l2 = .none then false else l1 == .ex || l2 == .ex

section Lock

variable (alg : Alg) (ts : Nat → Nat)

-- "The waiter list is always in timestamp order": before the first waiter that is older.
def insertWaiter (entry : LockEntry) : List LockEntry → List LockEntry
  | [] => [entry]
  | w :: rest =>
      if ts entry.txn < ts w.txn then w :: insertWaiter entry rest else entry :: w :: rest

def mustWait (lock : Lock) (type : LockType) (txn : Nat) : Bool :=
  conflictLock lock.lockType type ||
    match alg, lock.waiters with
    | .waitDie, w :: _ => decide (ts txn < ts w.txn)
    | .dlDetect, _ :: _ => true
    | _, _ => false

-- The transactions that DL_DETECT is told the new waiter waits for.
def txnids (lock : Lock) (type : LockType) : List Nat :=
  (lock.waiters.reverse.filter fun w => conflictLock type w.type).map LockEntry.txn ++
    if conflictLock type lock.lockType then lock.owners.map LockEntry.txn else []

def lockGet (lock : Lock) (type : LockType) (txn : Nat) : Lock × RC × List Nat :=
  let entry : LockEntry := ⟨type, txn⟩
  if mustWait alg ts lock type txn then
    match alg with
    | .noWait => (lock, .abort, [])
    | .dlDetect =>
        ({ lock with waiters := lock.waiters ++ [entry], waiterCnt := lock.waiterCnt + 1 }, .wait,
          txnids lock type)
    | .waitDie =>
        if lock.owners.any fun o => decide (ts o.txn < ts txn) then (lock, .abort, [])
        else ({ lock with
          waiters := insertWaiter ts entry lock.waiters
          waiterCnt := lock.waiterCnt + 1 }, .wait, [])
  else
    ({ lock with owners := entry :: lock.owners, ownerCnt := lock.ownerCnt + 1, lockType := type },
    .ok, [])

-- "If any waiter can join the owners, just do it!"; the second part is who became ready.
def joinWaiters (lock : Lock) : List LockEntry → Lock × List Nat
  | [] => ({ lock with waiters := [] }, [])
  | w :: rest =>
      if conflictLock lock.lockType w.type then ({ lock with waiters := w :: rest }, [])
      else
        let next := joinWaiters { lock with
          owners := w :: lock.owners
          ownerCnt := lock.ownerCnt + 1
          waiterCnt := lock.waiterCnt - 1
          lockType := w.type } rest
        (next.1, w.txn :: next.2)

def lockRelease (lock : Lock) (txn : Nat) : Lock × List Nat :=
  let left :=
    if lock.owners.any (·.txn == txn) then
      { lock with owners := lock.owners.eraseP (·.txn == txn), ownerCnt := lock.ownerCnt - 1,
                  lockType := if lock.ownerCnt - 1 = 0 then .none else lock.lockType }
    else
      { lock with waiters := lock.waiters.eraseP (·.txn == txn), waiterCnt := lock.waiterCnt - 1 }
  joinWaiters left left.waiters

end Lock

/-! Transactions: row_t::get_row, its wait for lock_ready, and return_row for each row when they
have finished or been aborted. -/

inductive Pc where
  | running
  | waiting (row : Nat) (type : LockType)
  -- lock_abort was seen before lock_ready
  | quitting (row : Nat)
  | ending
  deriving DecidableEq, Repr

structure Access where
  txn : Nat
  row : Nat
  type : LockType
  deriving DecidableEq, Repr

structure State where
  lock : Nat → Lock
  pc : Nat → Pc
  lockReady : Nat → Bool
  -- history: the accesses in their order, and the transactions in the order they began to end
  accesses : List Access
  ended : List Nat

def start : State := ⟨fun _ => .init, fun _ => .running, fun _ => false, [], []⟩

inductive Event where
  | get (txn row : Nat) (type : LockType)
  | ready (txn : Nat)
  | quit (txn : Nat)
  | finish (txn : Nat)
  | release (txn row : Nat)
  deriving DecidableEq, Repr

def Lock.Holds (lock : Lock) (txn : Nat) : Prop := ∃ o ∈ lock.owners, o.txn = txn

def Lock.Queues (lock : Lock) (txn : Nat) : Prop := ∃ w ∈ lock.waiters, w.txn = txn

instance (lock : Lock) (txn : Nat) : Decidable (lock.Holds txn) :=
  inferInstanceAs (Decidable (∃ o ∈ lock.owners, o.txn = txn))

instance (lock : Lock) (txn : Nat) : Decidable (lock.Queues txn) :=
  inferInstanceAs (Decidable (∃ o ∈ lock.waiters, o.txn = txn))

def State.goto (s : State) (txn : Nat) (pc : Pc) : State :=
  { s with pc := Function.update s.pc txn pc }

def State.setReady (s : State) (txns : List Nat) : State :=
  { s with lockReady := fun t => s.lockReady t || decide (t ∈ txns) }

def State.setLock (s : State) (row : Nat) (lock : Lock) : State :=
  { s with lock := Function.update s.lock row lock }

-- lock_get asserts that no owner is of the thread of txn: a transaction asks for a row once.
def step (alg : Alg) (ts : Nat → Nat) (s : State) : Event → Option State
  | .get txn row type =>
      if s.pc txn = .running ∧ type ≠ .none ∧ ¬ (s.lock row).Holds txn then
        let (lock, rc, _) := lockGet alg ts (s.lock row) type txn
        let next := s.setLock row lock
        match rc with
        | .ok => some { next with accesses := s.accesses ++ [⟨txn, row, type⟩] }
        | .wait =>
            some { next.goto txn (.waiting row type) with
              lockReady := Function.update s.lockReady txn false }
        | .abort => some { next.goto txn .ending with ended := s.ended ++ [txn] }
      else none
  | .ready txn =>
      match s.pc txn with
      | .waiting row type =>
          if s.lockReady txn then
            some { s.goto txn .running with accesses := s.accesses ++ [⟨txn, row, type⟩] }
          else none
      | _ => none
  | .quit txn =>
      match s.pc txn with
      | .waiting row _ =>
          if alg = .dlDetect ∧ s.lockReady txn = false then
            some { s.goto txn (.quitting row) with ended := s.ended ++ [txn] }
          else none
      | _ => none
  | .finish txn =>
      if s.pc txn = .running then some { s.goto txn .ending with ended := s.ended ++ [txn] }
      else none
  | .release txn row =>
      if (s.pc txn = .ending ∧ (s.lock row).Holds txn) ∨ s.pc txn = .quitting row then
        let (lock, ready) := lockRelease (s.lock row) txn
        some (((s.setLock row lock).setReady ready).goto txn .ending)
      else none

end SetBench.RowLock
