import Mathlib
import SetBench.Transition

/-! macrobench/concurrency_control/silo.cpp and row_silo.cpp, with ATOMIC_WORD: transactions
that read without locks and validate before they write. A row's copy between two equal reads of
its tid word is one step, and so is its write with the release, since the row is locked until
then. -/
namespace SetBench.Silo

open Transition

/-- A row_t. Rows of several tables can have one primary key. -/
structure RowId where
  primaryKey : Nat
  place : Nat
  deriving DecidableEq, Repr

structure Access where
  row : RowId
  tid : Nat
  -- The local copy as it was read, and what a WR makes of it.
  copy : Nat
  write : Option Nat
  deriving DecidableEq, Repr

def Access.data (a : Access) : Nat := a.write.getD a.copy

-- tid_word; the transaction that set LOCK_BIT stands with it.
structure Row where
  tid : Nat
  lock : Option Nat
  data : Nat
  deriving DecidableEq, Repr

/-- Where a transaction is in validate_silo. A releasing one goes back to its locks or aborts. -/
inductive Stage where
  | running
  | checking (rest : List Access)
  | locking (held rest : List Access)
  | validating (checked rest : List Access)
  | writing (done rest : List Access)
  | releasing (held : List Access) (again : Bool)
  | committed
  | aborted
  deriving DecidableEq, Repr

-- `before`: the transactions that had all their locks before this one. Nothing reads it.
structure Txn where
  curTid : Nat
  accesses : List Access
  stage : Stage
  before : List Nat
  deriving DecidableEq, Repr

structure State where
  rows : RowId → Row
  txns : Nat → Txn
  order : List Nat

namespace Txn

variable (x : Txn)

def readSet : List Access := x.accesses.filter (·.write.isNone)

-- In primary key order, rows of one key in the order of the accesses.
def writeSet : List Access :=
  (x.accesses.filter (·.write.isSome)).insertionSort fun a b => a.row.primaryKey ≤ b.row.primaryKey

def maxTid : Nat := (x.accesses.map Access.tid).foldl max 0

def nextTid : Nat := if x.curTid < x.maxTid then x.maxTid + 1 else x.curTid + 1

def enter (preAbort : Bool) : Txn :=
  { x with
    stage := if preAbort then .checking (x.writeSet ++ x.readSet) else .locking [] x.writeSet }

end Txn

namespace State

variable (s : State)

def setTxn (t : Nat) (x : Txn) : State := { s with txns := Function.update s.txns t x }

def setRow (r : RowId) (row : Row) : State := { s with rows := Function.update s.rows r row }

def stageOf (t : Nat) (stage : Stage) : State := s.setTxn t { s.txns t with stage := stage }

def lock (t : Nat) (r : RowId) : State := s.setRow r { s.rows r with lock := some t }

def release (r : RowId) : State := s.setRow r { s.rows r with lock := none }

end State

inductive Event where
  | access (t : Nat) (row : RowId) (write : Option Nat)
  | advance (t : Nat)
  deriving DecidableEq, Repr

def advance (noWait preAbort : Bool) (s : State) (t : Nat) : Option State :=
  let x := s.txns t
  match x.stage with
  | .running => some (s.setTxn t (x.enter preAbort))
  | .checking [] => some (s.stageOf t (.locking [] x.writeSet))
  | .checking (a :: rest) =>
      some (s.stageOf t (if (s.rows a.row).tid = a.tid then .checking rest else .aborted))
  | .locking _ [] =>
      some { s.setTxn t { x with
        stage := .validating [] x.readSet
        before := s.order } with order := s.order ++ [t] }
  | .locking held (a :: rest) =>
      if (s.rows a.row).lock = none then
        some ((s.lock t a.row).stageOf t
          (if (s.rows a.row).tid = a.tid then .locking (held ++ [a]) rest else .releasing
          (held ++ [a]) false))
      else if noWait then some (s.stageOf t (.releasing held true)) else none
  | .validating checked (a :: rest) =>
      some (s.stageOf t (if (s.rows a.row).lock = none ∧ (s.rows a.row).tid = a.tid then .validating
        (checked ++ [a]) rest
        else .releasing x.writeSet false))
  | .validating _ [] =>
      some (if x.writeSet.all fun a => (s.rows a.row).tid = a.tid then s.setTxn t
        { x with stage := .writing [] x.writeSet, curTid := x.nextTid }
        else s.stageOf t (.releasing x.writeSet false))
  | .writing done (a :: rest) =>
      some ((s.setRow a.row ⟨x.curTid, none, a.data⟩).stageOf t (.writing (done ++ [a]) rest))
  | .writing _ [] => some (s.stageOf t .committed)
  | .releasing (a :: held) again => some ((s.release a.row).stageOf t (.releasing held again))
  | .releasing [] again =>
      some (s.setTxn t (if again then x.enter preAbort else { x with stage := .aborted }))
  | .committed => none
  | .aborted => none

def step (noWait preAbort : Bool) (s : State) : Event → Option State
  | .access t row write =>
      if (s.txns t).stage = .running ∧ (s.rows row).lock = none then
        let read : Access := ⟨row, (s.rows row).tid, (s.rows row).data, write⟩
        some (s.setTxn t { s.txns t with accesses := (s.txns t).accesses ++ [read] })
      else none
  | .advance t => advance noWait preAbort s t

/-- Rows with the given data, and transactions whose threads have used the given tids. -/
def start (data : RowId → Nat) (tids : Nat → Nat) : State where
  rows r := ⟨0, none, data r⟩
  txns t := ⟨tids t, [], .running, []⟩
  order := []

/-- What a transaction that has decided to commit writes to a row. -/
def Txn.commits (x : Txn) (r : RowId) : Option Nat :=
  match x.stage with
  | .writing _ _ | .committed => (x.writeSet.find? (·.row = r)).map Access.data
  | _ => none

/-- The data of a row after the given transactions, one at a time. -/
def serial (data : RowId → Nat) (wrote : Nat → RowId → Option Nat) (order : List Nat)
    (r : RowId) : Nat :=
  order.foldl (fun v t => (wrote t r).getD v) (data r)

end SetBench.Silo
