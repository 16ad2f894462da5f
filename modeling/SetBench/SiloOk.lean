import Mathlib
import SetBench.Silo

/-! What holds at every step of validate_silo. The serial order is the one in which the transactions
came to have all their locks. -/
namespace SetBench.Silo

variable {data : RowId → Nat} {s s' : State} {x : Txn} {t u : Nat} {a b : Access}

namespace Txn

def holds (x : Txn) : List Access :=
  match x.stage with
  | .locking held _ => held
  | .validating _ _ => x.writeSet
  | .writing _ rest => rest
  | .releasing held _ => held
  | _ => []

-- Locked, and found with the tid that was read.
def kept (x : Txn) : List Access :=
  match x.stage with
  | .locking held _ => held
  | .validating _ _ => x.writeSet
  | .writing _ rest => rest
  | _ => []

def claims (x : Txn) : List Access :=
  match x.stage with
  | .validating _ _ => x.writeSet
  | .writing _ _ => x.writeSet
  | .committed => x.writeSet
  | _ => []

def written (x : Txn) : List Access :=
  match x.stage with
  | .writing done _ => done
  | .committed => x.writeSet
  | _ => []

-- The accesses that are known to fit the serial order.
def settled (x : Txn) : List Access :=
  match x.stage with
  | .validating checked _ => checked ++ x.writeSet
  | .writing _ _ => x.accesses
  | .committed => x.accesses
  | _ => []

def Early (x : Txn) : Prop :=
  match x.stage with
  | .running => True
  | .checking _ => True
  | .locking _ _ => True
  | .releasing _ again => again = true
  | _ => False

def Queued (x : Txn) : Prop :=
  match x.stage with
  | .validating _ _ => True
  | .writing _ _ => True
  | .committed => True
  | _ => False

def Fits (x : Txn) : Prop :=
  match x.stage with
  | .locking held rest => held ++ rest = x.writeSet ∧ (held.map Access.row).Nodup
  | .validating checked rest => checked ++ rest = x.readSet ∧ (x.writeSet.map Access.row).Nodup
  | .writing done rest =>
      done ++ rest = x.writeSet ∧ (x.writeSet.map Access.row).Nodup ∧
        ∀ a ∈ x.accesses, a.tid < x.curTid
  | .releasing held _ => (held.map Access.row).Nodup
  | .committed => (x.writeSet.map Access.row).Nodup
  | _ => True

def wrote (x : Txn) (r : RowId) : Option Nat := (x.written.find? (·.row = r)).map Access.data

end Txn

def State.wrote (s : State) (t : Nat) (r : RowId) : Option Nat := (s.txns t).wrote r

/-- A transaction among the rows and the others. -/
structure One (data : RowId → Nat) (s : State) (t : Nat) : Prop where
  fits : (s.txns t).Fits
  below : ∀ a ∈ (s.txns t).accesses, a.tid ≤ (s.rows a.row).tid
  same : ∀ a ∈ (s.txns t).accesses, a.tid = (s.rows a.row).tid → a.copy = (s.rows a.row).data
  locks : ∀ a ∈ (s.txns t).holds, (s.rows a.row).lock = some t
  kept : ∀ a ∈ (s.txns t).kept, (s.rows a.row).tid = a.tid
  early : (s.txns t).Early → t ∉ s.order
  queued : (s.txns t).Queued → t ∈ s.order
  split : t ∈ s.order → ∃ rest, s.order = (s.txns t).before ++ t :: rest
  ahead : ∀ u ∈ (s.txns t).before, ∀ a ∈ (s.txns u).claims, ∀ b ∈ (s.txns t).settled, a.row =
    b.row → a ∈ (s.txns u).written
  seen : ∀ b ∈ (s.txns t).settled, b.copy = serial data s.wrote (s.txns t).before b.row
  later : ∀ rest, s.order = (s.txns t).before ++ t :: rest →
    ∀ w ∈ rest, ∀ a ∈ (s.txns w).written, ∀ b ∈ (s.txns t).accesses,
    a.row = b.row → b.tid < (s.rows b.row).tid

structure Inv (data : RowId → Nat) (s : State) : Prop where
  one : ∀ t, One data s t
  nodup : s.order.Nodup
  value : ∀ r, (s.rows r).data = serial data s.wrote s.order r

theorem mem_writeSet : a ∈ x.writeSet ↔ a ∈ x.accesses ∧ a.write.isSome = true := by
  unfold Txn.writeSet
  rw [List.mem_insertionSort, List.mem_filter]

theorem mem_readSet : a ∈ x.readSet ↔ a ∈ x.accesses ∧ a.write.isNone = true := List.mem_filter

theorem access_either (member : a ∈ x.accesses) : a ∈ x.readSet ∨ a ∈ x.writeSet := by
  rw [mem_readSet, mem_writeSet]
  cases found : a.write with
  | none => exact .inl ⟨member, rfl⟩
  | some v => exact .inr ⟨member, rfl⟩

theorem Txn.Fits.claimed (fits : x.Fits) (member : a ∈ x.claims) : a ∈ x.written ∨ a ∈ x.holds := by
  unfold Txn.Fits at fits
  unfold Txn.claims at member
  unfold Txn.written Txn.holds
  cases here : x.stage <;> rw [here] at fits member <;> try exact absurd member List.not_mem_nil
  all_goals dsimp only at fits member ⊢
  case validating => exact .inr member
  case writing done rest =>
    rw [← fits.1] at member
    exact List.mem_append.mp member
  case committed => exact .inl member

theorem Txn.Fits.settled (fits : x.Fits) (member : a ∈ x.written) : a ∈ x.settled := by
  unfold Txn.Fits at fits
  unfold Txn.written at member
  unfold Txn.settled
  cases here : x.stage <;> rw [here] at fits member <;> try exact absurd member List.not_mem_nil
  all_goals dsimp only at fits member ⊢
  case writing done rest => exact (mem_writeSet.mp (fits.1 ▸ List.mem_append_left rest member)).1
  case committed => exact (mem_writeSet.mp member).1

theorem queued_of_settled (member : a ∈ x.settled) : x.Queued := by
  unfold Txn.settled at member
  unfold Txn.Queued
  cases here : x.stage <;> rw [here] at member <;>
    first | exact absurd member List.not_mem_nil | trivial

theorem kept_held (member : a ∈ x.kept) : a ∈ x.holds := by
  unfold Txn.kept at member
  unfold Txn.holds
  cases here : x.stage <;> rw [here] at member <;>
    first | exact absurd member List.not_mem_nil | exact member

theorem wrote_none (absent : ∀ a ∈ x.written, a.row ≠ r) : x.wrote r = none := by
  unfold Txn.wrote
  rw [List.find?_eq_none.mpr fun a member => by simpa using absent a member]
  rfl

section Serial

variable {wrote wrote' : Nat → RowId → Option Nat} {r : RowId}

theorem serial_append (first second : List Nat) :
    serial data wrote (first ++ second) r = second.foldl (fun v t => (wrote t r).getD v)
      (serial data wrote first r) := List.foldl_append

theorem serial_congr {order : List Nat} (same : ∀ t ∈ order, wrote t r = wrote' t r) :
    serial data wrote order r = serial data wrote' order r := by
  unfold serial
  apply List.foldl_ext
  intro v t member
  rw [same t member]

theorem fold_silent {order : List Nat} (silent : ∀ t ∈ order, wrote t r = none) (v : Nat) :
    order.foldl (fun v t => (wrote t r).getD v) v = v := by
  induction order with
  | nil => rfl
  | cons t rest ih =>
      rw [List.foldl_cons, silent t List.mem_cons_self]
      exact ih fun u member => silent u (List.mem_cons_of_mem t member)

end Serial

/-- A step of one transaction that writes no row: what the new transaction has to bring. -/
structure Calm (data : RowId → Nat) (s : State) (rows : RowId → Row) (t : Nat) (x : Txn) :
    Prop where
  tid : ∀ r, (rows r).tid = (s.rows r).tid
  content : ∀ r, (rows r).data = (s.rows r).data
  before : x.before = (s.txns t).before
  written : x.written = (s.txns t).written
  claims : ∀ a ∈ x.claims, a ∈ (s.txns t).claims
  accesses : ∀ b ∈ x.accesses, b ∈ (s.txns t).accesses ∨
    (b.tid = (s.rows b.row).tid ∧ b.copy = (s.rows b.row).data ∧ t ∉ s.order)
  settled : ∀ b ∈ x.settled, b ∈ (s.txns t).settled ∨
    ((∀ u ∈ (s.txns t).before, ∀ a ∈ (s.txns u).claims, a.row = b.row → a ∈ (s.txns u).written) ∧
      b.copy = serial data s.wrote (s.txns t).before b.row)
  fits : x.Fits
  early : x.Early → (s.txns t).Early
  queued : x.Queued → (s.txns t).Queued
  locks : ∀ a ∈ x.holds, (rows a.row).lock = some t
  kept : ∀ a ∈ x.kept, (s.rows a.row).tid = a.tid
  others : ∀ u, u ≠ t → ∀ a ∈ (s.txns u).holds, (rows a.row).lock = some u

theorem Inv.calm (inv : Inv data s) (rows : RowId → Row) (calm : Calm data s rows t x) :
    Inv data { s with rows := rows, txns := Function.update s.txns t x } := by
  obtain ⟨s', at_s'⟩ : ∃ s', s' =
    ({ s with rows := rows, txns := Function.update s.txns t x } : State) := ⟨_, rfl⟩
  have here : s'.txns t = x := by rw [at_s']; exact Function.update_self ..
  have there {u : Nat} (apart : u ≠ t) : s'.txns u = s.txns u := by
    rw [at_s']; exact Function.update_of_ne apart ..
  have rows' : s'.rows = rows := by rw [at_s']
  have order : s'.order = s.order := by rw [at_s']
  have before (u : Nat) : (s'.txns u).before = (s.txns u).before := by
    by_cases own : u = t
    · rw [own, here, calm.before]
    · rw [there own]
  have written (u : Nat) : (s'.txns u).written = (s.txns u).written := by
    by_cases own : u = t
    · rw [own, here, calm.written]
    · rw [there own]
  have claims (u : Nat) : ∀ a ∈ (s'.txns u).claims, a ∈ (s.txns u).claims := by
    by_cases own : u = t
    · rw [own, here]
      exact calm.claims
    · rw [there own]
      exact fun _ member => member
  have wrote : s'.wrote = s.wrote := by
    funext u r
    unfold State.wrote Txn.wrote
    rw [written]
  rw [← at_s']
  refine ⟨fun u => ?_, order ▸ inv.nodup, fun r => ?_⟩
  · have old := inv.one u
    constructor
    case fits =>
      by_cases own : u = t
      · rw [own, here]
        exact calm.fits
      · rw [there own]
        exact old.fits
    case below =>
      intro a member
      rw [rows', calm.tid]
      by_cases own : u = t
      · subst own
        rw [here] at member
        rcases calm.accesses a member with was | ⟨same, _⟩
        · exact old.below a was
        · exact same.le
      · exact old.below a (there own ▸ member)
    case same =>
      intro a member
      rw [rows', calm.tid, calm.content]
      by_cases own : u = t
      · subst own
        rw [here] at member
        rcases calm.accesses a member with was | ⟨_, same, _⟩
        · exact old.same a was
        · exact fun _ => same
      · exact old.same a (there own ▸ member)
    case locks =>
      intro a member
      rw [rows']
      by_cases own : u = t
      · subst own
        exact calm.locks a (here ▸ member)
      · exact calm.others u own a (there own ▸ member)
    case kept =>
      intro a member
      rw [rows', calm.tid]
      by_cases own : u = t
      · subst own
        exact calm.kept a (here ▸ member)
      · exact old.kept a (there own ▸ member)
    case early =>
      rw [order]
      by_cases own : u = t
      · subst own
        rw [here]
        exact fun is => old.early (calm.early is)
      · rw [there own]
        exact old.early
    case queued =>
      rw [order]
      by_cases own : u = t
      · subst own
        rw [here]
        exact fun is => old.queued (calm.queued is)
      · rw [there own]
        exact old.queued
    case split =>
      rw [order, before]
      exact old.split
    case ahead =>
      intro v inside a claimed b member same
      rw [before] at inside
      rw [written]
      by_cases own : u = t
      · subst own
        rw [here] at member
        rcases calm.settled b member with was | ⟨fine, _⟩
        · exact old.ahead v inside a (claims v a claimed) b was same
        · exact fine v inside a (claims v a claimed) same
      · exact old.ahead v inside a (claims v a claimed) b (there own ▸ member) same
    case seen =>
      intro b member
      rw [before, wrote]
      by_cases own : u = t
      · subst own
        rw [here] at member
        rcases calm.settled b member with was | ⟨_, fine⟩
        · exact old.seen b was
        · exact fine
      · exact old.seen b (there own ▸ member)
    case later =>
      intro rest shape w inside a done b member same
      rw [order, before] at shape
      rw [written] at done
      rw [rows', calm.tid]
      by_cases own : u = t
      · subst own
        rw [here] at member
        rcases calm.accesses b member with was | ⟨_, _, absent⟩
        · exact old.later rest shape w inside a done b was same
        · exact absurd (shape ▸ List.mem_append_right _ List.mem_cons_self) absent
      · exact old.later rest shape w inside a done b (there own ▸ member) same
  · rw [rows', calm.content, wrote, order]
    exact inv.value r

theorem inv_start (data : RowId → Nat) (tids : Nat → Nat) : Inv data (start data tids) := by
  refine ⟨fun t => ?_, List.nodup_nil, fun r => rfl⟩
  have nothing {P : Access → Prop} : ∀ a ∈ ([] : List Access), P a := List.forall_mem_nil P
  constructor
  case fits => trivial
  case below => exact nothing
  case same => exact nothing
  case locks => exact nothing
  case kept => exact nothing
  case early => exact fun _ => List.not_mem_nil
  case queued => exact fun is => is.elim
  case split => exact fun inside => absurd inside List.not_mem_nil
  case ahead => exact fun _ inside => absurd inside List.not_mem_nil
  case seen => exact nothing
  case later =>
    exact fun rest shape => absurd shape.symm
      (List.append_ne_nil_of_right_ne_nil _ (List.cons_ne_nil _ _))

end SetBench.Silo
