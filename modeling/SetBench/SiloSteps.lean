import Mathlib
import SetBench.SiloOk

/-! The steps of a transaction under the invariant. -/
namespace SetBench.Silo

open Transition

variable {data : RowId → Nat} {s s' : State} {x : Txn} {t u : Nat} {a b : Access}
    {held rest done checked : List Access}
  {noWait preAbort : Bool}

theorem Inv.stage (inv : Inv data s) (accesses : x.accesses = (s.txns t).accesses)
    (before : x.before = (s.txns t).before) (written : x.written = (s.txns t).written)
    (claims : ∀ a ∈ x.claims, a ∈ (s.txns t).claims)
    (settled : ∀ a ∈ x.settled, a ∈ (s.txns t).settled) (fits : x.Fits)
    (early : x.Early → (s.txns t).Early) (queued : x.Queued → (s.txns t).Queued)
    (holds : ∀ a ∈ x.holds, a ∈ (s.txns t).holds) (kept : ∀ a ∈ x.kept, a ∈ (s.txns t).kept) :
    Inv data (s.setTxn t x) := by
  apply inv.calm s.rows
  constructor
  case tid => exact fun _ => rfl
  case content => exact fun _ => rfl
  case before => exact before
  case written => exact written
  case claims => exact claims
  case accesses => exact fun b member => .inl (accesses ▸ member)
  case settled => exact fun b member => .inl (settled b member)
  case fits => exact fits
  case early => exact early
  case queued => exact queued
  case locks => exact fun a member => (inv.one t).locks a (holds a member)
  case kept => exact fun a member => (inv.one t).kept a (kept a member)
  case others => exact fun u _ => (inv.one u).locks

-- A stage that holds no lock and claims no place, after another one.
theorem Inv.idle (inv : Inv data s) {stage : Stage}
    (plain : stage = .aborted ∨ ∃ rest, stage = .checking rest)
    (was : (s.txns t).Early ∧ (s.txns t).written = []) : Inv data (s.stageOf t stage) := by
  have empty : ∀ {P : Access → Prop}, ∀ a ∈ ([] : List Access), P a :=
    fun {P} => List.forall_mem_nil P
  rcases plain with rfl | ⟨rest, rfl⟩ <;>
    exact inv.stage rfl rfl was.2.symm empty empty trivial (fun _ => was.1) False.elim empty empty

theorem Inv.start_locking (inv : Inv data s) (was : (s.txns t).Early ∧ (s.txns t).written = []) :
    Inv data (s.stageOf t (.locking [] (s.txns t).writeSet)) := by
  have empty : ∀ {P : Access → Prop}, ∀ a ∈ ([] : List Access), P a :=
    fun {P} => List.forall_mem_nil P
  exact inv.stage rfl rfl was.2.symm empty empty ⟨rfl, List.nodup_nil⟩ (fun _ => was.1) False.elim
    empty empty

theorem Inv.enter (inv : Inv data s) (was : (s.txns t).Early ∧ (s.txns t).written = []) :
    Inv data (s.setTxn t ((s.txns t).enter preAbort)) := by
  cases preAbort with
  | true => exact inv.idle (.inr ⟨_, rfl⟩) was
  | false => exact inv.start_locking was

theorem Inv.access (inv : Inv data s) (running : (s.txns t).stage = .running) {row : RowId}
    {write : Option Nat} :
    Inv data (s.setTxn t { s.txns t with
      accesses := (s.txns t).accesses ++ [⟨row, (s.rows row).tid, (s.rows row).data, write⟩]
        }) := by
  have early : (s.txns t).Early := by simp only [Txn.Early, running]
  apply inv.calm s.rows
  constructor
  case tid => exact fun _ => rfl
  case content => exact fun _ => rfl
  case before => rfl
  case written => simp only [Txn.written, running]
  case claims => simp only [Txn.claims, running, List.not_mem_nil, false_implies, implies_true]
  case accesses =>
    intro b member
    rcases List.mem_append.mp member with was | new
    · exact .inl was
    · cases List.mem_singleton.mp new
      exact .inr ⟨rfl, rfl, (inv.one t).early early⟩
  case settled => simp only [Txn.settled, running, List.not_mem_nil, false_implies, implies_true]
  case fits => simp only [Txn.Fits, running]
  case early => exact fun _ => early
  case queued => simp only [Txn.Queued, running, false_implies]
  case locks => simp only [Txn.holds, running, List.not_mem_nil, false_implies, implies_true]
  case kept => simp only [Txn.kept, running, List.not_mem_nil, false_implies, implies_true]
  case others => exact fun u _ => (inv.one u).locks

theorem Inv.backOff (inv : Inv data s) (here : (s.txns t).stage = .locking held rest) :
    Inv data (s.stageOf t (.releasing held true)) := by
  have fits := (inv.one t).fits
  have empty : ∀ {P : Access → Prop}, ∀ a ∈ ([] : List Access), P a :=
    fun {P} => List.forall_mem_nil P
  simp only [Txn.Fits, here] at fits
  refine inv.stage rfl rfl ?_ empty empty fits.2 (fun _ => ?_) False.elim ?_ empty
  · simp only [Txn.written, here]
  · simp only [Txn.Early, here]
  · simp only [Txn.holds, here]
    exact fun a member => member

theorem Inv.giveUp (inv : Inv data s) (here : (s.txns t).stage = .validating checked rest) :
    Inv data (s.stageOf t (.releasing (s.txns t).writeSet false)) := by
  have fits := (inv.one t).fits
  have empty : ∀ {P : Access → Prop}, ∀ a ∈ ([] : List Access), P a :=
    fun {P} => List.forall_mem_nil P
  simp only [Txn.Fits, here] at fits
  refine inv.stage rfl rfl ?_ empty empty fits.2 (fun is => absurd is Bool.false_ne_true) False.elim
    ?_ empty
  · simp only [Txn.written, here]
  · simp only [Txn.holds, here]
    exact fun a member => member

theorem le_foldl_max (tids : List Nat) :
    ∀ start : Nat, start ≤ tids.foldl max start ∧ ∀ tid ∈ tids, tid ≤ tids.foldl max start := by
  induction tids with
  | nil => exact fun start => ⟨Nat.le_refl start, List.forall_mem_nil _⟩
  | cons tid rest ih =>
      intro start
      obtain ⟨first, others⟩ := ih (max start tid)
      refine ⟨(Nat.le_max_left start tid).trans first, fun other member => ?_⟩
      rcases List.mem_cons.mp member with rfl | later
      · exact (Nat.le_max_right start other).trans first
      · exact others other later

theorem Txn.nextTid_above (member : a ∈ x.accesses) : a.tid < x.nextTid := by
  have le : a.tid ≤ x.maxTid := (le_foldl_max _ 0).2 a.tid (List.mem_map_of_mem member)
  unfold Txn.nextTid
  split <;> omega

theorem Inv.commit (inv : Inv data s) (here : (s.txns t).stage = .validating checked []) :
    Inv data (s.setTxn t { s.txns t with
      stage := .writing [] (s.txns t).writeSet
      curTid := (s.txns t).nextTid }) := by
  have fits := (inv.one t).fits
  simp only [Txn.Fits, here, List.append_nil] at fits
  refine inv.stage rfl rfl ?_ ?_ ?_ ⟨rfl, fits.2, fun a member => Txn.nextTid_above member⟩
    False.elim (fun _ => ?_) ?_ ?_
  · simp only [Txn.written, here]
  · simp only [Txn.claims, here]
    exact fun a member => member
  · intro a member
    simp only [Txn.settled, here]
    rw [fits.1]
    exact List.mem_append.mpr (access_either member)
  · simp only [Txn.Queued, here]
  · simp only [Txn.holds, here]
    exact fun a member => member
  · simp only [Txn.kept, here]
    exact fun a member => member

theorem Inv.finish (inv : Inv data s) (here : (s.txns t).stage = .writing done []) :
    Inv data (s.stageOf t .committed) := by
  have fits := (inv.one t).fits
  have empty : ∀ {P : Access → Prop}, ∀ a ∈ ([] : List Access), P a :=
    fun {P} => List.forall_mem_nil P
  simp only [Txn.Fits, here, List.append_nil] at fits
  refine inv.stage rfl rfl ?_ ?_ ?_ fits.2.1 False.elim (fun _ => ?_) empty empty
  · simp only [Txn.written, here]
    exact fits.1.symm
  · simp only [Txn.claims, here]
    exact fun a member => member
  · simp only [Txn.settled, here]
    exact fun a member => member
  · simp only [Txn.Queued, here]

theorem Inv.released (inv : Inv data s) {again : Bool}
    (here : (s.txns t).stage = .releasing [] again) :
    Inv data (s.setTxn t (if again then (s.txns t).enter preAbort
      else { s.txns t with stage := .aborted })) := by
  have written : (s.txns t).written = [] := by simp only [Txn.written, here]
  have empty : ∀ {P : Access → Prop}, ∀ a ∈ ([] : List Access), P a :=
    fun {P} => List.forall_mem_nil P
  cases again with
  | true =>
      refine inv.enter ⟨?_, written⟩
      simp only [Txn.Early, here]
  | false =>
      exact inv.stage rfl rfl written.symm empty empty trivial False.elim False.elim empty empty

section Locks

-- The locks of the others when one row's lock goes from or to a transaction.
theorem Inv.others (inv : Inv data s) {row : Row}
    (own : (s.rows a.row).lock = none ∨ (s.rows a.row).lock = some t) (apart : u ≠ t)
    (member : b ∈ (s.txns u).holds) : (Function.update s.rows a.row row b.row).lock = some u := by
  have locked := (inv.one u).locks b member
  by_cases same : b.row = a.row
  · rw [same] at locked
    rcases own with none_ | mine
    · rw [none_] at locked
      cases locked
    · rw [mine] at locked
      exact absurd (Option.some.inj locked).symm apart
  · rw [Function.update_of_ne same]
    exact locked

theorem lock_only {r : RowId} {lock : Option Nat} (i : RowId) :
    (Function.update s.rows r { s.rows r with lock := lock } i).tid = (s.rows i).tid ∧
    (Function.update s.rows r { s.rows r with lock := lock } i).data = (s.rows i).data := by
  by_cases same : i = r
  · subst same
    rw [Function.update_self]
    exact ⟨rfl, rfl⟩
  · rw [Function.update_of_ne same]
    exact ⟨rfl, rfl⟩

theorem Inv.lock_to (inv : Inv data s) (here : (s.txns t).stage = .locking held (a :: rest))
    (free : (s.rows a.row).lock = none) (accesses : x.accesses = (s.txns t).accesses)
    (before : x.before = (s.txns t).before)
    (apart : x.written = [] ∧ x.claims = [] ∧ x.settled = [] ∧ ¬ x.Queued)
    (holds : x.holds = held ++ [a]) (fits : x.Fits)
    (kept : ∀ b ∈ x.kept, (s.rows b.row).tid = b.tid) : Inv data ((s.lock t a.row).setTxn t x) := by
  obtain ⟨written, claims, settled, unqueued⟩ := apart
  have locks := (inv.one t).locks
  simp only [Txn.holds, here] at locks
  apply inv.calm (Function.update s.rows a.row { s.rows a.row with lock := some t })
  constructor
  case tid => exact fun i => (lock_only i).1
  case content => exact fun i => (lock_only i).2
  case before => exact before
  case written =>
    rw [written]
    simp only [Txn.written, here]
  case claims => exact claims ▸ List.forall_mem_nil _
  case accesses => exact fun b member => .inl (accesses ▸ member)
  case settled => exact settled ▸ List.forall_mem_nil _
  case fits => exact fits
  case early => simp only [Txn.Early, here, implies_true]
  case queued => exact fun is => absurd is unqueued
  case locks =>
    intro b member
    rw [holds] at member
    by_cases same : b.row = a.row
    · rw [same, Function.update_self]
    · rw [Function.update_of_ne same]
      rcases List.mem_append.mp member with was | added
      · exact locks b was
      · exact absurd (congrArg Access.row (List.mem_singleton.mp added)) same
  case kept => exact kept
  case others => exact fun u apart b member => inv.others (.inl free) apart member

theorem Inv.lock (inv : Inv data s) (here : (s.txns t).stage = .locking held (a :: rest))
    (free : (s.rows a.row).lock = none) :
    Inv data ((s.lock t a.row).stageOf t
      (if (s.rows a.row).tid = a.tid then .locking (held ++ [a]) rest else .releasing (held ++ [a])
        false)) := by
  have fits := (inv.one t).fits
  have locks := (inv.one t).locks
  have kept := (inv.one t).kept
  simp only [Txn.Fits, Txn.holds, Txn.kept, here] at fits locks kept
  have new : ((held ++ [a]).map Access.row).Nodup := by
    rw [List.map_append, List.map_singleton]
    refine List.nodup_append.mpr ⟨fits.2, List.nodup_singleton _, fun r inside r' single same => ?_⟩
    obtain ⟨b, member, rfl⟩ := List.mem_map.mp inside
    cases List.mem_singleton.mp single
    have locked := locks b member
    rw [same, free] at locked
    cases locked
  by_cases current : (s.rows a.row).tid = a.tid
  · rw [if_pos current]
    apply inv.lock_to here free
    case accesses => rfl
    case before => rfl
    case apart => exact ⟨rfl, rfl, rfl, False.elim⟩
    case holds => rfl
    case fits => exact ⟨by rw [List.append_assoc]; exact fits.1, new⟩
    case kept =>
      intro b member
      rcases List.mem_append.mp member with was | added
      · exact kept b was
      · cases List.mem_singleton.mp added
        exact current
  · rw [if_neg current]
    apply inv.lock_to here free
    case accesses => rfl
    case before => rfl
    case apart => exact ⟨rfl, rfl, rfl, False.elim⟩
    case holds => rfl
    case fits => exact new
    case kept => exact List.forall_mem_nil _

theorem Inv.release (inv : Inv data s) {again : Bool}
    (here : (s.txns t).stage = .releasing (a :: held) again) :
    Inv data ((s.release a.row).stageOf t (.releasing held again)) := by
  have old := inv.one t
  have fits := old.fits
  have locks := old.locks
  simp only [Txn.Fits, Txn.holds, here] at fits locks
  obtain ⟨first, rest⟩ := List.nodup_cons.mp fits
  have empty : ∀ {P : Access → Prop}, ∀ a ∈ ([] : List Access), P a :=
    fun {P} => List.forall_mem_nil P
  apply inv.calm (Function.update s.rows a.row { s.rows a.row with lock := none })
  constructor
  case tid => exact fun i => (lock_only i).1
  case content => exact fun i => (lock_only i).2
  case before => rfl
  case written => simp only [Txn.written, here]
  case claims => exact empty
  case accesses => exact fun b member => .inl member
  case settled => exact empty
  case fits => exact rest
  case early => simp only [Txn.Early, here, imp_self]
  case queued => exact False.elim
  case locks =>
    intro b member
    have apart : b.row ≠ a.row := fun same => first (same ▸ List.mem_map_of_mem member)
    show (Function.update s.rows a.row _ b.row).lock = some t
    rw [Function.update_of_ne apart]
    exact locks b (List.mem_cons_of_mem _ member)
  case kept => exact empty
  case others =>
    exact fun u apart b member => inv.others (.inr (locks a List.mem_cons_self)) apart member

end Locks

-- No transaction behind this one has written a row that it read and that is as it was.
theorem Inv.as_before (inv : Inv data s) (inside : t ∈ s.order)
    (unwritten : (s.txns t).written = []) (member : b ∈ (s.txns t).accesses)
    (current : (s.rows b.row).tid = b.tid) :
    b.copy = serial data s.wrote (s.txns t).before b.row := by
  have old := inv.one t
  obtain ⟨rest, shape⟩ := old.split inside
  have silent : ∀ w ∈ t :: rest, s.wrote w b.row = none := by
    intro w here
    apply wrote_none
    intro c done same
    rcases List.mem_cons.mp here with rfl | behind
    · rw [unwritten] at done
      cases done
    · have less := old.later rest shape w behind c done b member same
      rw [current] at less
      exact Nat.lt_irrefl _ less
  rw [old.same b member current.symm, inv.value, shape, serial_append, fold_silent silent]

theorem Inv.check (inv : Inv data s) (here : (s.txns t).stage = .validating checked (a :: rest))
    (free : (s.rows a.row).lock = none) (current : (s.rows a.row).tid = a.tid) :
    Inv data (s.stageOf t (.validating (checked ++ [a]) rest)) := by
  have old := inv.one t
  have fits := old.fits
  have locks := old.locks
  have kept := old.kept
  simp only [Txn.Fits, Txn.holds, Txn.kept, here] at fits locks kept
  have queued : (s.txns t).Queued := by simp only [Txn.Queued, here]
  have unwritten : (s.txns t).written = [] := by simp only [Txn.written, here]
  have member : a ∈ (s.txns t).accesses :=
    (mem_readSet.mp (fits.1 ▸ List.mem_append_right _ List.mem_cons_self)).1
  apply inv.calm s.rows
  constructor
  case tid => exact fun _ => rfl
  case content => exact fun _ => rfl
  case before => rfl
  case written => exact unwritten.symm
  case claims =>
    simp only [Txn.claims, here]
    exact fun b claimed => claimed
  case accesses => exact fun b read => .inl read
  case settled =>
    intro b settled
    have parts : b ∈ checked ++ [a] ++ (s.txns t).writeSet := settled
    simp only [Txn.settled, here]
    rcases List.mem_append.mp parts with early | late
    · rcases List.mem_append.mp early with was | added
      · exact .inl (List.mem_append_left _ was)
      · cases List.mem_singleton.mp added
        refine .inr ⟨fun u ahead c claimed same => ?_, inv.as_before (old.queued queued) unwritten
          member current⟩
        rcases (inv.one u).fits.claimed claimed with done | holds
        · exact done
        · have locked := (inv.one u).locks c holds
          rw [same, free] at locked
          cases locked
    · exact .inl (List.mem_append_right _ late)
  case fits => exact ⟨by rw [List.append_assoc]; exact fits.1, fits.2⟩
  case early => exact False.elim
  case queued => exact fun _ => queued
  case locks => exact locks
  case kept => exact kept
  case others => exact fun u _ => (inv.one u).locks

end SetBench.Silo
