import Mathlib
import SetBench.Transition

/-! The epoch structure of artifact_flock/epoch.h with the hooks of
artifact_verlib/timestamps.h. One event is one load, exchange, store or
compare-exchange on a shared word; a slot holding -1 is `none`. The clock is the
stamp source: it only grows, `get_stamp` and `get_read_stamp` read it, and
`get_write_stamp` is a call and a return with a stamp strictly above the clock of
the call and not above the clock of the return. -/
namespace SetBench.Epoch

inductive AnnouncePc where
  | outside
  | load
  | exchange (current : Nat)
  | check (current : Nat)
  | inside
  deriving DecidableEq, Repr

-- `update_epoch` reads every slot twice: once against -1, once against current_e.
inductive UpdatePc where
  | idle
  | load
  | scanUnset (current index : Nat)
  | scanOlder (current index : Nat)
  | beforeHook (current : Nat)
  | compareExchange (current : Nat)
  | hookRead
  | hookDone (prev : Nat)
  | hookPrev
  deriving DecidableEq, Repr

/-- `currentStamp` and `localStamp` are thread_local in the source. The last three
fields are history: the stamps taken since announce returned, the clock at that
return, and the epoch at which the slot was last exchanged. -/
structure Thread where
  announcing : AnnouncePc
  updating : UpdatePc
  currentStamp : Nat
  localStamp : Option Nat
  stampCall : Option Nat
  taken : List Nat
  since : Nat
  wrote : Nat
  deriving DecidableEq, Repr

structure State (workers : Nat) where
  clock : Nat
  currentEpoch : Nat
  doneStamp : Nat
  prevStamp : Nat
  last : Fin workers → Option Nat
  thread : Fin workers → Thread

inductive Event (workers : Nat) where
  | tick (amount : Nat)
  | enter (id : Fin workers)
  | announceStep (id : Fin workers)
  | unannounce (id : Fin workers)
  | beginUpdate (id : Fin workers)
  | updateStep (id : Fin workers)
  | openSnapshot (id : Fin workers)
  | closeSnapshot (id : Fin workers)
  | callWriteStamp (id : Fin workers)
  | returnWriteStamp (id : Fin workers) (stamp : Nat)
  deriving DecidableEq, Repr

variable {workers : Nat}

def fresh : Thread := ⟨.outside, .idle, 0, none, none, [], 0, 0⟩

-- done_stamp and prev_stamp are both initialised with global_stamp.get_stamp().
def initial (clock : Nat) : State workers :=
  ⟨clock, 0, clock, clock, fun _ => none, fun _ => fresh⟩

def State.set (state : State workers) (id : Fin workers) (thread : Thread) : State workers :=
  { state with thread := Function.update state.thread id thread }

def announceStep (state : State workers) (id : Fin workers) : Option (State workers) :=
  let thread := state.thread id
  match thread.announcing with
  | .load => some (state.set id { thread with announcing := .exchange state.currentEpoch })
  | .exchange current =>
      some { state.set id { thread with
        announcing := .check current
        wrote := state.currentEpoch } with
        last := Function.update state.last id (some current) }
  | .check current =>
      if state.currentEpoch = current then
        some (state.set id { thread with announcing := .inside, since := state.clock, taken := [] })
      else some (state.set id { thread with announcing := .load })
  | .outside | .inside => none

def updateStep (state : State workers) (id : Fin workers) : Option (State workers) :=
  let thread := state.thread id
  match thread.updating with
  | .idle => none
  | .load => some (state.set id { thread with updating := .scanUnset state.currentEpoch 0 })
  | .scanUnset current index =>
      if bound : index < workers then
        match state.last ⟨index, bound⟩ with
        | none => some (state.set id { thread with updating := .scanUnset current (index + 1) })
        | some _ => some (state.set id { thread with updating := .scanOlder current index })
      else some (state.set id { thread with updating := .beforeHook current })
  | .scanOlder current index =>
      if bound : index < workers then
        match state.last ⟨index, bound⟩ with
        | none => some (state.set id { thread with updating := .idle })
        | some epoch =>
            if epoch < current then some (state.set id { thread with updating := .idle })
            else some (state.set id { thread with updating := .scanUnset current (index + 1) })
      else none
  | .beforeHook current =>
      some (state.set id
        { thread with updating := .compareExchange current, currentStamp := state.clock })
  | .compareExchange current =>
      if state.currentEpoch = current then
        some { state.set id { thread with updating := .hookRead } with currentEpoch := current + 1 }
      else some (state.set id { thread with updating := .idle })
  | .hookRead => some (state.set id { thread with updating := .hookDone state.prevStamp })
  | .hookDone prev =>
      some { state.set id { thread with updating := .hookPrev } with doneStamp := prev }
  | .hookPrev =>
      some { state.set id { thread with updating := .idle } with prevStamp := thread.currentStamp }

/-- One atomic step. A thread inside update_epoch does nothing else, and it
unannounces only after its snapshot and its stamp call have ended. -/
def step (state : State workers) : Event workers → Option (State workers)
  | .tick amount => some { state with clock := state.clock + amount }
  | .enter id =>
      let thread := state.thread id
      if thread.announcing = .outside ∧ thread.updating = .idle then
        some (state.set id { thread with announcing := .load })
      else none
  | .announceStep id => announceStep state id
  | .unannounce id =>
      let thread := state.thread id
      if thread.announcing = .inside ∧ thread.updating = .idle ∧
          thread.localStamp = none ∧ thread.stampCall = none then
        some { state.set id { thread with announcing := .outside, taken := [] } with
          last := Function.update state.last id none }
      else none
  | .beginUpdate id =>
      let thread := state.thread id
      if thread.updating = .idle ∧ (thread.announcing = .outside ∨ thread.announcing = .inside) then
        some (state.set id { thread with updating := .load })
      else none
  | .updateStep id => updateStep state id
  | .openSnapshot id =>
      let thread := state.thread id
      if thread.announcing = .inside ∧ thread.localStamp = none then
        some (state.set id { thread with localStamp := some state.clock })
      else none
  | .closeSnapshot id =>
      let thread := state.thread id
      if thread.localStamp.isSome then some (state.set id { thread with localStamp := none })
      else none
  | .callWriteStamp id =>
      let thread := state.thread id
      if thread.announcing = .inside ∧ thread.stampCall = none then
        some (state.set id { thread with stampCall := some state.clock })
      else none
  -- the clock as read first, plus one, once a later read differs
  | .returnWriteStamp id stamp =>
      let thread := state.thread id
      match thread.stampCall with
      | some called =>
          if called < stamp ∧ stamp ≤ state.clock then
            some (state.set id { thread with stampCall := none, taken := stamp :: thread.taken })
          else none
      | none => none

/-! The epoch bound. A slot exchanged at epoch `wrote` keeps the current epoch at
or below `wrote + 1` until it is written again: a scan for a later epoch starts
after the exchange and stops at the slot. Nothing here needs the updater itself
to be announced. -/

@[simp] theorem State.set_self (state : State workers) (id : Fin workers) (thread : Thread) :
    (state.set id thread).thread id = thread := by simp [State.set]

@[simp] theorem State.set_other (state : State workers) {id other : Fin workers} (thread : Thread)
    (different : other ≠ id) : (state.set id thread).thread other = state.thread other := by
  simp [State.set, different]

@[simp] theorem State.set_clock (state : State workers) (id : Fin workers) (thread : Thread) :
    (state.set id thread).clock = state.clock := rfl

@[simp] theorem State.set_currentEpoch (state : State workers) (id : Fin workers)
    (thread : Thread) :
    (state.set id thread).currentEpoch = state.currentEpoch := rfl

@[simp] theorem State.set_last (state : State workers) (id : Fin workers) (thread : Thread) :
    (state.set id thread).last = state.last := rfl

@[simp] theorem State.set_doneStamp (state : State workers) (id : Fin workers) (thread : Thread) :
    (state.set id thread).doneStamp = state.doneStamp := rfl

@[simp] theorem State.set_prevStamp (state : State workers) (id : Fin workers) (thread : Thread) :
    (state.set id thread).prevStamp = state.prevStamp := rfl

def scanned (workers : Nat) : UpdatePc → Option (Nat × Nat)
  | .scanUnset current index => some (current, index)
  | .scanOlder current index => some (current, index)
  | .beforeHook current => some (current, workers)
  | .compareExchange current => some (current, workers)
  | _ => none

/-- Every slot below `index` is empty or was exchanged at epoch `current` or later. -/
def Passed (state : State workers) (current index : Nat) : Prop :=
  current ≤ state.currentEpoch ∧
    ∀ other : Fin workers, other.val < index → state.last other ≠ none →
      current ≤ (state.thread other).wrote

structure Bounded (state : State workers) : Prop where
  slot : ∀ id epoch, state.last id = some epoch → epoch ≤ (state.thread id).wrote ∧
    (state.thread id).wrote ≤ state.currentEpoch ∧ state.currentEpoch ≤ (state.thread id).wrote + 1
  loaded : ∀ id current, (state.thread id).announcing = .exchange current →
    current ≤ state.currentEpoch
  checking : ∀ id current, (state.thread id).announcing = .check current →
    state.last id = some current
  inside : ∀ id, (state.thread id).announcing = .inside →
    state.last id = some (state.thread id).wrote
  scan : ∀ id current index, scanned workers (state.thread id).updating = some (current, index) →
    Passed state current index

theorem initial_bounded (clock : Nat) : Bounded (initial clock : State workers) := by
  constructor <;> simp [initial, fresh, scanned]

theorem passed_set (state : State workers) (id : Fin workers) (thread : Thread)
    (same : thread.wrote = (state.thread id).wrote) (current index : Nat) :
    Passed (state.set id thread) current index ↔ Passed state current index := by
  have wrote (other : Fin workers) :
      ((state.set id thread).thread other).wrote = (state.thread other).wrote := by
    by_cases here : other = id
    · rw [here, State.set_self, same]
    · rw [State.set_other _ _ here]
  simp only [Passed, wrote]
  rfl

-- A step on thread-local data keeps the bounds when its new position is justified.
theorem set_bounded {state : State workers} (inv : Bounded state) (id : Fin workers)
    (thread : Thread) (same : thread.wrote = (state.thread id).wrote)
    (loaded : ∀ current, thread.announcing = .exchange current → current ≤ state.currentEpoch)
    (checking : ∀ current, thread.announcing = .check current → state.last id = some current)
    (inside : thread.announcing = .inside → state.last id = some thread.wrote)
    (scan : ∀ current index, scanned workers thread.updating = some (current, index) →
      Passed state current index) : Bounded (state.set id thread) := by
  constructor
  · intro other epoch held
    by_cases here : other = id
    · subst here
      simpa only [State.set_self, State.set_currentEpoch, same] using inv.slot other epoch held
    · simpa only [State.set_other _ _ here, State.set_currentEpoch] using inv.slot other epoch held
  · intro other current at_
    by_cases here : other = id
    · subst here; exact loaded current (by simpa using at_)
    · exact inv.loaded other current (by simpa [here] using at_)
  · intro other current at_
    by_cases here : other = id
    · subst here; exact checking current (by simpa using at_)
    · exact inv.checking other current (by simpa [here] using at_)
  · intro other at_
    by_cases here : other = id
    · subst here
      simpa only [State.set_self, State.set_last] using inside (by simpa using at_)
    · simpa only [State.set_other _ _ here, State.set_last] using inv.inside other
        (by simpa [here] using at_)
  · intro other current index at_
    rw [passed_set state id thread same]
    by_cases here : other = id
    · subst here; exact scan current index (by simpa using at_)
    · exact inv.scan other current index (by simpa [here] using at_)

-- Positions of update_epoch move while the announcement stays as it is.
theorem update_bounded {state : State workers} (inv : Bounded state) (id : Fin workers)
    (thread : Thread) (same : thread.wrote = (state.thread id).wrote)
    (still : thread.announcing = (state.thread id).announcing)
    (scan : ∀ current index, scanned workers thread.updating = some (current, index) →
      Passed state current index) : Bounded (state.set id thread) := by
  apply set_bounded inv id thread same _ _ _ scan
  · intro current at_; exact inv.loaded id current (still ▸ at_)
  · intro current at_; exact inv.checking id current (still ▸ at_)
  · intro at_; rw [same]; exact inv.inside id (still ▸ at_)

theorem announce_bounded {state : State workers} (inv : Bounded state) (id : Fin workers)
    (thread : Thread) (same : thread.wrote = (state.thread id).wrote)
    (still : thread.updating = (state.thread id).updating)
    (loaded : ∀ current, thread.announcing = .exchange current → current ≤ state.currentEpoch)
    (checking : ∀ current, thread.announcing = .check current → state.last id = some current)
    (inside : thread.announcing = .inside → state.last id = some thread.wrote) :
    Bounded (state.set id thread) := by
  apply set_bounded inv id thread same loaded checking inside
  intro current index at_
  exact inv.scan id current index (still ▸ at_)

theorem passed_next {state : State workers} {current index : Nat}
    (passed : Passed state current index) (bound : index < workers)
    (fine : state.last ⟨index, bound⟩ ≠ none → current ≤ (state.thread ⟨index, bound⟩).wrote) :
    Passed state current (index + 1) := by
  refine ⟨passed.1, ?_⟩
  intro other below held
  by_cases here : other.val = index
  · have same : other = ⟨index, bound⟩ := Fin.ext here
    subst same
    exact fine held
  · exact passed.2 other (by omega) held

theorem announceStep_bounded {before after : State workers} {id : Fin workers}
    (inv : Bounded before) (stepped : announceStep before id = some after) : Bounded after := by
  cases pc : (before.thread id).announcing with
  | outside => simp [announceStep, pc] at stepped
  | inside => simp [announceStep, pc] at stepped
  | load =>
      simp only [announceStep, pc, Option.some.injEq] at stepped
      subst stepped
      exact announce_bounded inv id _ rfl rfl (by simp) (by simp) (by simp)
  | exchange current =>
      simp only [announceStep, pc, Option.some.injEq] at stepped
      subst stepped
      have loaded := inv.loaded id current pc
      -- A slot written now is as new as the epoch, so every scan may pass it.
      constructor
      · intro other epoch held
        by_cases here : other = id
        · subst here
          simp only [Function.update_self, Option.some.injEq] at held
          simp only [State.set_self]
          simp only [State.set]
          omega
        · simpa [State.set, here] using inv.slot other epoch (by simpa [here] using held)
      · intro other value at_
        by_cases here : other = id
        · subst here; simp at at_
        · exact inv.loaded other value (by simpa [here] using at_)
      · intro other value at_
        by_cases here : other = id
        · subst here; simpa using at_
        · simpa [here] using inv.checking other value (by simpa [here] using at_)
      · intro other at_
        by_cases here : other = id
        · subst here; simp at at_
        · simpa [here] using inv.inside other (by simpa [here] using at_)
      · intro other value index at_
        have old : Passed before value index := by
          by_cases here : other = id
          · subst here; exact inv.scan other value index (by simpa using at_)
          · exact inv.scan other value index (by simpa [here] using at_)
        refine ⟨old.1, ?_⟩
        intro slot below held
        by_cases here : slot = id
        · subst here; simpa using old.1
        · simpa [here] using old.2 slot below (by simpa [here] using held)
  | check current =>
      simp only [announceStep, pc] at stepped
      have slot := inv.checking id current pc
      split at stepped
      · rename_i unchanged
        simp only [Option.some.injEq] at stepped
        subst stepped
        have wrote := inv.slot id current slot
        refine announce_bounded inv id _ rfl rfl (by simp) (by simp) ?_
        intro _
        rw [slot]
        congr 1
        change current = (before.thread id).wrote
        omega
      · simp only [Option.some.injEq] at stepped
        subst stepped
        exact announce_bounded inv id _ rfl rfl (by simp) (by simp) (by simp)

-- An updater that scans no more.
theorem unscanned_bounded {state : State workers} (inv : Bounded state) (id : Fin workers)
    {next : UpdatePc} (none_ : scanned workers next = none) :
    Bounded (state.set id { state.thread id with updating := next }) := by
  refine update_bounded inv id _ rfl rfl fun current index at_ => ?_
  change scanned workers next = some (current, index) at at_
  rw [none_] at at_
  cases at_

theorem scanned_bounded {state : State workers} (inv : Bounded state) (id : Fin workers)
    {next : UpdatePc} {current index : Nat} (at_ : scanned workers next = some (current, index))
    (passed : Passed state current index) :
    Bounded (state.set id { state.thread id with updating := next }) := by
  refine update_bounded inv id _ rfl rfl fun value place found => ?_
  cases at_.symm.trans found
  exact passed

/-- The epoch moves on when every slot that is not empty was exchanged at it. -/
theorem increment_bounded {state : State workers} (inv : Bounded state) (id : Fin workers)
    (passed : Passed state state.currentEpoch workers) :
    Bounded { state.set id { state.thread id with
      updating := .hookRead } with currentEpoch := state.currentEpoch + 1 } := by
  have settled : Bounded (state.set id { state.thread id with updating := .hookRead }) :=
    unscanned_bounded inv id rfl
  refine ⟨?_, ?_, settled.checking, settled.inside, ?_⟩
  · intro other epoch held
    have old := settled.slot other epoch held
    have now := passed.2 other other.isLt (by
      change state.last other = some epoch at held
      simp [held])
    have same : ((state.set id { state.thread id with updating := .hookRead }).thread other).wrote
        = (state.thread other).wrote := by
      by_cases here : other = id
      · subst here; simp
      · simp [here]
    simp only [same] at old ⊢
    simp only [State.set] at old ⊢
    omega
  · intro other value at_
    have old := settled.loaded other value at_
    simp only [State.set] at old ⊢
    omega
  · intro other value index at_
    have old := settled.scan other value index at_
    refine ⟨?_, old.2⟩
    have earlier := old.1
    simp only [State.set] at earlier ⊢
    omega

theorem updateStep_bounded {before after : State workers} {id : Fin workers} (inv : Bounded before)
    (stepped : updateStep before id = some after) : Bounded after := by
  have scan := inv.scan id
  cases pc : (before.thread id).updating with
  | idle => simp [updateStep, pc] at stepped
  | load =>
      simp only [updateStep, pc, Option.some.injEq] at stepped
      subst stepped
      exact scanned_bounded inv id rfl
        ⟨Nat.le_refl _, fun other below => absurd below (Nat.not_lt_zero _)⟩
  | scanUnset current index =>
      have passed := scan current index (by rw [pc]; rfl)
      simp only [updateStep, pc] at stepped
      split at stepped
      · rename_i bound
        split at stepped
        · rename_i empty
          simp only [Option.some.injEq] at stepped
          subst stepped
          exact scanned_bounded inv id rfl (passed_next passed bound fun held => absurd empty held)
        · simp only [Option.some.injEq] at stepped
          subst stepped
          exact scanned_bounded inv id rfl passed
      · rename_i bound
        simp only [Option.some.injEq] at stepped
        subst stepped
        exact scanned_bounded inv id rfl ⟨passed.1, fun other below => passed.2 other (by omega)⟩
  | scanOlder current index =>
      have passed := scan current index (by rw [pc]; rfl)
      simp only [updateStep, pc] at stepped
      split at stepped
      · rename_i bound
        split at stepped
        · simp only [Option.some.injEq] at stepped
          subst stepped
          exact unscanned_bounded inv id rfl
        · rename_i epoch held
          split at stepped
          · simp only [Option.some.injEq] at stepped
            subst stepped
            exact unscanned_bounded inv id rfl
          · rename_i newer
            simp only [Option.some.injEq] at stepped
            subst stepped
            have slot := inv.slot _ epoch held
            exact scanned_bounded inv id rfl (passed_next passed bound fun _ => by omega)
      · simp at stepped
  | beforeHook current =>
      have passed := scan current workers (by rw [pc]; rfl)
      simp only [updateStep, pc, Option.some.injEq] at stepped
      subst stepped
      refine update_bounded inv id _ rfl rfl ?_
      intro value next at_
      simp only [scanned, Option.some.injEq, Prod.mk.injEq] at at_
      obtain ⟨rfl, rfl⟩ := at_
      exact passed
  | compareExchange current =>
      have passed := scan current workers (by rw [pc]; rfl)
      simp only [updateStep, pc] at stepped
      split at stepped
      · rename_i unchanged
        subst unchanged
        simp only [Option.some.injEq] at stepped
        subst stepped
        exact increment_bounded inv id passed
      · simp only [Option.some.injEq] at stepped
        subst stepped
        exact unscanned_bounded inv id rfl
  | hookRead =>
      simp only [updateStep, pc, Option.some.injEq] at stepped
      subst stepped
      exact unscanned_bounded inv id rfl
  | hookDone prev =>
      simp only [updateStep, pc, Option.some.injEq] at stepped
      subst stepped
      have settled : Bounded (before.set id { before.thread id with updating := .hookPrev }) :=
        unscanned_bounded inv id rfl
      exact ⟨settled.slot, settled.loaded, settled.checking, settled.inside, settled.scan⟩
  | hookPrev =>
      simp only [updateStep, pc, Option.some.injEq] at stepped
      subst stepped
      have settled : Bounded (before.set id { before.thread id with updating := .idle }) :=
        unscanned_bounded inv id rfl
      exact ⟨settled.slot, settled.loaded, settled.checking, settled.inside, settled.scan⟩


theorem step_bounded {before after : State workers} (event : Event workers) (inv : Bounded before)
    (stepped : step before event = some after) : Bounded after := by
  cases event with
  | tick amount =>
      simp only [step, Option.some.injEq] at stepped
      subst stepped
      exact ⟨inv.slot, inv.loaded, inv.checking, inv.inside, inv.scan⟩
  | enter id =>
      simp only [step, Option.ite_none_right_eq_some, Option.some.injEq] at stepped
      obtain ⟨_, rfl⟩ := stepped
      exact announce_bounded inv id _ rfl rfl (by simp) (by simp) (by simp)
  | announceStep id => exact announceStep_bounded inv stepped
  | unannounce id =>
      simp only [step, Option.ite_none_right_eq_some, Option.some.injEq] at stepped
      obtain ⟨_, rfl⟩ := stepped
      have settled : Bounded (before.set id
        { before.thread id with announcing := .outside, taken := [] }) :=
        announce_bounded inv id _ rfl rfl (by simp) (by simp) (by simp)
      have kept (other : Fin workers) (epoch : Nat)
          (held : Function.update before.last id none other = some epoch) :
          before.last other = some epoch ∧ other ≠ id := by
        by_cases here : other = id
        · subst here; simp at held
        · exact ⟨by simpa [here] using held, here⟩
      refine ⟨fun other epoch held => settled.slot other epoch (kept other epoch held).1,
        settled.loaded, ?_, ?_, ?_⟩
      · intro other current at_
        by_cases here : other = id
        · subst here; simp at at_
        · simpa [here] using settled.checking other current at_
      · intro other at_
        by_cases here : other = id
        · subst here; simp at at_
        · simpa [here] using settled.inside other at_
      · intro other current index at_
        have old := settled.scan other current index at_
        refine ⟨old.1, fun slot below held => old.2 slot below ?_⟩
        obtain ⟨epoch, some_⟩ := Option.ne_none_iff_exists'.mp held
        rw [State.set_last, (kept slot epoch some_).1]
        simp
  | beginUpdate id =>
      simp only [step, Option.ite_none_right_eq_some, Option.some.injEq] at stepped
      obtain ⟨_, rfl⟩ := stepped
      exact update_bounded inv id _ rfl rfl (by simp [scanned])
  | updateStep id => exact updateStep_bounded inv stepped
  | openSnapshot id =>
      simp only [step, Option.ite_none_right_eq_some, Option.some.injEq] at stepped
      obtain ⟨_, rfl⟩ := stepped
      exact update_bounded inv id _ rfl rfl (inv.scan id)
  | closeSnapshot id =>
      simp only [step, Option.ite_none_right_eq_some, Option.some.injEq] at stepped
      obtain ⟨_, rfl⟩ := stepped
      exact update_bounded inv id _ rfl rfl (inv.scan id)
  | callWriteStamp id =>
      simp only [step, Option.ite_none_right_eq_some, Option.some.injEq] at stepped
      obtain ⟨_, rfl⟩ := stepped
      exact update_bounded inv id _ rfl rfl (inv.scan id)
  | returnWriteStamp id stamp =>
      simp only [step] at stepped
      split at stepped
      · simp only [Option.ite_none_right_eq_some, Option.some.injEq] at stepped
        obtain ⟨_, rfl⟩ := stepped
        exact update_bounded inv id _ rfl rfl (inv.scan id)
      · simp at stepped

/-! The stamps of the hooks. While a thread runs its after hooks its own slot
keeps the next increment from happening, so the hooks of different increments
never overlap. `start` and `startPrev` are the clock at the last increment and at
the one before it; done_stamp lags behind the latter. -/

def Hooking : UpdatePc → Prop
  | .hookRead | .hookDone _ | .hookPrev => True
  | _ => False

/-- The assumption on callers: update_epoch runs only in announced threads. -/
def callersAnnounced (state : State workers) : Event workers → Prop
  | .beginUpdate id => (state.thread id).announcing = .inside
  | _ => True

instance (state : State workers) (event : Event workers) :
    Decidable (callersAnnounced state event) :=
  match event with
  | .beginUpdate id => inferInstanceAs (Decidable ((state.thread id).announcing = .inside))
  | .tick _ | .enter _ | .announceStep _ | .unannounce _ | .updateStep _ | .openSnapshot _
  | .closeSnapshot _ | .callWriteStamp _ | .returnWriteStamp _ _ => .isTrue trivial

structure Settled (start startPrev clock epoch : Nat) (thread : Thread) : Prop where
  updater : thread.updating ≠ .idle → thread.announcing = .inside
  since : thread.announcing = .inside → startPrev ≤ thread.since ∧ thread.since ≤ clock ∧
    (thread.wrote = epoch → start ≤ thread.since)
  hooked : Hooking thread.updating → thread.wrote + 1 = epoch ∧ thread.currentStamp ≤ start
  read : ∀ prev, thread.updating = .hookDone prev → prev ≤ startPrev
  before : ∀ current, thread.updating = .compareExchange current → thread.currentStamp ≤ clock
  snapshot : ∀ stamp, thread.localStamp = some stamp →
    thread.announcing = .inside ∧ thread.since ≤ stamp ∧ stamp ≤ clock
  call : ∀ called, thread.stampCall = some called →
    thread.announcing = .inside ∧ thread.since ≤ called ∧ called ≤ clock
  taken : ∀ stamp ∈ thread.taken, thread.announcing = .inside →
    thread.since < stamp ∧ stamp ≤ clock

structure Stamped (start startPrev : Nat) (state : State workers) : Prop where
  order : startPrev ≤ start ∧ start ≤ state.clock
  done : state.doneStamp ≤ startPrev
  prev : state.prevStamp ≤ start
  pending : ∀ id, Hooking (state.thread id).updating → state.prevStamp ≤ startPrev
  single : ∀ id other, Hooking (state.thread id).updating → Hooking (state.thread other).updating →
    id = other
  each : ∀ id, Settled start startPrev state.clock state.currentEpoch (state.thread id)

theorem initial_stamped (clock : Nat) :
    Stamped clock clock (initial clock : State workers) := by
  refine ⟨⟨Nat.le_refl _, Nat.le_refl _⟩, Nat.le_refl _, Nat.le_refl _, ?_, ?_, ?_⟩
  · intro id hooking; exact hooking.elim
  · intro id other hooking; exact hooking.elim
  · intro id
    constructor <;> simp [initial, fresh, Hooking]

theorem settled_later {start startPrev clock later epoch : Nat} {thread : Thread}
    (settled : Settled start startPrev clock epoch thread) (grows : clock ≤ later) :
    Settled start startPrev later epoch thread := by
  obtain ⟨updater, since, hooked, read, before, snapshot, call, taken⟩ := settled
  refine ⟨updater, ?_, hooked, read, ?_, ?_, ?_, ?_⟩
  · intro at_; have := since at_; exact ⟨this.1, by omega, this.2.2⟩
  · intro current at_; have := before current at_; omega
  · intro stamp at_; have := snapshot stamp at_; exact ⟨this.1, this.2.1, by omega⟩
  · intro called at_; have := call called at_; exact ⟨this.1, this.2.1, by omega⟩
  · intro stamp member at_; have := taken stamp member at_; exact ⟨this.1, by omega⟩

-- Steps that neither end a hook nor move the epoch only have to settle their own thread.
theorem set_stamped {start startPrev : Nat} {state : State workers}
    (inv : Stamped start startPrev state) (id : Fin workers) (thread : Thread)
    (hooks : Hooking thread.updating → Hooking (state.thread id).updating)
    (settled : Settled start startPrev state.clock state.currentEpoch thread) :
    Stamped start startPrev (state.set id thread) := by
  have back (other : Fin workers)
    (hooking : Hooking ((state.set id thread).thread other).updating) :
      Hooking (state.thread other).updating := by
    by_cases here : other = id
    · subst here; exact hooks (by simpa using hooking)
    · simpa [here] using hooking
  refine ⟨inv.order, inv.done, inv.prev, fun other hooking => inv.pending other
    (back other hooking),
    fun one other first second => inv.single one other (back one first) (back other second), ?_⟩
  intro other
  by_cases here : other = id
  · subst here; simpa using settled
  · simpa [here] using inv.each other

theorem settled_quiet {start startPrev clock epoch : Nat} {thread : Thread}
    (away : thread.announcing ≠ .inside) (idle : thread.updating = .idle)
    (unread : thread.localStamp = none) (uncalled : thread.stampCall = none) :
    Settled start startPrev clock epoch thread := by
  constructor <;> simp [away, idle, unread, uncalled, Hooking]

theorem quiet_of_settled {start startPrev clock epoch : Nat} {thread : Thread}
    (settled : Settled start startPrev clock epoch thread) (away : thread.announcing ≠ .inside) :
    thread.updating = .idle ∧ thread.localStamp = none ∧ thread.stampCall = none := by
  refine ⟨?_, ?_, ?_⟩
  · by_contra busy
    exact away (settled.updater busy)
  · by_contra held
    obtain ⟨stamp, open_⟩ := Option.ne_none_iff_exists'.mp held
    exact away (settled.snapshot stamp open_).1
  · by_contra held
    obtain ⟨called, open_⟩ := Option.ne_none_iff_exists'.mp held
    exact away (settled.call called open_).1

theorem announceStep_stamped {start startPrev : Nat} {before after : State workers}
    {id : Fin workers} (inv : Stamped start startPrev before)
    (stepped : announceStep before id = some after) : Stamped start startPrev after := by
  have quiet := quiet_of_settled (inv.each id)
  cases pc : (before.thread id).announcing with
  | outside => simp [announceStep, pc] at stepped
  | inside => simp [announceStep, pc] at stepped
  | load =>
      obtain ⟨idle, unread, uncalled⟩ := quiet (by simp [pc])
      simp only [announceStep, pc, Option.some.injEq] at stepped
      subst stepped
      exact set_stamped inv id _ (fun hooking => hooking)
        (settled_quiet (by simp) idle unread uncalled)
  | exchange current =>
      obtain ⟨idle, unread, uncalled⟩ := quiet (by simp [pc])
      simp only [announceStep, pc, Option.some.injEq] at stepped
      subst stepped
      have settled := set_stamped inv id { before.thread id with
        announcing := .check current, wrote := before.currentEpoch } (fun hooking => hooking)
        (settled_quiet (by simp) idle unread uncalled)
      exact ⟨settled.order, settled.done, settled.prev, settled.pending, settled.single,
        settled.each⟩
  | check current =>
      obtain ⟨idle, unread, uncalled⟩ := quiet (by simp [pc])
      simp only [announceStep, pc] at stepped
      split at stepped
      · simp only [Option.some.injEq] at stepped
        subst stepped
        refine set_stamped inv id _ (fun hooking => hooking) ?_
        have order := inv.order
        constructor <;> simp [idle, unread, uncalled, Hooking]
        omega
      · simp only [Option.some.injEq] at stepped
        subst stepped
        exact set_stamped inv id _ (fun hooking => hooking)
          (settled_quiet (by simp) idle unread uncalled)

-- Moves of update_epoch outside its hooks and its compare-exchange.
theorem settled_update {start startPrev clock epoch : Nat} {thread : Thread}
    (settled : Settled start startPrev clock epoch thread) (busy : thread.updating ≠ .idle)
    (next : UpdatePc) (calm : ¬ Hooking next) (early : ∀ current, next ≠ .compareExchange current) :
    Settled start startPrev clock epoch { thread with updating := next } := by
  have inside := settled.updater busy
  refine ⟨fun _ => inside, settled.since, fun hooking => absurd hooking calm, ?_,
    fun current at_ => absurd at_ (early current), settled.snapshot, settled.call, settled.taken⟩
  intro prev at_
  change next = .hookDone prev at at_
  subst at_
  exact absurd trivial calm

theorem hooked_inside {start startPrev : Nat} {state : State workers} {id : Fin workers}
    (inv : Stamped start startPrev state) (hooking : Hooking (state.thread id).updating) :
    (state.thread id).announcing = .inside := by
  apply (inv.each id).updater
  intro idle
  simp [idle, Hooking] at hooking

/-- The increment itself: every announced thread announced the current epoch, in
particular no thread is still running the hooks of the previous increment. -/
theorem increment_stamped {start startPrev : Nat} {state : State workers} {id : Fin workers}
    (inv : Stamped start startPrev state) (bounded : Bounded state)
    (pc : (state.thread id).updating = .compareExchange state.currentEpoch) :
    Stamped state.clock start
      { state.set id { state.thread id with updating := .hookRead } with
        currentEpoch := state.currentEpoch + 1 } := by
  have passed := bounded.scan id _ workers (by rw [pc]; rfl)
  have current (other : Fin workers) (inside : (state.thread other).announcing = .inside) :
      (state.thread other).wrote = state.currentEpoch := by
    have slot := bounded.inside other inside
    have newest := passed.2 other other.isLt (by simp [slot])
    have bound := bounded.slot other _ slot
    omega
  have nobody (other : Fin workers) : ¬ Hooking (state.thread other).updating := by
    intro hooking
    have behind := ((inv.each other).hooked hooking).1
    have here := current other (hooked_inside inv hooking)
    omega
  have order := inv.order
  have only (other : Fin workers)
      (hooking : Hooking ((state.set id { state.thread id with updating := .hookRead }).thread
        other).updating) :
      other = id := by
    by_contra here
    exact nobody other (by simpa [here] using hooking)
  refine ⟨⟨order.2, Nat.le_refl _⟩, ?_, ?_, ?_, ?_, ?_⟩
  · have done := inv.done
    simp only [State.set_doneStamp]; omega
  · have prev := inv.prev
    simp only [State.set_prevStamp]; omega
  · intro _ _; exact inv.prev
  · intro one other first second
    rw [only one first, only other second]
  · intro other
    have old := inv.each other
    by_cases here : other = id
    · subst here
      have inside := old.updater (by simp [pc])
      have wrote := current other inside
      have since := old.since inside
      have stamp := old.before _ pc
      refine ⟨?_, ?_, ?_, ?_, ?_, ?_, ?_, ?_⟩ <;> simp only [State.set_self]
      · exact fun _ => inside
      · exact fun _ => ⟨since.2.2 wrote, since.2.1, fun same => by omega⟩
      · exact fun _ => ⟨by omega, stamp⟩
      · simp
      · simp
      · exact old.snapshot
      · exact old.call
      · exact old.taken
    · simp only [State.set_other _ _ here]
      refine ⟨old.updater, ?_, fun hooking => absurd hooking (nobody other), ?_, old.before,
        old.snapshot, old.call, old.taken⟩
      · intro inside
        have since := old.since inside
        have wrote := current other inside
        exact ⟨since.2.2 wrote, since.2.1, fun same => by omega⟩
      · intro prev at_
        exact absurd (show Hooking (state.thread other).updating by rw [at_]; trivial)
          (nobody other)

-- The updater goes on and takes no stamp.
theorem move_stamped {start startPrev : Nat} {state : State workers}
    (inv : Stamped start startPrev state) (id : Fin workers)
    (busy : (state.thread id).updating ≠ .idle) {next : UpdatePc} (calm : ¬ Hooking next)
    (early : ∀ value, next ≠ .compareExchange value) :
    Stamped start startPrev (state.set id { state.thread id with updating := next }) :=
  set_stamped inv id _ (fun hooking => absurd hooking calm)
    (settled_update (inv.each id) busy next calm early)

theorem updateStep_stamped {start startPrev : Nat} {before after : State workers}
    {id : Fin workers} (inv : Stamped start startPrev before) (bounded : Bounded before)
    (stepped : updateStep before id = some after) :
    ∃ next nextPrev, Stamped next nextPrev after := by
  have own := inv.each id
  cases pc : (before.thread id).updating with
  | idle => simp [updateStep, pc] at stepped
  | load =>
      simp only [updateStep, pc, Option.some.injEq] at stepped
      subst stepped
      exact ⟨_, _, move_stamped inv id (by simp [pc]) (by simp [Hooking]) (by simp)⟩
  | scanUnset current index =>
      have busy : (before.thread id).updating ≠ .idle := by simp [pc]
      simp only [updateStep, pc] at stepped
      split at stepped
      · split at stepped <;> simp only [Option.some.injEq] at stepped <;> subst stepped
        · exact ⟨_, _, move_stamped inv id busy (by simp [Hooking]) (by simp)⟩
        · exact ⟨_, _, move_stamped inv id busy (by simp [Hooking]) (by simp)⟩
      · simp only [Option.some.injEq] at stepped
        subst stepped
        exact ⟨_, _, move_stamped inv id busy (by simp [Hooking]) (by simp)⟩
  | scanOlder current index =>
      have busy : (before.thread id).updating ≠ .idle := by simp [pc]
      simp only [updateStep, pc] at stepped
      split at stepped
      · split at stepped
        · simp only [Option.some.injEq] at stepped
          subst stepped
          exact ⟨_, _, move_stamped inv id busy (by simp [Hooking]) (by simp)⟩
        · split at stepped <;> simp only [Option.some.injEq] at stepped <;> subst stepped
          · exact ⟨_, _, move_stamped inv id busy (by simp [Hooking]) (by simp)⟩
          · exact ⟨_, _, move_stamped inv id busy (by simp [Hooking]) (by simp)⟩
      · simp at stepped
  | beforeHook current =>
      simp only [updateStep, pc, Option.some.injEq] at stepped
      subst stepped
      have inside := own.updater (by simp [pc])
      refine ⟨_, _, set_stamped inv id _ (fun hooking => hooking.elim) ?_⟩
      exact ⟨fun _ => inside, own.since, fun hooking => hooking.elim, by simp,
        fun _ _ => Nat.le_refl _,
        own.snapshot, own.call, own.taken⟩
  | compareExchange current =>
      simp only [updateStep, pc] at stepped
      split at stepped
      · rename_i unchanged
        subst unchanged
        simp only [Option.some.injEq] at stepped
        subst stepped
        exact ⟨_, _, increment_stamped inv bounded pc⟩
      · simp only [Option.some.injEq] at stepped
        subst stepped
        exact ⟨_, _, move_stamped inv id (by simp [pc]) (by simp [Hooking]) (by simp)⟩
  | hookRead =>
      simp only [updateStep, pc, Option.some.injEq] at stepped
      subst stepped
      have hooking : Hooking (before.thread id).updating := by rw [pc]; trivial
      have pending := inv.pending id hooking
      refine ⟨_, _, set_stamped inv id _ (fun _ => hooking) ?_⟩
      refine ⟨fun _ => hooked_inside inv hooking, own.since, fun _ => own.hooked hooking,
        ?_, by simp,
        own.snapshot, own.call, own.taken⟩
      intro prev at_
      simp only [UpdatePc.hookDone.injEq] at at_
      omega
  | hookDone prev =>
      simp only [updateStep, pc, Option.some.injEq] at stepped
      subst stepped
      have hooking : Hooking (before.thread id).updating := by rw [pc]; trivial
      have settled := set_stamped inv id { before.thread id with updating := .hookPrev }
        (fun _ => hooking)
        ⟨fun _ => hooked_inside inv hooking, own.since, fun _ => own.hooked hooking, by simp, by
          simp,
          own.snapshot, own.call, own.taken⟩
      exact ⟨_, _, settled.order, own.read prev pc, settled.prev, settled.pending, settled.single,
        settled.each⟩
  | hookPrev =>
      simp only [updateStep, pc, Option.some.injEq] at stepped
      subst stepped
      have hooking : Hooking (before.thread id).updating := by rw [pc]; trivial
      have settled := set_stamped inv id { before.thread id with updating := .idle }
        (fun idle => idle.elim) (settled_update own (by simp [pc]) _ (by simp [Hooking]) (by simp))
      have nobody (other : Fin workers)
          (still : Hooking ((before.set id { before.thread id with updating := .idle }).thread
            other).updating) :
          False := by
        by_cases here : other = id
        · subst here; simp [Hooking] at still
        · exact here (inv.single other id (by simpa [here] using still) hooking)
      exact ⟨_, _, settled.order, settled.done, (own.hooked hooking).2,
        fun other still => (nobody other still).elim, settled.single, settled.each⟩

theorem step_stamped {start startPrev : Nat} {before after : State workers} (event : Event workers)
    (inv : Stamped start startPrev before) (bounded : Bounded before)
    (kept : callersAnnounced before event) (stepped : step before event = some after) :
    ∃ next nextPrev, Stamped next nextPrev after := by
  cases event with
  | tick amount =>
      simp only [step, Option.some.injEq] at stepped
      subst stepped
      have order := inv.order
      refine ⟨_, _, ⟨order.1, ?_⟩, inv.done, inv.prev, inv.pending, inv.single, ?_⟩
      · simp only; omega
      · intro id; exact settled_later (inv.each id) (Nat.le_add_right _ _)
  | enter id =>
      simp only [step, Option.ite_none_right_eq_some, Option.some.injEq] at stepped
      obtain ⟨⟨outside, idle⟩, rfl⟩ := stepped
      have quiet := quiet_of_settled (inv.each id) (by simp [outside])
      exact ⟨_, _, set_stamped inv id _ (fun hooking => hooking)
        (settled_quiet (by simp) quiet.1 quiet.2.1 quiet.2.2)⟩
  | announceStep id => exact ⟨_, _, announceStep_stamped inv stepped⟩
  | unannounce id =>
      simp only [step, Option.ite_none_right_eq_some, Option.some.injEq] at stepped
      obtain ⟨⟨_, idle, unread, uncalled⟩, rfl⟩ := stepped
      have settled := set_stamped inv id
        { before.thread id with announcing := .outside, taken := [] }
        (fun hooking => hooking) (settled_quiet (by simp) idle unread uncalled)
      exact ⟨_, _, settled.order, settled.done, settled.prev, settled.pending, settled.single,
        settled.each⟩
  | beginUpdate id =>
      simp only [step, Option.ite_none_right_eq_some, Option.some.injEq] at stepped
      obtain ⟨_, rfl⟩ := stepped
      have own := inv.each id
      refine ⟨_, _, set_stamped inv id _ (fun hooking => hooking.elim) ?_⟩
      exact ⟨fun _ => kept, own.since, fun hooking => hooking.elim, by simp, by simp,
        own.snapshot, own.call, own.taken⟩
  | updateStep id => exact updateStep_stamped inv bounded stepped
  | openSnapshot id =>
      simp only [step, Option.ite_none_right_eq_some, Option.some.injEq] at stepped
      obtain ⟨⟨inside, _⟩, rfl⟩ := stepped
      have own := inv.each id
      refine ⟨_, _, set_stamped inv id _ (fun hooking => hooking) ?_⟩
      refine ⟨own.updater, own.since, own.hooked, own.read, own.before, ?_, own.call, own.taken⟩
      intro stamp at_
      simp only [Option.some.injEq] at at_
      have since := own.since inside
      exact ⟨inside, by simp only; omega, by omega⟩
  | closeSnapshot id =>
      simp only [step, Option.ite_none_right_eq_some, Option.some.injEq] at stepped
      obtain ⟨_, rfl⟩ := stepped
      have own := inv.each id
      refine ⟨_, _, set_stamped inv id _ (fun hooking => hooking) ?_⟩
      exact ⟨own.updater, own.since, own.hooked, own.read, own.before, by simp, own.call, own.taken⟩
  | callWriteStamp id =>
      simp only [step, Option.ite_none_right_eq_some, Option.some.injEq] at stepped
      obtain ⟨⟨inside, _⟩, rfl⟩ := stepped
      have own := inv.each id
      refine ⟨_, _, set_stamped inv id _ (fun hooking => hooking) ?_⟩
      refine ⟨own.updater, own.since, own.hooked, own.read, own.before, own.snapshot, ?_, own.taken⟩
      intro called at_
      simp only [Option.some.injEq] at at_
      have since := own.since inside
      exact ⟨inside, by simp only; omega, by omega⟩
  | returnWriteStamp id stamp =>
      simp only [step] at stepped
      split at stepped
      · rename_i called open_
        simp only [Option.ite_none_right_eq_some, Option.some.injEq] at stepped
        obtain ⟨range, rfl⟩ := stepped
        have own := inv.each id
        have call := own.call called open_
        refine ⟨_, _, set_stamped inv id _ (fun hooking => hooking) ?_⟩
        refine ⟨own.updater, own.since, own.hooked, own.read, own.before, own.snapshot, by simp, ?_⟩
        intro value member inside
        rcases List.mem_cons.mp member with same | old
        · subst same; exact ⟨by simp only; omega, range.2⟩
        · exact own.taken value old inside
      · simp at stepped

/-- Everything the callers of the epoch structure rely on, in one invariant. -/
def Invariant (state : State workers) : Prop :=
  Bounded state ∧ ∃ start startPrev, Stamped start startPrev state

theorem initial_invariant (clock : Nat) : Invariant (initial clock : State workers) :=
  ⟨initial_bounded clock, clock, clock, initial_stamped clock⟩

theorem step_invariant {before after : State workers} (event : Event workers)
    (inv : Invariant before) (kept : callersAnnounced before event)
    (stepped : step before event = some after) :
    Invariant after := by
  obtain ⟨bounded, start, startPrev, stamped⟩ := inv
  exact ⟨step_bounded event bounded stepped, step_stamped event stamped bounded kept stepped⟩

theorem done_le_since {state : State workers} (inv : Invariant state) {id : Fin workers}
    (inside : (state.thread id).announcing = .inside) :
    state.doneStamp ≤ (state.thread id).since ∧ (state.thread id).since ≤ state.clock := by
  obtain ⟨_, start, startPrev, stamped⟩ := inv
  have since := (stamped.each id).since inside
  have done := stamped.done
  omega

theorem done_le_clock {state : State workers} (inv : Invariant state) :
    state.doneStamp ≤ state.clock := by
  obtain ⟨_, start, startPrev, stamped⟩ := inv
  have done := stamped.done
  have order := stamped.order
  omega

theorem done_le_snapshot {state : State workers} (inv : Invariant state) {id : Fin workers}
    {stamp : Nat} (reading : (state.thread id).localStamp = some stamp) :
    state.doneStamp ≤ stamp ∧ stamp ≤ state.clock := by
  have inv' := inv
  obtain ⟨_, start, startPrev, stamped⟩ := inv
  obtain ⟨inside, since, bound⟩ := (stamped.each id).snapshot stamp reading
  have done := (done_le_since inv' inside).1
  omega

theorem done_lt_taken {state : State workers} (inv : Invariant state) {id : Fin workers}
    (inside : (state.thread id).announcing = .inside) {stamp : Nat}
    (member : stamp ∈ (state.thread id).taken) : state.doneStamp < stamp := by
  have inv' := inv
  obtain ⟨_, start, startPrev, stamped⟩ := inv
  have taken := (stamped.each id).taken stamp member inside
  have done := (done_le_since inv' inside).1
  omega

/-! What one step leaves alone. The memory pool and the versioned pointers run
their own steps beside these and use only the following facts. -/

def actor : Event workers → Option (Fin workers)
  | .tick _ => none
  | .enter id | .announceStep id | .unannounce id | .beginUpdate id | .updateStep id
  | .openSnapshot id | .closeSnapshot id | .callWriteStamp id | .returnWriteStamp id _ => some id

/-- The change of one thread: its slot, its snapshot, its stamp call and its
announcement each stay as they are or change by the named event. -/
structure Moves (before after : State workers) (event : Event workers) (id : Fin workers) :
    Prop where
  slot : after.last id ≠ none →
    (before.last id ≠ none ∧ (after.thread id).wrote = (before.thread id).wrote) ∨
    ∃ current, (before.thread id).announcing = .exchange current ∧ event = .announceStep id ∧
      (after.thread id).wrote = before.currentEpoch
  snapshot : (after.thread id).localStamp = (before.thread id).localStamp ∨
    (event = .openSnapshot id ∧ (after.thread id).localStamp = some before.clock) ∨
    (event = .closeSnapshot id ∧ (after.thread id).localStamp = none)
  call : (after.thread id).stampCall = (before.thread id).stampCall ∨
    (event = .callWriteStamp id ∧ (after.thread id).stampCall = some before.clock) ∨
    ∃ stamp, event = .returnWriteStamp id stamp ∧ (after.thread id).stampCall = none
  stay : (before.thread id).announcing = .inside → event ≠ .unannounce id →
    (after.thread id).announcing = .inside ∧ (after.thread id).since = (before.thread id).since ∧
    (before.thread id).taken ⊆ (after.thread id).taken

theorem moves_self {before after : State workers} {event : Event workers} {id : Fin workers}
    (thread : after.thread id = before.thread id) (last : after.last id = before.last id) :
    Moves before after event id := by
  refine ⟨fun held => Or.inl ⟨last ▸ held, by rw [thread]⟩, Or.inl (by rw [thread]),
    Or.inl (by rw [thread]), ?_⟩
  intro inside _
  rw [thread]
  exact ⟨inside, rfl, List.Subset.refl _⟩

theorem announceStep_moves {before after : State workers} {id : Fin workers}
    (stepped : announceStep before id = some after) :
    after.clock = before.clock ∧ after.currentEpoch = before.currentEpoch ∧
    (∀ other, other ≠ id → after.thread other = before.thread other ∧
      after.last other = before.last other) ∧
    Moves before after (.announceStep id) id := by
  cases pc : (before.thread id).announcing with
  | outside => simp [announceStep, pc] at stepped
  | inside => simp [announceStep, pc] at stepped
  | load =>
      simp only [announceStep, pc, Option.some.injEq] at stepped
      subst stepped
      refine ⟨rfl, rfl, fun other different => by simp [different], ?_⟩
      constructor <;> simp [pc]
  | exchange current =>
      simp only [announceStep, pc, Option.some.injEq] at stepped
      subst stepped
      refine ⟨rfl, rfl, fun other different => by simp [different], ?_⟩
      constructor <;> simp [pc]
  | check current =>
      simp only [announceStep, pc] at stepped
      split at stepped <;> simp only [Option.some.injEq] at stepped <;> subst stepped
      all_goals
        refine ⟨rfl, rfl, fun other different => by simp [different], ?_⟩
        constructor <;> simp [pc]

theorem updateStep_moves {before after : State workers} {id : Fin workers}
    (stepped : updateStep before id = some after) :
    after.clock = before.clock ∧ before.currentEpoch ≤ after.currentEpoch ∧
    (∀ other, other ≠ id → after.thread other = before.thread other ∧
      after.last other = before.last other) ∧
    Moves before after (.updateStep id) id := by
  have shape : after.clock = before.clock ∧ before.currentEpoch ≤ after.currentEpoch ∧
      after.last = before.last ∧ ∃ next stamp, after.thread = Function.update before.thread id
        { before.thread id with updating := next, currentStamp := stamp } := by
    unfold updateStep at stepped
    simp only at stepped
    repeat' split at stepped
    all_goals simp only [Option.some.injEq, reduceCtorEq] at stepped
    all_goals subst stepped
    all_goals exact ⟨rfl, by simp_all [State.set], rfl, _, _, rfl⟩
  obtain ⟨clock, epoch, last, next, stamp, thread⟩ := shape
  refine ⟨clock, epoch, fun other different => by simp [thread, last, different], ?_⟩
  constructor <;> simp [thread, last]

/-- A step never turns the clock or the epoch back, and moves only its own thread. -/
theorem step_moves {before after : State workers} (event : Event workers)
    (stepped : step before event = some after) :
    before.clock ≤ after.clock ∧ before.currentEpoch ≤ after.currentEpoch ∧
    (∀ id, actor event ≠ some id →
      after.thread id = before.thread id ∧ after.last id = before.last id) ∧
    ∀ id, Moves before after event id := by
  -- Only the actor has anything to show.
  have finish (clock : before.clock ≤ after.clock)
    (epoch : before.currentEpoch ≤ after.currentEpoch)
      (same : ∀ id, actor event ≠ some id →
        after.thread id = before.thread id ∧ after.last id = before.last id)
      (own : ∀ id, actor event = some id → Moves before after event id) :
      before.clock ≤ after.clock ∧ before.currentEpoch ≤ after.currentEpoch ∧
      (∀ id, actor event ≠ some id →
        after.thread id = before.thread id ∧ after.last id = before.last id) ∧
      ∀ id, Moves before after event id := by
    refine ⟨clock, epoch, same, fun id => ?_⟩
    by_cases here : actor event = some id
    · exact own id here
    · exact moves_self (same id here).1 (same id here).2
  have others (id : Fin workers) (only : ∀ other, other ≠ id →
      after.thread other = before.thread other ∧ after.last other = before.last other)
      (acts : actor event = some id) (other : Fin workers) (idle : actor event ≠ some other) :
      after.thread other = before.thread other ∧ after.last other = before.last other :=
    only other fun here => idle (here ▸ acts)
  cases event with
  | tick amount =>
      simp only [step, Option.some.injEq] at stepped
      subst stepped
      exact finish (Nat.le_add_right _ _) (Nat.le_refl _) (fun _ _ => ⟨rfl, rfl⟩) (by simp [actor])
  | announceStep id =>
      obtain ⟨clock, epoch, only, own⟩ := announceStep_moves stepped
      refine finish clock.ge epoch.ge (others id only rfl) ?_
      rintro _ ⟨⟩
      exact own
  | updateStep id =>
      obtain ⟨clock, epoch, only, own⟩ := updateStep_moves stepped
      refine finish clock.ge epoch (others id only rfl) ?_
      rintro _ ⟨⟩
      exact own
  | returnWriteStamp id stamp =>
      simp only [step] at stepped
      split at stepped
      · simp only [Option.ite_none_right_eq_some, Option.some.injEq] at stepped
        obtain ⟨_, rfl⟩ := stepped
        refine finish (Nat.le_refl _) (Nat.le_refl _)
          (others id (fun other different => by simp [different]) rfl) ?_
        rintro _ ⟨⟩
        constructor <;> simp
      · simp at stepped
  | enter id | unannounce id | beginUpdate id | openSnapshot id | closeSnapshot id
  | callWriteStamp id =>
      simp only [step, Option.ite_none_right_eq_some, Option.some.injEq] at stepped
      obtain ⟨guard, rfl⟩ := stepped
      refine finish (Nat.le_refl _) (Nat.le_refl _)
        (others id (fun other different => by simp [different]) rfl) ?_
      rintro _ ⟨⟩
      constructor <;> simp [guard]

theorem callWriteStamp_thread {before after : State workers} {id : Fin workers}
    (stepped : step before (.callWriteStamp id) = some after) :
    after.clock = before.clock ∧
    after.thread id = { before.thread id with stampCall := some before.clock } := by
  simp only [step, Option.ite_none_right_eq_some, Option.some.injEq] at stepped
  obtain ⟨_, rfl⟩ := stepped
  exact ⟨rfl, State.set_self ..⟩

theorem returnWriteStamp_thread {before after : State workers} {id : Fin workers} {stamp : Nat}
    (stepped : step before (.returnWriteStamp id stamp) = some after) :
    ∃ called, (before.thread id).stampCall = some called ∧ called < stamp ∧ stamp ≤ before.clock ∧
    after.clock = before.clock ∧ after.thread id =
      { before.thread id with stampCall := none, taken := stamp :: (before.thread id).taken } := by
  simp only [step] at stepped
  split at stepped
  · rename_i called open_
    simp only [Option.ite_none_right_eq_some, Option.some.injEq] at stepped
    obtain ⟨range, rfl⟩ := stepped
    exact ⟨called, open_, range.1, range.2, rfl, State.set_self ..⟩
  · simp at stepped

end SetBench.Epoch
