import Mathlib
import SetBench.Transition

/-! The stamp schemes timestamp_read, timestamp_write and timestamp_read_write of
artifact_verlib/timestamps.h. One step is one load, fetch_add or compare_exchange on
`stamp`; the delay loops only pass time. The clock counts steps, so one call returns
before another starts exactly when its last step has the smaller clock. -/
namespace SetBench.Stamps

open Transition

inductive Scheme where
  | read
  | write
  | readWrite
  deriving DecidableEq, Repr

/-- get_read_stamp or get_write_stamp. -/
inductive Kind where
  | readStamp
  | writeStamp
  deriving DecidableEq, Repr

inductive Pc where
  | idle
  | load (kind : Kind) (started : Nat)
  | reload (kind : Kind) (started : Nat) (s : Nat)
  | increment (kind : Kind) (started : Nat) (s : Nat)
  deriving DecidableEq, Repr

structure Call where
  kind : Kind
  started : Nat
  finished : Nat
  stamp : Nat
  deriving DecidableEq, Repr

/-- `backoff` is the scheme's thread-local read_delay, write_delay or adaptive_backoff. -/
structure World where
  stamp : Nat
  backoff : Nat → Nat
  pc : Nat → Pc
  clock : Nat
  calls : List Call

inductive Event where
  | call (tid : Nat) (kind : Kind)
  | move (tid : Nat)
  deriving DecidableEq, Repr

def less (a b : Nat) : Bool := a < b

-- What the call returns right after its first load, if it does.
def onLoad : Scheme → Kind → Nat → Option Nat
  | .read, .readStamp, _ => none
  | .read, .writeStamp, s => some s
  | .write, .readStamp, s => some s
  | .write, .writeStamp, _ => none
  | .readWrite, .readStamp, s => if s % 2 = 0 then some s else none
  | .readWrite, .writeStamp, s => if s % 2 = 1 then some s else none

-- What it returns when the second load finds the stamp moved on.
def onMoved : Scheme → Kind → Nat → Nat
  | .write, .writeStamp, s => s + 1
  | _, _, s => s

-- What it returns after its fetch_add or compare_exchange.
def onIncrement : Kind → Nat → Nat
  | .readStamp, s => s
  | .writeStamp, s => s + 1

-- fetch_add increments whatever is there, compare_exchange_strong only the loaded value
def incremented : Scheme → Nat → Nat → Nat
  | .read, _, stamp => stamp + 1
  | .write, _, stamp => stamp + 1
  | .readWrite, s, stamp => if stamp = s then s + 1 else stamp

-- `delay` is fixed at construction; -1 lets timestamp_read and timestamp_write adapt
def adapted (scheme : Scheme) (delay : Int) (won : Bool) (backoff : Nat) : Nat :=
  if scheme = .readWrite ∨ delay = -1 then
    if won then
      if backoff ≥ 2 then backoff / 2 else backoff
    else
      if backoff < 256 then backoff * 2 else backoff
  else backoff

def initialStamp : Scheme → Nat
  | .write => 2
  | _ => 1

def initial (scheme : Scheme) : World where
  stamp := initialStamp scheme
  backoff := fun _ => 1
  pc := fun _ => .idle
  clock := 0
  calls := []

def World.goto (w : World) (tid : Nat) (pc : Pc) : World :=
  { w with pc := Function.update w.pc tid pc, clock := w.clock + 1 }

def World.finish (w : World) (tid : Nat) (kind : Kind) (started result : Nat) : World :=
  { w.goto tid .idle with calls := ⟨kind, started, w.clock, result⟩ :: w.calls }

def step (scheme : Scheme) (delay : Int) (w : World) : Event → Option World
  | .call tid kind =>
      match w.pc tid with
      | .idle => some (w.goto tid (.load kind w.clock))
      | _ => none
  | .move tid =>
      match w.pc tid with
      | .idle => none
      | .load kind started =>
          match onLoad scheme kind w.stamp with
          | some result => some (w.finish tid kind started result)
          | none => some (w.goto tid (.reload kind started w.stamp))
      | .reload kind started s =>
          if w.stamp = s then some (w.goto tid (.increment kind started s))
          else some (w.finish tid kind started (onMoved scheme kind s))
      | .increment kind started s =>
          some { w.finish tid kind started (onIncrement kind s) with
            stamp := incremented scheme s w.stamp
            backoff := Function.update w.backoff tid
              (adapted scheme delay (w.stamp = s) (w.backoff tid)) }

/-- The second load of timestamp_read_write::get_write_stamp finds what the first one
did: its early exit is not taken. -/
def Steady (scheme : Scheme) (w : World) : Event → Prop
  | .call _ _ => True
  | .move tid =>
      match w.pc tid with
      | .reload .writeStamp _ s => scheme = .readWrite → w.stamp = s
      | _ => True

instance (scheme : Scheme) (w : World) : (event : Event) → Decidable (Steady scheme w event)
  | .call _ _ => .isTrue trivial
  | .move tid => by
      dsimp only [Steady]
      cases w.pc tid with
      | reload kind started s => cases kind <;> infer_instance
      | _ => exact .isTrue trivial

/-- What two calls promise each other when the first returns before the second starts. -/
structure Separated (first second : Call) : Prop where
  readWrite : first.kind = .readStamp → second.kind = .writeStamp →
    less first.stamp second.stamp = true
  writeRead : first.kind = .writeStamp → second.kind = .readStamp → less second.stamp first.stamp =
    false

/-- The least value the stamp has once the call has returned. -/
def reach : Scheme → Kind → Nat → Nat
  | .read, .readStamp, r => r + 1
  | .readWrite, .readStamp, r => if r % 2 = 0 then r else r + 1
  | _, _, r => r

variable {scheme : Scheme} {delay : Int} {w after : World} {s : Nat}

/-- The three exits of a call that loaded `s` first. -/
inductive Exit (scheme : Scheme) (kind : Kind) (s : Nat) : Nat → Prop where
  | load {result : Nat} (now : onLoad scheme kind s = some result) : Exit scheme kind s result
  | moved (later : onLoad scheme kind s = none)
    (steady : ¬ (scheme = .readWrite ∧ kind = .writeStamp)) :
      Exit scheme kind s (onMoved scheme kind s)
  | increment (later : onLoad scheme kind s = none) : Exit scheme kind s (onIncrement kind s)

-- A call's answer is separated from every earlier one that its first load reflects.
theorem exit_separated {kind : Kind} {first : Call} {result started finished : Nat}
    (exit : Exit scheme kind s result) (past : reach scheme first.kind first.stamp ≤ s) :
    Separated first ⟨kind, started, finished, result⟩ := by
  obtain ⟨kind₁, started₁, finished₁, stamp₁⟩ := first
  constructor
  · rintro ⟨⟩ ⟨⟩
    simp only [less, decide_eq_true_eq]
    cases exit <;> cases scheme <;> simp_all [reach, onLoad, onMoved, onIncrement] <;> grind
  · rintro ⟨⟩ ⟨⟩
    simp only [less, decide_eq_false_iff_not]
    cases exit <;> cases scheme <;> simp_all [reach, onLoad, onMoved, onIncrement]

-- A call whose first load was `s` and that goes on has its kind's work to do.
theorem moved_reach {kind : Kind} (later : onLoad scheme kind s = none) {stamp : Nat}
    (up : s < stamp) :
    reach scheme kind (onMoved scheme kind s) ≤ stamp := by
  cases scheme <;> cases kind <;> simp_all [reach, onLoad, onMoved]
  omega

theorem incremented_reach {kind : Kind} (later : onLoad scheme kind s = none) {stamp : Nat}
    (up : s ≤ stamp) :
    reach scheme kind (onIncrement kind s) ≤ incremented scheme s stamp := by
  cases scheme <;> cases kind <;> simp_all [reach, onLoad, onIncrement, incremented] <;> grind

theorem le_incremented (scheme : Scheme) (s stamp : Nat) : stamp ≤ incremented scheme s stamp := by
  cases scheme <;> simp only [incremented]
  · omega
  · omega
  · split <;> omega

theorem load_reach {kind : Kind} {result : Nat} (now : onLoad scheme kind s = some result) :
    reach scheme kind result ≤ s := by
  cases scheme <;> cases kind <;> simp_all [reach, onLoad]
  grind

/-! Runs. -/

def Pc.started : Pc → Option Nat
  | .idle => none
  | .load _ started | .reload _ started _ | .increment _ started _ => some started

def Pc.loaded : Pc → Option (Kind × Nat × Nat)
  | .idle | .load _ _ => none
  | .reload kind started s | .increment kind started s => some (kind, started, s)

structure Inv (scheme : Scheme) (w : World) : Prop where
  reached : ∀ c ∈ w.calls, reach scheme c.kind c.stamp ≤ w.stamp
  ordered : ∀ c ∈ w.calls, c.started < c.finished ∧ c.finished < w.clock
  begun : ∀ tid started, (w.pc tid).started = some started → started < w.clock
  loaded : ∀ tid kind started s, (w.pc tid).loaded = some (kind, started, s) →
    onLoad scheme kind s = none ∧
    s ≤ w.stamp ∧ ∀ c ∈ w.calls, c.finished < started → reach scheme c.kind c.stamp ≤ s
  separated : ∀ first ∈ w.calls, ∀ second ∈ w.calls, first.finished < second.started →
    Separated first second

theorem initial_inv (scheme : Scheme) : Inv scheme (initial scheme) := by
  constructor <;> simp [initial, Pc.started, Pc.loaded]

theorem goto_inv (inv : Inv scheme w) {tid : Nat} {pc : Pc}
    (begun : ∀ started, pc.started = some started → started ≤ w.clock)
    (loaded : ∀ kind started s, pc.loaded = some (kind, started, s) → onLoad scheme kind s = none ∧
      s ≤ w.stamp ∧ ∀ c ∈ w.calls, c.finished < started → reach scheme c.kind c.stamp ≤ s) :
    Inv scheme (w.goto tid pc) := by
  refine ⟨inv.reached, fun c member => ?_, fun tid' started held => ?_,
    fun tid' kind started s held => ?_, inv.separated⟩
  · exact ⟨(inv.ordered c member).1, Nat.lt_succ_of_lt (inv.ordered c member).2⟩
  · simp only [World.goto] at held ⊢
    by_cases same : tid' = tid
    · subst same
      rw [Function.update_self] at held
      exact Nat.lt_succ_of_le (begun started held)
    · rw [Function.update_of_ne same] at held
      exact Nat.lt_succ_of_lt (inv.begun tid' started held)
  · simp only [World.goto] at held ⊢
    by_cases same : tid' = tid
    · subst same
      rw [Function.update_self] at held
      exact loaded kind started s held
    · rw [Function.update_of_ne same] at held
      exact inv.loaded tid' kind started s held

/-- A call returns: the stamp has not gone back and covers the answer. -/
theorem finish_inv (inv : Inv scheme w) {tid : Nat} {kind : Kind} {started result stamp : Nat}
    {backoff : Nat → Nat} (begun : (w.pc tid).started = some started)
    (exit : Exit scheme kind s result)
    (past : ∀ c ∈ w.calls, c.finished < started → reach scheme c.kind c.stamp ≤ s)
    (up : w.stamp ≤ stamp) (covered : reach scheme kind result ≤ stamp) :
    Inv scheme { w.finish tid kind started result with stamp := stamp, backoff := backoff } := by
  have before := inv.begun tid started begun
  obtain ⟨reached, ordered, begun', loaded, separated⟩ : Inv scheme (w.goto tid .idle) :=
    goto_inv inv (fun _ absurd => nomatch absurd) fun _ _ _ absurd => nomatch absurd
  refine ⟨fun c member => ?_, fun c member => ?_, begun', fun tid' kind' started' s' held => ?_,
    fun first one second two apart => ?_⟩
  · rcases List.mem_cons.mp member with rfl | old
    · exact covered
    · exact (reached c old).trans up
  · rcases List.mem_cons.mp member with rfl | old
    · exact ⟨before, Nat.lt_succ_self _⟩
    · exact ordered c old
  · obtain ⟨later, most, all⟩ := loaded tid' kind' started' s' held
    refine ⟨later, most.trans up, fun c member early => ?_⟩
    rcases List.mem_cons.mp member with rfl | old
    · -- a call that returns now does not precede one that has started
      have others : (w.pc tid').started = some started' := by
        by_cases same : tid' = tid
        · subst same
          simp only [World.finish, World.goto, Function.update_self, Pc.loaded] at held
          cases held
        · simp only [World.finish, World.goto, Function.update_of_ne same] at held
          cases place : w.pc tid' <;> simp_all [Pc.loaded, Pc.started]
      exact absurd early (Nat.not_lt.mpr (inv.begun tid' started' others).le)
    · exact all c old early
  · rcases List.mem_cons.mp one with rfl | old
    · rcases List.mem_cons.mp two with rfl | older
      · exact absurd apart (Nat.not_lt.mpr before.le)
      · have order := inv.ordered second older
        exact absurd apart (Nat.not_lt.mpr (order.1.trans order.2).le)
    · rcases List.mem_cons.mp two with rfl | older
      · exact exit_separated exit (past first old apart)
      · exact separated first old second older apart

theorem step_inv (inv : Inv scheme w) (event : Event) (steady : Steady scheme w event)
    (stepped : step scheme delay w event = some after) : Inv scheme after := by
  cases event with
  | call tid kind =>
      simp only [step] at stepped
      split at stepped <;> cases stepped
      refine goto_inv inv ?_ fun _ _ _ absurd => nomatch absurd
      rintro started ⟨⟩
      exact le_refl _
  | move tid =>
      have begun := inv.begun tid
      have loaded := inv.loaded tid
      simp only [step] at stepped
      simp only [Steady] at steady
      cases place : w.pc tid with
      | idle => simp [place] at stepped
      | load kind started =>
          simp only [place] at stepped
          have past : ∀ c ∈ w.calls, c.finished < started → reach scheme c.kind c.stamp ≤ w.stamp :=
            fun c member _ => inv.reached c member
          cases exit : onLoad scheme kind w.stamp with
          | some result =>
              simp only [exit, Option.some.injEq] at stepped
              subst stepped
              exact finish_inv inv (by rw [place]; rfl) (.load exit) past (le_refl _)
                (load_reach exit)
          | none =>
              simp only [exit, Option.some.injEq] at stepped
              subst stepped
              refine goto_inv inv ?_ ?_
              · rintro _ ⟨⟩
                exact (begun started (by rw [place]; rfl)).le
              · rintro _ _ _ ⟨⟩
                exact ⟨exit, le_refl _, past⟩
      | reload kind started s =>
          simp only [place] at stepped steady
          obtain ⟨later, most, past⟩ := loaded kind started s (by rw [place]; rfl)
          by_cases same : w.stamp = s
          · rw [if_pos same] at stepped
            cases stepped
            refine goto_inv inv ?_ ?_
            · rintro _ ⟨⟩
              exact (begun started (by rw [place]; rfl)).le
            · rintro _ _ _ ⟨⟩
              exact ⟨later, most, past⟩
          · rw [if_neg same] at stepped
            cases stepped
            have up : s < w.stamp := Nat.lt_of_le_of_ne most (Ne.symm same)
            refine finish_inv inv (by rw [place]; rfl) (.moved later ?_) past (le_refl _)
              (moved_reach later up)
            rintro ⟨rfl, rfl⟩
            exact same (steady rfl)
      | increment kind started s =>
          simp only [place, Option.some.injEq] at stepped
          subst stepped
          obtain ⟨later, most, past⟩ := loaded kind started s (by rw [place]; rfl)
          exact finish_inv inv (by rw [place]; rfl) (.increment later) past
            (le_incremented scheme s w.stamp)
            (incremented_reach later most)

/-- Stamp separation: in a run where no get_write_stamp of timestamp_read_write takes
its early exit, a write stamp is above every read stamp handed out before its call, and
a read stamp is not below a write stamp handed out before its call. -/
theorem stamp_separation (scheme : Scheme) (delay : Int) {events : List Event} {last : World}
    (run : Run (step scheme delay) (Steady scheme) (initial scheme) events last) :
    ∀ first ∈ last.calls, ∀ second ∈ last.calls, first.finished < second.started →
      Separated first second :=
  (run_invariant (Inv scheme) (initial_inv scheme)
    (fun _ event _ inv kept stepped => step_inv inv event kept stepped) run).separated

-- A read in write mode switches the mode, a write switches it back.
def modeSwitches : List Event :=
  [.call 0 .readStamp, .move 0, .move 0, .move 0, .call 1 .writeStamp, .move 1, .move 1, .move 1,
    .call 0 .readStamp, .move 0, .move 0, .move 0]

theorem mode_switches_separated :
    ∃ last, Run (step .readWrite (-1)) (Steady .readWrite) (initial .readWrite) modeSwitches last ∧
    last.calls = [⟨.readStamp, 8, 11, 3⟩, ⟨.writeStamp, 4, 7, 3⟩, ⟨.readStamp, 0, 3, 1⟩] ∧
    ∀ first ∈ last.calls, ∀ second ∈ last.calls, first.finished < second.started →
      Separated first second := by
  obtain ⟨last, replayed, calls⟩ : ∃ last, replay (step .readWrite (-1)) (Steady .readWrite)
    modeSwitches (initial .readWrite) =
      some last ∧ last.calls = [⟨.readStamp, 8, 11, 3⟩, ⟨.writeStamp, 4, 7, 3⟩,
        ⟨.readStamp, 0, 3, 1⟩] :=
    ⟨_, rfl, rfl⟩
  have run := run_of_replay modeSwitches replayed
  exact ⟨last, run, calls, stamp_separation .readWrite (-1) run⟩

-- Thread 2 loads 2 in read mode; thread 1 moves the stamp to 3; thread 2 returns its 2.
def earlyExit : List Event :=
  [.call 0 .readStamp, .move 0, .move 0, .move 0, .call 0 .readStamp, .move 0, .call 2 .writeStamp,
    .move 2,
    .call 1 .writeStamp, .move 1, .move 1, .move 1, .move 2]

theorem early_exit_not_separated :
    ∃ last, Run (step .readWrite (-1)) free (initial .readWrite) earlyExit last ∧
    ¬ ∀ first ∈ last.calls, ∀ second ∈ last.calls, first.finished < second.started →
      Separated first second := by
  obtain ⟨last, replayed, calls⟩ : ∃ last, replay (step .readWrite (-1)) free earlyExit
    (initial .readWrite) = some last ∧
      last.calls = [⟨.writeStamp, 6, 12, 2⟩, ⟨.writeStamp, 8, 11, 3⟩, ⟨.readStamp, 4, 5, 2⟩,
        ⟨.readStamp, 0, 3, 1⟩] :=
    ⟨_, rfl, rfl⟩
  refine ⟨last, run_of_replay earlyExit replayed, fun separated => ?_⟩
  have pair := (separated ⟨.readStamp, 4, 5, 2⟩ (by simp [calls]) ⟨.writeStamp, 6, 12, 2⟩
    (by simp [calls]) (by decide)).readWrite rfl rfl
  simp [less] at pair

end SetBench.Stamps
