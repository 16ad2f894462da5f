import Mathlib
import SetBench.Transition

/-! The log a thunk is run with (common/artifact_flock/lf_log.h) and the logged accesses of
lf_types.h. Any number of helpers run the thunk of one descriptor; a step is one read, write or
compare-and-swap of a shared word. Tags are not used again and an object or a log array is new
when it is taken, as tagged.h and the epochs give it. -/
namespace SetBench.Flock

open Transition

/-- A word of `flck::atomic`: the value and its tag. -/
structure Word where
  value : Nat
  tag : Nat
  deriving DecidableEq, Repr

def Word.next (old : Word) (value : Nat) : Word := ⟨value, old.tag + 1⟩

-- A log entry that is not null: what commit_value wrote, or the mark of skip_if_done_no_log.
inductive Entry where
  | word (w : Word)
  | object (o : Nat)
  | done
  deriving DecidableEq, Repr

/-- The body of a critical section, by what it does next. -/
inductive Thunk where
  | ret (result : Nat)
  | load (l : Nat) (rest : Nat → Thunk)
  | store (l v : Nat) (rest : Thunk)
  | cam (l old new : Nat) (rest : Thunk)
  | newObj (rest : Nat → Thunk)

abbrev Memory := Nat → Word

def Memory.write (memory : Memory) (l v : Nat) : Memory :=
  Function.update memory l ((memory l).next v)

/-- The thunk alone: its result and the memory it leaves, given the objects it takes. -/
def Thunk.run : Thunk → Memory → List Nat → Option (Nat × Memory)
  | .ret result, memory, [] => some (result, memory)
  | .ret _, _, _ :: _ => none
  | .load l rest, memory, objects => (rest (memory l).value).run memory objects
  | .store l v rest, memory, objects => rest.run (memory.write l v) objects
  | .cam l old new rest, memory, objects =>
      rest.run (if (memory l).value = old then memory.write l new else memory) objects
  | .newObj _, _, [] => none
  | .newObj rest, memory, o :: objects => (rest o).run memory objects

/-- Where a helper stands: before an operation, or at the mark that guards its write. -/
inductive Point where
  | op (thunk : Thunk)
  | mark (l : Nat) (old : Word) (v : Nat) (rest : Thunk)

def Point.after : Point → Entry → Point
  | .op (.load _ rest), .word w => .op (rest w.value)
  | .op (.store l v rest), .word w => .mark l w v rest
  | .op (.cam l old new rest), .word w => if w.value = old then .mark l w new rest else .op rest
  | .op (.newObj rest), .object o => .op (rest o)
  | .mark _ _ _ rest, .done => .op rest
  | point, _ => point

-- Log_Len
def logLen : Nat := 8

structure Log where
  vals : Nat
  count : Nat
  deriving DecidableEq, Repr

inductive Phase where
  | idle
  | ready (log : Log) (point : Point)
  | holding (log : Log) (point : Point) (entry : Entry)
  -- next_entry took a new array to link after the full one
  | linking (log : Log) (point : Point) (entry : Entry) (array : Nat)
  | reading (log : Log) (point : Point) (entry : Entry)
  | deciding (log : Log) (point : Point) (entry : Entry)
  | swapping (log : Log) (l : Nat) (old : Word) (v : Nat) (rest : Thunk)
  | marking (log : Log) (l : Nat) (old : Word) (v : Nat) (rest : Thunk)
  | finished (result : Nat)

structure State where
  thunk : Thunk
  memory : Memory
  entries : Nat → Nat → Option Entry
  next : Nat → Option Nat
  -- log arrays and objects taken so far
  arrays : Nat
  objects : Nat
  destructed : Nat → Nat
  helpers : Nat → Phase
  -- descriptor::done
  done : Bool
  -- history: the writes of other critical sections
  outside : List (Nat × Nat)

def start (thunk : Thunk) (memory : Memory) : State where
  thunk := thunk
  memory := memory
  entries := fun _ _ => none
  next := fun _ => none
  arrays := 1
  objects := 0
  destructed := fun _ => 0
  helpers := fun _ => .idle
  done := false
  outside := []

inductive Event where
  | help (h : Nat)
  | step (h : Nat)
  | write (l v : Nat)
  deriving DecidableEq

def State.put (s : State) (h : Nat) (phase : Phase) : State :=
  { s with helpers := Function.update s.helpers h phase }

-- current_entry of a log that next_entry has moved
def State.current (s : State) (log : Log) : Option Entry := s.entries log.vals (log.count - 1)

def State.setCurrent (s : State) (log : Log) (entry : Entry) : State :=
  { s with
    entries := Function.update s.entries log.vals
      (Function.update (s.entries log.vals) (log.count - 1) (some entry)) }

-- What the operation at a point brings to the log, and the counter of objects after it.
def State.propose (s : State) : Point → Option (Entry × Nat)
  | .op (.ret _) => none
  | .op (.load l _) | .op (.store l _ _) | .op (.cam l _ _ _) =>
      some (.word (s.memory l), s.objects)
  | .op (.newObj _) => some (.object s.objects, s.objects + 1)
  | .mark _ _ _ _ => some (.done, s.objects)

def Entry.lose : Entry → (Nat → Nat) → Nat → Nat
  | .object o, destructed => Function.update destructed o (destructed o + 1)
  | _, destructed => destructed

-- commit_value found another value: an object that lost goes back to the pool.
def State.adopt (s : State) (h : Nat) (log : Log) (point : Point) (mine found : Entry) : State :=
  { s with destructed := mine.lose s.destructed }.put h (.ready log (point.after found))

def State.advance (s : State) (h : Nat) : Option State :=
  match s.helpers h with
  | .idle | .finished _ => none
  | .ready log point =>
      match point, s.propose point with
      | .op (.ret result), _ => some { s.put h (.finished result) with done := true }
      | _, some (entry, objects) =>
          some { s.put h (.holding log point entry) with objects := objects }
      | _, none => none
  | .holding log point entry =>
      if log.count = logLen then
        match s.next log.vals with
        | some array => some (s.put h (.reading ⟨array, 1⟩ point entry))
        | none => some { s.put h (.linking log point entry s.arrays) with arrays := s.arrays + 1 }
      else some (s.put h (.reading ⟨log.vals, log.count + 1⟩ point entry))
  | .linking log point entry array =>
      match s.next log.vals with
      | some other => some (s.put h (.reading ⟨other, 1⟩ point entry))
      | none =>
          some { s.put h (.reading ⟨array, 1⟩ point entry) with
            next := Function.update s.next log.vals (some array) }
  | .reading log point entry =>
      match s.current log, point with
      | some found, _ => some (s.adopt h log point entry found)
      | none, .mark l old v rest => some (s.put h (.swapping log l old v rest))
      | none, .op _ => some (s.put h (.deciding log point entry))
  | .deciding log point entry =>
      match s.current log with
      | some found => some (s.adopt h log point entry found)
      | none => some ((s.setCurrent log entry).put h (.ready log (point.after entry)))
  | .swapping log l old v rest =>
      some ({ s with
        memory := if s.memory l = old then Function.update s.memory l (old.next v)
          else s.memory }.put h
        (.marking log l old v rest))
  | .marking log _ _ _ rest => some ((s.setCurrent log .done).put h (.ready log (.op rest)))

def step (s : State) : Event → Option State
  | .help h =>
      match s.helpers h with
      | .idle => some (s.put h (.ready ⟨0, 0⟩ (.op s.thunk)))
      | _ => none
  | .step h => s.advance h
  | .write l v => some { s with memory := s.memory.write l v, outside := s.outside ++ [(l, v)] }

/-- The lock is cleared after the thunk is done; only then do others write. -/
def Locked (s : State) : Event → Prop
  | .write _ _ => s.done = true
  | _ => True

instance (s : State) (e : Event) : Decidable (Locked s e) :=
  match e with
  | .write _ _ => inferInstanceAs (Decidable (s.done = true))
  | .help _ | .step _ => .isTrue trivial

end SetBench.Flock
