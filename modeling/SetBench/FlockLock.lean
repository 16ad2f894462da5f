import Mathlib
import SetBench.FlockLog

/-! try_lock_result of a lock-free lock (common/artifact_flock/lf_lock.h), called outside any
other section: any number of threads with a thunk each. A thread that takes the lock runs its own
thunk, one that finds it taken runs the thunk it finds; both run it with the log of its descriptor.
A descriptor is new when it is allocated and lasts, as acquired_pool.h keeps it from reuse; new_obj
numbers the objects of all thunks, and memory_pool does not hand out one twice. -/
namespace SetBench.FlockLock

open Flock Transition

-- "a pointer to a descriptor when locked and a counter when unlocked"
inductive LockEntry where
  | free (counter : Nat)
  | held (d : Nat)
  deriving DecidableEq, Repr

inductive Pc where
  | idle
  | loading (f : Thunk)
  -- the lock is its own: f runs at once
  | inside (f : Thunk)
  -- cas(current, my_descriptor): its read() and its compare-and-swap
  | checking (mine counter : Nat)
  | installing (mine counter : Nat)
  | rereading (mine : Nat)
  | asking (mine : Nat) (current : LockEntry)
  -- help_descriptor: before it acquires the descriptor and after
  | helping (mine d : Nat)
  | acquired (mine d : Nat)
  -- the thunk of `d`, as its helper number `h`
  | running (mine d h : Nat)
  -- clear(d): its load and its compare-and-swap
  | clearing (mine d result : Nat)
  | freeing (mine d result : Nat)

structure State where
  memory : Memory
  lck : LockEntry
  -- the thunk, the log and `done` of each descriptor; their memory and pool are those of all
  descriptor : Nat → Flock.State
  objects : Nat
  counter : Nat → Nat
  -- descriptor::thread_id
  owner : Nat → Nat
  descriptors : Nat
  runs : Nat
  pc : Nat → Pc
  -- history: descriptors in the order they took the lock, thunks as they were done, what calls
  -- returned
  taken : List Nat
  sections : List (Nat × Nat)
  returned : List (Nat × Option Nat)

def start (memory : Memory) : State where
  memory := memory
  lck := .free 0
  descriptor := fun _ => Flock.start (.ret 0) memory
  objects := 0
  counter := fun _ => 0
  owner := fun _ => 0
  descriptors := 0
  runs := 0
  pc := fun _ => .idle
  taken := []
  sections := []
  returned := []

inductive Event where
  | call (t : Nat) (f : Thunk)
  | step (t : Nat)

namespace State

def goto (s : State) (t : Nat) (pc : Pc) : State := { s with pc := Function.update s.pc t pc }

-- new_obj_acquired(f, counter)
def newDescriptor (s : State) (t : Nat) (f : Thunk) (counter : Nat) : State :=
  { s with
    descriptor := Function.update s.descriptor s.descriptors (Flock.start f s.memory)
    counter := Function.update s.counter s.descriptors counter
    owner := Function.update s.owner s.descriptors t
    descriptors := s.descriptors + 1 }

-- retire_acquired_result, and the call returns.
def leave (s : State) (t mine : Nat) (result : Option Nat) : State :=
  { s.goto t .idle with returned := s.returned ++ [(mine, result)] }

-- with_log(Log(&lg_array, 0), f) begins.
def enter (s : State) (t mine d : Nat) : State :=
  let log := s.descriptor d
  { s.goto t (.running mine d s.runs) with
    descriptor := Function.update s.descriptor d (log.put s.runs (.ready ⟨0, 0⟩ (.op log.thunk)))
    runs := s.runs + 1 }

-- The log of `d` over the memory and the pool that all share.
def view (s : State) (d : Nat) : Flock.State :=
  { s.descriptor d with memory := s.memory, objects := s.objects }

-- One step of a thunk that leaves the descriptor as `after`.
def ran (s : State) (d : Nat) (after : Flock.State) : State :=
  { s with
    memory := after.memory
    objects := after.objects
    descriptor := Function.update s.descriptor d after }

-- The first helper at the end of a thunk sets done.
def finish (s : State) (d result : Nat) : State :=
  if (s.descriptor d).done then s else { s with sections := s.sections ++ [(d, result)] }

def advance (s : State) (t : Nat) : Option State :=
  match s.pc t with
  | .idle | .inside _ => none
  | .loading f =>
      match s.lck with
      | .free counter =>
          some ((s.newDescriptor t f counter).goto t (.checking s.descriptors counter))
      | .held d =>
          if s.owner d = t then some (s.goto t (.inside f))
          else some ((s.newDescriptor t f 0).goto t (.helping s.descriptors d))
  | .checking mine counter =>
      some (s.goto t (if s.lck = .free counter then .installing mine counter else .rereading mine))
  | .installing mine counter =>
      if s.lck = .free counter then
        some { s.goto t (.rereading mine) with lck := .held mine, taken := s.taken ++ [mine] }
      else some (s.goto t (.rereading mine))
  | .rereading mine => some (s.goto t (.asking mine s.lck))
  | .asking mine current =>
      if (s.descriptor mine).done ∨ current = .held mine then some (s.enter t mine mine)
      else some (s.leave t mine none)
  | .helping mine d =>
      if s.lck = .held d then some (s.goto t (.acquired mine d)) else some (s.leave t mine none)
  | .acquired mine d =>
      if s.lck = .held d then some (s.enter t mine d) else some (s.leave t mine none)
  | .running mine d h =>
      match (s.view d).advance h with
      | none => none
      | some after =>
          match after.helpers h with
          | .finished result =>
              some (((s.finish d result).ran d after).goto t (.clearing mine d result))
          | _ => some (s.ran d after)
  | .clearing mine d result =>
      if s.lck = .held d then some (s.goto t (.freeing mine d result))
        else some (s.leave t mine (if mine = d then some result else none))
  | .freeing mine d result =>
      let next := s.leave t mine (if mine = d then some result else none)
      if s.lck = .held d then some { next with lck := .free (s.counter d + 1) } else some next

end State

def step (s : State) : Event → Option State
  | .call t f =>
      match s.pc t with
      | .idle => some (s.goto t (.loading f))
      | _ => none
  | .step t => s.advance t

/-- Thunks that are run one after the other, each alone, with their results and the objects they
take, none of which an earlier one has taken. -/
inductive Serial (thunk : Nat → Thunk) (memory : Memory) :
    List (Nat × Nat) → List Nat → Memory → Prop where
  | nil : Serial thunk memory [] [] memory
  | snoc {sections : List (Nat × Nat)} {used objects : List Nat} {before after : Memory}
      {d result : Nat} (earlier : Serial thunk memory sections used before)
      (ran : (thunk d).run before objects = some (result, after))
      (fresh : ∀ o ∈ objects, o ∉ used) :
      Serial thunk memory (sections ++ [(d, result)]) (used ++ objects) after

end SetBench.FlockLock
