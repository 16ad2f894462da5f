import Mathlib
import SetBench.Transition

/-! dcssProvider of common/dcss/dcss_impl.h over the re-usable descriptors of
descriptors_impl2.h. One step is one read, write or compare-and-swap of a shared word;
the memcpy of a descriptor reads it word by word. The words that serve as addr1 and the
words that serve as addr2 are two memories: the first is written by anyone, the second
by dcss only. Sequence numbers do not wrap. -/
namespace SetBench.Dcss

open Transition

variable {V : Type}

structure Op (V : Type) where
  addr1 : Nat
  old1 : V
  addr2 : Nat
  old2 : V
  new2 : V
  deriving DecidableEq, Repr

-- The words of a descriptor after its mutables, in memory order.
inductive Field where
  | addr1
  | old1
  | addr2
  | old2
  | new2
  deriving DecidableEq, Repr

def Field.next : Field → Option Field
  | .addr1 => some .old1
  | .old1 => some .addr2
  | .addr2 => some .old2
  | .old2 => some .new2
  | .new2 => none

-- One word of `source` is copied over `target`.
def Op.put (target source : Op V) : Field → Op V
  | .addr1 => { target with addr1 := source.addr1 }
  | .old1 => { target with old1 := source.old1 }
  | .addr2 => { target with addr2 := source.addr2 }
  | .old2 => { target with old2 := source.old2 }
  | .new2 => { target with new2 := source.new2 }

inductive State where
  | undecided
  | succeeded
  | failed
  deriving DecidableEq, Repr

structure Mutables where
  seq : Nat
  state : State
  deriving DecidableEq, Repr

structure Desc (V : Type) where
  mutables : Mutables
  op : Op V

/-- A word that dcss may change: an untagged value or a tagptr. -/
inductive Word (V : Type) where
  | value (v : V)
  | tag (tid seq : Nat)
  deriving DecidableEq, Repr

inductive Task (V : Type) where
  | dcss (op : Op V) (seq : Nat)
  | read (a : Nat)

/-- The arguments of dcssHelp: the tagptr, the snapshot with its sequence number, and
helpingOther. -/
structure Help (V : Type) where
  tid : Nat
  seq : Nat
  snapSeq : Nat
  snap : Op V
  helpingOther : Bool

/-- Positions in the loops of dcssPtr and dcssRead. `instant` is when `val1` was read. -/
inductive Place (V : Type) where
  | attempt
  | copyMutables (tid seq : Nat)
  | copy (tid seq snapSeq : Nat) (got : Op V) (field : Field)
  | validate (tid seq snapSeq : Nat) (got : Op V)
  | readAddr1 (help : Help V)
  | readMutables (help : Help V) (val1 : V) (instant : Nat)
  | casState (help : Help V) (val1 : V) (instant : Nat) (seen : Nat)
  | finish (help : Help V) (val1 : V) (success : Bool)

inductive Pc (V : Type) where
  | idle
  | descNew (op : Op V)
  | renew (op : Op V) (seen : Mutables)
  | fill (op : Op V) (field : Field)
  | initialized (op : Op V)
  | publish (op : Op V) (seen : Mutables)
  | makeTag (op : Op V)
  | work (task : Task V) (place : Place V)

inductive Result (V : Type) where
  | success
  | failedAddr1 (val : V)
  | failedAddr2 (val : V)
  | ignored
  deriving DecidableEq, Repr

structure Thread (V : Type) where
  pc : Pc V
  started : Nat

/-- The history of one dcssPtr call: when its tagptr was installed, the verdict of the
state with the instant at which the deciding thread read addr1, and how it returned. -/
structure Record (V : Type) where
  op : Op V
  started : Nat
  installed : Option Nat
  verdict : Option (Bool × Nat)
  returned : Option (Nat × Result V)

structure ReadCall (V : Type) where
  addr : Nat
  started : Nat
  finished : Nat
  value : V

/-- Shared memory and threads; then, for the reader of the history only, the clock, both
memories at every instant so far, the dcssPtr calls by thread and sequence number, and
the dcssRead calls. -/
structure World (V : Type) where
  control : Nat → V
  data : Nat → Word V
  desc : Nat → Desc V
  thread : Nat → Thread V
  clock : Nat
  controlAt : Nat → Nat → V
  dataAt : Nat → Nat → Word V
  record : Nat → Nat → Option (Record V)
  reads : List (ReadCall V)

inductive Job (V : Type) where
  | dcssPtr (op : Op V)
  | dcssRead (a : Nat)

inductive Event (V : Type) where
  | call (tid : Nat) (job : Job V)
  | move (tid : Nat)
  | store (a : Nat) (v : V)

def initial (control data : Nat → V) (blank : Op V) : World V where
  control := control
  data := fun a => .value (data a)
  desc := fun _ => ⟨⟨1, .undecided⟩, blank⟩
  thread := fun _ => ⟨.idle, 0⟩
  clock := 0
  controlAt := fun _ => control
  dataAt := fun _ a => .value (data a)
  record := fun _ _ => none
  reads := []

namespace World

def tick (w : World V) : World V :=
  { w with
    clock := w.clock + 1
    controlAt := Function.update w.controlAt (w.clock + 1) w.control
    dataAt := Function.update w.dataAt (w.clock + 1) w.data }

def goto (w : World V) (tid : Nat) (pc : Pc V) : World V :=
  tick { w with thread := Function.update w.thread tid ⟨pc, (w.thread tid).started⟩ }

def setMutables (w : World V) (tid : Nat) (mutables : Mutables) : World V :=
  { w with desc := Function.update w.desc tid ⟨mutables, (w.desc tid).op⟩ }

def setOp (w : World V) (tid : Nat) (op : Op V) : World V :=
  { w with desc := Function.update w.desc tid ⟨(w.desc tid).mutables, op⟩ }

def setData (w : World V) (a : Nat) (word : Word V) : World V :=
  { w with data := Function.update w.data a word }

def setRecord (w : World V) (tid seq : Nat) (record : Option (Record V)) : World V :=
  { w with record := Function.update w.record tid (Function.update (w.record tid) seq record) }

def start (w : World V) (tid : Nat) (pc : Pc V) : World V :=
  tick { w with thread := Function.update w.thread tid ⟨pc, w.clock⟩ }

def returnDcss (w : World V) (tid seq : Nat) (result : Result V) : World V :=
  (w.setRecord tid seq ((w.record tid seq).map fun r =>
    { r with returned := some (w.clock, result) })).goto tid .idle

def returnRead (w : World V) (tid a : Nat) (v : V) : World V :=
  { w with reads := ⟨a, (w.thread tid).started, w.clock, v⟩ :: w.reads }.goto tid .idle

-- dcssHelp returns: dcssHelpOther drops the result and its caller loops.
def leave (w : World V) (tid : Nat) (task : Task V) (helpingOther : Bool) (result : Result V) :
    World V :=
  if helpingOther then w.goto tid (.work task .attempt)
  else
    match task with
    | .dcss _ seq => w.returnDcss tid seq result
    | .read _ => w.goto tid .idle

def install (w : World V) (tid seq : Nat) (op : Op V) : World V :=
  (w.setData op.addr2 (.tag tid seq)).setRecord tid seq
    ((w.record tid seq).map fun r => { r with installed := some w.clock })

-- The state of the descriptor is decided on what was read from addr1 at `instant`.
def decide (w : World V) (tid seq : Nat) (success : Bool) (instant : Nat) : World V :=
  (w.setMutables tid ⟨seq, if success then .succeeded else .failed⟩).setRecord tid seq
    ((w.record tid seq).map fun r => { r with verdict := some (success, instant) })

end World

variable [DecidableEq V]

/-- One step inside dcssPtr once its descriptor is published, or inside dcssRead. `blank`
is what the uninitialised snapshot of dcssHelpOther holds. -/
def workStep (blank : Op V) (w : World V) (tid : Nat) (task : Task V) : Place V → World V
  | .attempt =>
      match task with
      | .dcss op seq =>
          match w.data op.addr2 with
          | .tag other otherSeq => w.goto tid (.work task (.copyMutables other otherSeq))
          | .value v =>
              if v = op.old2 then
                (w.install tid seq op).goto tid (.work task (.readAddr1 ⟨tid, seq, seq, op, false⟩))
              else w.returnDcss tid seq (.failedAddr2 v)
      | .read a =>
          match w.data a with
          | .tag other otherSeq => w.goto tid (.work task (.copyMutables other otherSeq))
          | .value v => w.returnRead tid a v
  | .copyMutables other seq =>
      w.goto tid (.work task (.copy other seq (w.desc other).mutables.seq blank .addr1))
  | .copy other seq snapSeq got field =>
      let got := got.put (w.desc other).op field
      match field.next with
      | some next => w.goto tid (.work task (.copy other seq snapSeq got next))
      | none => w.goto tid (.work task (.validate other seq snapSeq got))
  | .validate other seq snapSeq got =>
      if (w.desc other).mutables.seq = seq then
        w.goto tid (.work task (.readAddr1 ⟨other, seq, snapSeq, got, true⟩))
      else w.goto tid (.work task .attempt)
  | .readAddr1 help =>
      w.goto tid (.work task (.readMutables help (w.control help.snap.addr1) w.clock))
  | .readMutables help val1 instant =>
      if (w.desc help.tid).mutables.seq ≠ help.snapSeq then w.leave tid task help.helpingOther
        .ignored
      else w.goto tid (.work task (.casState help val1 instant (w.desc help.tid).mutables.seq))
  | .casState help val1 instant seen =>
      let current := (w.desc help.tid).mutables
      if current = ⟨seen, .undecided⟩ then
        (w.decide help.tid seen (val1 = help.snap.old1) instant).goto tid
          (.work task (.finish help val1 (val1 = help.snap.old1)))
      else if current.state ≠ .undecided then
        w.goto tid (.work task (.finish help val1 (current.state = .succeeded)))
      else if current.seq ≠ help.snapSeq then w.leave tid task help.helpingOther .ignored
      else w.goto tid (.work task (.casState help val1 instant current.seq))
  | .finish help val1 success =>
      let next := if w.data help.snap.addr2 = .tag help.tid help.seq then
          w.setData help.snap.addr2 (.value (if success then help.snap.new2 else help.snap.old2))
        else w
      next.leave tid task help.helpingOther (if success then .success else .failedAddr1 val1)

def step (blank : Op V) (w : World V) : Event V → Option (World V)
  | .store a v => some { w with control := Function.update w.control a v }.tick
  | .call tid job =>
      match (w.thread tid).pc, job with
      | .idle, .dcssPtr op => some (w.start tid (.descNew op))
      | .idle, .dcssRead a => some (w.start tid (.work (.read a) .attempt))
      | _, _ => none
  | .move tid =>
      match (w.thread tid).pc with
      | .idle => none
      | .descNew op => some (w.goto tid (.renew op (w.desc tid).mutables))
      | .renew op seen =>
          some ((w.setMutables tid ⟨seen.seq + 1, .undecided⟩).goto tid (.fill op .addr1))
      | .fill op field =>
          let w := w.setOp tid ((w.desc tid).op.put op field)
          match field.next with
          | some next => some (w.goto tid (.fill op next))
          | none => some (w.goto tid (.initialized op))
      | .initialized op => some (w.goto tid (.publish op (w.desc tid).mutables))
      | .publish op seen =>
          some (((w.setMutables tid ⟨seen.seq + 1, seen.state⟩).setRecord tid (seen.seq + 1)
            (some ⟨op, (w.thread tid).started, none, none, none⟩)).goto tid (.makeTag op))
      | .makeTag op => some (w.goto tid (.work (.dcss op (w.desc tid).mutables.seq) .attempt))
      | .work task place => some (workStep blank w tid task place)

end SetBench.Dcss
