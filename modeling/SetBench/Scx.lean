import Mathlib
import SetBench.Transition

/-! SCXProvider of common/scx_provider.h over the re-usable descriptors of
descriptors_impl.h. One step is one read, write or compare-and-swap of a shared word; the
memcpy of a descriptor or of a node reads it word by word. Nodes are numbers and are not
used again; their fields change by SCX only. The copy that llx makes is of the fields: its
words marked and scxPtr are left out. Sequence numbers do not wrap. -/
namespace SetBench.Scx

open Transition

variable {V : Type}

/-- A handle: the dummy descriptor, or a thread's descriptor at a sequence number. -/
inductive Tag where
  | init
  | desc (tid seq : Nat)
  deriving DecidableEq, Repr

inductive State where
  | inProgress
  | committed
  | aborted
  deriving DecidableEq, Repr

structure Mutables where
  seq : Nat
  state : State
  allFrozen : Bool
  deriving DecidableEq, Repr

structure Dep where
  node : Nat
  finalize : Bool
  seen : Tag
  deriving DecidableEq, Repr

/-- The arguments of scxAddNode, call by call, and of scxExecute. -/
structure Op (V : Type) where
  deps : List Dep
  node : Nat
  index : Nat
  oldVal : V
  newVal : V

/-! The words of a descriptor after its mutables. -/

structure Body (V : Type) where
  oldVal : V
  newVal : V
  field : Nat × Nat
  numNodes : Nat
  nodes : Nat → Nat
  finalize : Nat → Bool
  seen : Nat → Tag

inductive Slot where
  | oldVal
  | newVal
  | field
  | numNodes
  | node (i : Nat)
  | finalize (i : Nat)
  | seen (i : Nat)
  deriving DecidableEq

inductive Write (V : Type) where
  | oldVal (v : V)
  | newVal (v : V)
  | field (f : Nat × Nat)
  | numNodes (n : Nat)
  | node (i n : Nat)
  | finalize (i : Nat) (b : Bool)
  | seen (i : Nat) (t : Tag)

def Body.write (body : Body V) : Write V → Body V
  | .oldVal v => { body with oldVal := v }
  | .newVal v => { body with newVal := v }
  | .field f => { body with field := f }
  | .numNodes n => { body with numNodes := n }
  | .node i n => { body with nodes := Function.update body.nodes i n }
  | .finalize i b => { body with finalize := Function.update body.finalize i b }
  | .seen i t => { body with seen := Function.update body.seen i t }

-- One word of the descriptor, as the write that copies it.
def Body.load (body : Body V) : Slot → Write V
  | .oldVal => .oldVal body.oldVal
  | .newVal => .newVal body.newVal
  | .field => .field body.field
  | .numNodes => .numNodes body.numNodes
  | .node i => .node i (body.nodes i)
  | .finalize i => .finalize i (body.finalize i)
  | .seen i => .seen i (body.seen i)

def slots (max : Nat) : List Slot :=
  [.oldVal, .newVal, .field, .numNodes] ++ (List.range max).map .node ++ (List.range max).map
    .finalize ++ (List.range max).map .seen

def Body.op (body : Body V) : Op V where
  deps := (List.range body.numNodes).map fun i => ⟨body.nodes i, body.finalize i, body.seen i⟩
  node := body.field.1
  index := body.field.2
  oldVal := body.oldVal
  newVal := body.newVal

-- scxAddNode for each node, from the index `ix` on.
def addNodes : Nat → List Dep → List (Write V)
  | _, [] => []
  | ix, d :: rest =>
      .node ix d.node :: .finalize ix d.finalize :: .seen ix d.seen :: .numNodes
        (ix + 1) :: addNodes (ix + 1) rest

-- scxInit, the calls of scxAddNode, and the first lines of scxExecute.
def Op.writes (op : Op V) : List (Write V) :=
  .numNodes 0 :: (addNodes 0 op.deps ++ [.oldVal op.oldVal, .newVal op.newVal,
    .field (op.node, op.index)])

structure Desc (V : Type) where
  mutables : Mutables
  body : Body V

/-! Threads. -/

/-- An llx of the first `width` fields of a node that read `marked` first. -/
structure Llx where
  node : Nat
  width : Nat
  marked : Bool

inductive Caller where
  | owner
  | llx (l : Llx)

/-- The arguments of help: the tagptr, the sequence number of the snapshot, the snapshot. -/
structure Help (V : Type) where
  caller : Caller
  tid : Nat
  seq : Nat
  snapSeq : Nat
  op : Op V

def Help.tag (h : Help V) : Tag := .desc h.tid h.seq

-- Positions in help; the two words of a loop are its read and its compare-and-swap.
inductive Place where
  | freeze (i : Nat)
  | recheck (i : Nat) (d : Dep)
  | readFrozen
  | abortRead
  | abortCas (seen : Mutables)
  | frozenRead
  | frozenCas (seen : Mutables)
  | mark (i : Nat)
  | update
  | commitRead
  | commitCas (seen : Mutables)

inductive Pc (V : Type) where
  | idle
  | llxMarked (n width : Nat)
  | llxPtr (l : Llx)
  | llxState (l : Llx) (tag : Tag)
  | llxAgain (l : Llx) (tag : Tag)
  | llxCopy (l : Llx) (tag : Tag) (i : Nat) (copy : Nat → V)
  | llxCheck (l : Llx) (tag : Tag) (copy : Nat → V)
  | copyMutables (l : Llx) (tid seq : Nat)
  | copy (l : Llx) (tid seq snapSeq : Nat) (todo : List Slot) (got : Body V)
  | validate (l : Llx) (tid seq snapSeq : Nat) (got : Body V)
  | help (h : Help V) (place : Place)
  | fill (op : Op V) (todo : List (Write V))
  | initialized (op : Op V)
  | publish (op : Op V) (seen : Mutables)
  | makeTag (op : Op V)
  | descNew (result : Bool)
  | renew (result : Bool) (seen : Mutables)

inductive Result (V : Type) where
  | snapshot (copy : Nat → V)
  | finalized
  | failed

/-! The history of a run. The phase of an scx is what its mutables said last. -/

inductive Phase where
  | running
  | frozen
  | committed
  | aborted
  deriving DecidableEq, Repr

def Mutables.phase (m : Mutables) : Phase :=
  match m.state, m.allFrozen with
  | .inProgress, false => .running
  | .inProgress, true => .frozen
  | .committed, _ => .committed
  | .aborted, _ => .aborted

-- Everything stored in the fields so far, newest first, and who marked each node.
structure Moment (V : Type) where
  log : Nat → Nat → List V
  markers : Nat → List Tag

/-- The last successful llx of a node; `link` is what its fields had held by then. -/
structure Handle (V : Type) where
  tag : Tag
  link : Nat → List V

/-- One scxExecute; `updates` has the moment before each update CAS that succeeded. -/
structure Record (V : Type) where
  op : Op V
  link : Nat → Nat → List V
  phase : Phase
  updates : List (Moment V)
  returned : Option Bool

/-- One llx, with the fields and the mark of the node at the step that ended it. -/
structure LlxCall (V : Type) where
  llx : Llx
  result : Result V
  words : Nat → V
  marked : Bool

/-- Shared memory, threads with their handles, and the history; `held` has all the values
of scxPtr, newest first. -/
structure World (V : Type) where
  word : Nat → Nat → V
  marked : Nat → Bool
  scxPtr : Nat → Tag
  desc : Nat → Desc V
  pc : Nat → Pc V
  handle : Nat → Nat → Option (Handle V)
  held : Nat → List Tag
  log : Nat → Nat → List V
  markers : Nat → List Tag
  record : Tag → Option (Record V)
  llxs : List (LlxCall V)

-- The constructor leaves every descriptor at its second sequence number.
def initial (word : Nat → Nat → V) (blank : Body V) : World V where
  word := word
  marked := fun _ => false
  scxPtr := fun _ => .init
  desc := fun _ => ⟨⟨2, .inProgress, false⟩, blank⟩
  pc := fun _ => .idle
  handle := fun _ _ => none
  held := fun _ => [.init]
  log := fun n i => [word n i]
  markers := fun _ => []
  record := fun _ => none
  llxs := []

namespace World

def goto (w : World V) (tid : Nat) (pc : Pc V) : World V :=
  { w with pc := Function.update w.pc tid pc }

def mutables (w : World V) (tid : Nat) : Mutables := (w.desc tid).mutables

def setDesc (w : World V) (tid : Nat) (desc : Desc V) : World V :=
  { w with desc := Function.update w.desc tid desc }

def setRecord (w : World V) (tag : Tag) (f : Record V → Record V) : World V :=
  { w with record := Function.update w.record tag ((w.record tag).map f) }

def freeze (w : World V) (n : Nat) (tag : Tag) : World V :=
  { w with
    scxPtr := Function.update w.scxPtr n tag
    held := Function.update w.held n (tag :: w.held n) }

-- A compare-and-swap of the mutables of a descriptor that succeeded.
def decide (w : World V) (tid seq : Nat) (m : Mutables) : World V :=
  (w.setDesc tid ⟨m, (w.desc tid).body⟩).setRecord (.desc tid seq) fun r =>
  { r with phase := m.phase }

def mark (w : World V) (n : Nat) (tag : Tag) : World V :=
  { w with
    marked := Function.update w.marked n true
    markers := Function.update w.markers n (tag :: w.markers n) }

-- The update CAS that succeeded.
def swing (w : World V) (op : Op V) (tag : Tag) : World V :=
  { w with
    word := Function.update w.word op.node (Function.update (w.word op.node) op.index op.newVal)
    log := Function.update w.log op.node
      (Function.update (w.log op.node) op.index (op.newVal :: w.log op.node op.index)) }.setRecord
      tag fun r => { r with updates := ⟨w.log, w.markers⟩ :: r.updates }

def endLlx (w : World V) (tid : Nat) (l : Llx) (result : Result V) : World V :=
  { w with llxs := ⟨l, result, w.word l.node, w.marked l.node⟩ :: w.llxs }.goto tid .idle

-- The last line of llx.
def giveUp (w : World V) (tid : Nat) (l : Llx) : World V :=
  w.endLlx tid l (if l.marked then .finalized else .failed)

def linked (w : World V) (tid n : Nat) (tag : Tag) : World V :=
  { w with
    handle := Function.update w.handle tid
      (Function.update (w.handle tid) n (some ⟨tag, w.log n⟩)) }

-- help returns; helpOther drops what it returned.
def leave (w : World V) (tid : Nat) (caller : Caller) (result : Bool) : World V :=
  match caller with
  | .owner => w.goto tid (.descNew result)
  | .llx l => w.giveUp tid l

def links (w : World V) (tid n : Nat) : Nat → List V :=
  match w.handle tid n with
  | some h => h.link
  | none => fun _ => []

-- DESC1_INITIALIZED.
def publish (w : World V) (tid : Nat) (op : Op V) (seen : Mutables) : World V :=
  { w.setDesc tid ⟨{ seen with seq := seen.seq + 1 }, (w.desc tid).body⟩ with
    record := Function.update w.record (.desc tid (seen.seq + 1))
      (some ⟨op, w.links tid, .running, [], none⟩) }

-- DESC1_NEW.
def renew (w : World V) (tid seq : Nat) (result : Bool) : World V :=
  (w.setDesc tid ⟨⟨seq + 1, .inProgress, false⟩, (w.desc tid).body⟩).setRecord (.desc tid seq)
  fun r => { r with returned := some result }

end World

variable [DecidableEq V]

def helpStep (w : World V) (tid : Nat) (h : Help V) : Place → World V
  | .freeze i =>
      match h.op.deps[i]? with
      | some d =>
          if w.scxPtr d.node = d.seen then (w.freeze d.node h.tag).goto tid
            (.help h (.freeze (i + 1)))
          else w.goto tid (.help h (.recheck i d))
      | none => w.goto tid (.help h .frozenRead)
  | .recheck i d =>
      if w.scxPtr d.node = h.tag then w.goto tid (.help h (.freeze (i + 1)))
      else w.goto tid (.help h .readFrozen)
  | .readFrozen =>
      if (w.mutables h.tid).seq ≠ h.seq then w.leave tid h.caller false
      else if (w.mutables h.tid).allFrozen then w.leave tid h.caller true
      else w.goto tid (.help h .abortRead)
  | .abortRead =>
      if (w.mutables h.tid).seq = h.snapSeq ∧ (w.mutables h.tid).state ≠ .aborted then
        w.goto tid (.help h (.abortCas (w.mutables h.tid)))
      else w.leave tid h.caller false
  | .abortCas seen =>
      if w.mutables h.tid = seen then (w.decide h.tid h.seq { seen with state := .aborted }).leave
        tid h.caller false
      else w.goto tid (.help h .abortRead)
  | .frozenRead =>
      if (w.mutables h.tid).seq = h.snapSeq ∧ (w.mutables h.tid).allFrozen = false then
        w.goto tid (.help h (.frozenCas (w.mutables h.tid)))
      else w.goto tid (.help h (.mark 0))
  | .frozenCas seen =>
      if w.mutables h.tid = seen then (w.decide h.tid h.seq { seen with allFrozen := true }).goto
        tid (.help h (.mark 0))
      else w.goto tid (.help h .frozenRead)
  | .mark i =>
      match h.op.deps[i]? with
      | some d => (if d.finalize then w.mark d.node h.tag else w).goto tid (.help h (.mark (i + 1)))
      | none => w.goto tid (.help h .update)
  | .update =>
      (if w.word h.op.node h.op.index = h.op.oldVal then w.swing h.op h.tag else w).goto tid
      (.help h .commitRead)
  | .commitRead =>
      if (w.mutables h.tid).seq = h.snapSeq ∧ (w.mutables h.tid).state ≠ .committed then
        w.goto tid (.help h (.commitCas (w.mutables h.tid)))
      else w.leave tid h.caller true
  | .commitCas seen =>
      if w.mutables h.tid = seen then (w.decide h.tid h.seq { seen with state := .committed }).leave
        tid h.caller true
      else w.goto tid (.help h .commitRead)

-- DESC1_READ_FIELD of llx: the state, COMMITTED when the descriptor has been used again.
def readState (w : World V) : Tag → State
  | .init => .committed
  | .desc tid seq => if (w.mutables tid).seq = seq then (w.mutables tid).state else .committed

def helpOther (w : World V) (tid : Nat) (l : Llx) : Tag → World V
  | .init => w.giveUp tid l
  | .desc other seq => w.goto tid (.copyMutables l other seq)

/-- `max` is the number of nodes a descriptor has room for; `blank` and `dest` are what the
snapshot of helpOther and the copy of llx hold at first. -/
def move (max : Nat) (blank : Body V) (dest : Nat → V) (w : World V) (tid : Nat) : Pc V → World V
  | .idle => w
  | .llxMarked n width => w.goto tid (.llxPtr ⟨n, width, w.marked n⟩)
  | .llxPtr l => w.goto tid (.llxState l (w.scxPtr l.node))
  | .llxState l tag =>
      match readState w tag with
      | .aborted => w.goto tid (.llxCopy l tag 0 dest)
      | .committed => w.goto tid (.llxAgain l tag)
      | .inProgress => helpOther w tid l tag
  | .llxAgain l tag =>
      if w.marked l.node then w.giveUp tid l else w.goto tid (.llxCopy l tag 0 dest)
  | .llxCopy l tag i copy =>
      if i < l.width then w.goto tid
        (.llxCopy l tag (i + 1) (Function.update copy i (w.word l.node i)))
      else w.goto tid (.llxCheck l tag copy)
  | .llxCheck l tag copy =>
      if w.scxPtr l.node = tag then (w.linked tid l.node tag).endLlx tid l (.snapshot copy)
      else w.giveUp tid l
  | .copyMutables l other seq =>
      w.goto tid (.copy l other seq (w.mutables other).seq (slots max) blank)
  | .copy l other seq snapSeq todo got =>
      match todo with
      | slot :: rest =>
          w.goto tid (.copy l other seq snapSeq rest (got.write ((w.desc other).body.load slot)))
      | [] => w.goto tid (.validate l other seq snapSeq got)
  | .validate l other seq snapSeq got =>
      if (w.mutables other).seq = seq then w.goto tid
        (.help ⟨.llx l, other, seq, snapSeq, got.op⟩ (.freeze 1))
      else w.giveUp tid l
  | .help h place => helpStep w tid h place
  | .fill op todo =>
      match todo with
      | x :: rest =>
          (w.setDesc tid ⟨w.mutables tid, (w.desc tid).body.write x⟩).goto tid (.fill op rest)
      | [] => w.goto tid (.initialized op)
  | .initialized op => w.goto tid (.publish op (w.mutables tid))
  | .publish op seen => (w.publish tid op seen).goto tid (.makeTag op)
  | .makeTag op =>
      w.goto tid (.help ⟨.owner, tid, (w.mutables tid).seq, (w.mutables tid).seq, op⟩ (.freeze 0))
  | .descNew result => w.goto tid (.renew result (w.mutables tid))
  | .renew result seen => (w.renew tid seen.seq result).goto tid .idle

inductive Event (V : Type) where
  | llx (tid n width : Nat)
  | scx (tid : Nat) (op : Op V)
  | move (tid : Nat)

def step (max : Nat) (blank : Body V) (dest : Nat → V) (w : World V) : Event V → Option (World V)
  | .llx tid n width =>
      match w.pc tid with
      | .idle => some (w.goto tid (.llxMarked n width))
      | _ => none
  | .scx tid op =>
      match w.pc tid with
      | .idle => some (w.goto tid (.fill op op.writes))
      | _ => none
  | .move tid =>
      match w.pc tid with
      | .idle => none
      | pc => some (move max blank dest w tid pc)

/-- What the callers of scxExecute keep: the handles are those of the thread's last
successful llx of each node, the field is in one of these nodes, and newVal is new to it. -/
structure Linked (max : Nat) (w : World V) (tid : Nat) (op : Op V) : Prop where
  room : op.deps.length ≤ max
  deps : ∀ d ∈ op.deps, (w.handle tid d.node).map Handle.tag = some d.seen
  field : ∃ d ∈ op.deps, d.node = op.node
  fresh : op.newVal ∉ w.log op.node op.index

/-- Linked, and oldVal is what the field held at that llx. -/
structure Current (max : Nat) (w : World V) (tid : Nat) (op : Op V) :
    Prop extends Linked max w tid op where
  old : (w.links tid op.node op.index).head? = some op.oldVal

instance (max : Nat) (w : World V) (tid : Nat) (op : Op V) : Decidable (Linked max w tid op) :=
  decidable_of_iff (op.deps.length ≤ max ∧
    (∀ d ∈ op.deps, (w.handle tid d.node).map Handle.tag = some d.seen) ∧
      (∃ d ∈ op.deps, d.node = op.node) ∧ op.newVal ∉ w.log op.node op.index)
    ⟨fun ⟨room, deps, field, fresh⟩ => ⟨room, deps, field, fresh⟩, fun ⟨room, deps, field, fresh⟩ =>
      ⟨room, deps, field, fresh⟩⟩

instance (max : Nat) (w : World V) (tid : Nat) (op : Op V) : Decidable (Current max w tid op) :=
  decidable_of_iff (Linked max w tid op ∧ (w.links tid op.node op.index).head? = some op.oldVal)
    ⟨fun ⟨linked, old⟩ => ⟨linked, old⟩, fun ⟨linked, old⟩ => ⟨linked, old⟩⟩

def Event.Keeps (rule : World V → Nat → Op V → Prop) (w : World V) : Event V → Prop
  | .scx tid op => rule w tid op
  | _ => True

end SetBench.Scx
