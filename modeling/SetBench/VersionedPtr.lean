import Mathlib
import SetBench.Epoch

/-! `versioned_ptr` of artifact_verlib/versioned_hybrid_ptr_level.h, built with
DO_ADD_UNPERSISTENT_BIT and SpinUntilFlushed, running over the epoch structure and
its hooks. One step is one load, store or compare-exchange on `v`, on a
time_stamp or on done_stamp; cas and cam first load and compare, then exchange.
The link that RETIRE_LINK hands to the memory pool is left in place: no object is
used again while an operation that saw it runs. -/
namespace SetBench.VersionedPtr

variable {workers : Nat}

/-- A pointer without its unpersisted bit. `link` is a ver_link under the indirect
bit; every link the program creates carries the value nullptr. -/
inductive Ptr where
  | null
  | node (id : Nat)
  | link (id : Nat)
  deriving DecidableEq, Repr

namespace Ptr

def object : Ptr → Option Nat
  | null => none
  | node id | link id => some id

def value : Ptr → Option Nat
  | node id => some id
  | null | link _ => none

def isIndirect : Ptr → Bool
  | link _ => true
  | null | node _ => false

end Ptr

structure Word where
  unpersisted : Bool
  ptr : Ptr
  deriving DecidableEq, Repr

def clean (ptr : Ptr) : Word := ⟨false, ptr⟩
def marked (ptr : Ptr) : Word := ⟨true, ptr⟩

-- The steps of set_stamp; cas_ni loads once more before its exchange.
inductive StampPc where
  | test
  | call
  | wait
  | retest (stamp : Nat)
  | load (stamp : Nat)
  | exchange (stamp : Nat)
  deriving DecidableEq, Repr

/-- Positions of load (a `snapshot` is the local_stamp it runs under, none for
load_wait), of shortcut and of store_with_unpersisted_bit with shortcut_writepath. -/
inductive Pc where
  | idle
  | spin (snapshot : Option Nat)
  | stamping (snapshot : Option Nat) (head : Word) (place : StampPc)
  | shortcutStamp (head : Word)
  | shortcutDone (head : Word) (stamp : Option Nat)
  | shortcutLoad (head : Word)
  | shortcutExchange (head : Word)
  | chase (snapshot : Nat) (head : Word)
  | finish (snapshot : Option Nat) (value : Option Nat)
  | storeLoad (new : Ptr)
  | storeNext (new : Ptr) (old : Word)
  | camLoad (new : Ptr) (old : Word)
  | camExchange (new : Ptr) (old : Word)
  | recheck (new : Ptr) (old : Word)
  | againLoad (new : Ptr)
  | againExchange (new : Ptr)
  | stampNew (new : Ptr) (place : StampPc)
  | pathStamp (new : Ptr)
  | pathDone (new : Ptr) (stamp : Option Nat)
  | pathLoad (new : Ptr)
  | pathExchange (new : Ptr)
  | flush (new : Ptr) (shortcutted : Bool)
  | clear (new : Ptr) (shortcutted : Bool)
  deriving DecidableEq, Repr

-- What a returned load saw: the version index of its value and the persistent word at the return.
structure Read where
  snapshot : Option Nat
  source : Nat
  value : Option Nat
  persistent : Word
  deriving DecidableEq, Repr

/-- `stamp` and `next` are time_stamp (tbd is `none`) and next_version of every
object. The last seven fields are history: the versions linked so far, oldest
first, the clock at which each was linked, the stores started so far, the version
each reader is at, the version that was flushed last, and the finished loads. -/
structure State (workers : Nat) where
  epoch : Epoch.State workers
  word : Word
  persistent : Word
  stamp : Nat → Option Nat
  next : Nat → Word
  allocated : Nat
  writer : Option (Fin workers)
  pc : Fin workers → Pc
  versions : List Ptr
  linked : Nat → Nat
  stores : List Ptr
  source : Fin workers → Nat
  durable : Nat
  reads : List Read

inductive Event (workers : Nat) where
  | epoch (event : Epoch.Event workers)
  | load (id : Fin workers)
  | store (id : Fin workers) (null : Bool)
  | advance (id : Fin workers)
  | returnStamp (id : Fin workers) (stamp : Nat)
  deriving DecidableEq, Repr

-- `init` gives a node that has no stamp yet the stamp zero_stamp; a stamped one keeps its
-- own. The constructor leaves next_version as it finds it.
def initial (clock : Nat) (stamp : Option Nat) (next : Nat → Word) : State workers where
  epoch := Epoch.initial clock
  word := clean (if stamp.isSome then .node 0 else .null)
  persistent := clean (if stamp.isSome then .node 0 else .null)
  stamp := fun id => if id = 0 then stamp else none
  next := next
  allocated := 1
  writer := none
  pc := fun _ => .idle
  versions := [if stamp.isSome then .node 0 else .null]
  linked := fun _ => 0
  stores := []
  source := fun _ => 0
  durable := 0
  reads := []

def State.goto (state : State workers) (id : Fin workers) (pc : Pc) : State workers :=
  { state with pc := Function.update state.pc id pc }

-- A thread inside load or store neither leaves its epoch nor its snapshot.
def permitted (state : State workers) : Epoch.Event workers → Bool
  | .unannounce id | .openSnapshot id | .closeSnapshot id | .callWriteStamp id
  | .returnWriteStamp id _ => state.pc id = .idle
  | _ => true

def stampStep (state : State workers) (id : Fin workers) (ptr : Ptr) (place : StampPc)
    (resume : StampPc → Pc) (after : Pc) : Option (State workers) :=
  match ptr.object with
  | none => some (state.goto id after)
  | some object =>
      match place with
      | .test => some (state.goto id (if state.stamp object = none then resume .call else after))
      | .call =>
          (Epoch.step state.epoch (.callWriteStamp id)).map fun epoch =>
            { state.goto id (resume .wait) with epoch }
      | .wait => none
      | .retest stamp =>
          some (state.goto id (if state.stamp object = none then resume (.load stamp) else after))
      | .load stamp =>
          some (state.goto id (if state.stamp object = none then resume (.exchange stamp)
            else after))
      | .exchange stamp =>
          if state.stamp object = none then
            some { state.goto id after with
              stamp := Function.update state.stamp object (some stamp) }
          else some (state.goto id after)

-- After set_stamp a snapshot chases versions; load_wait runs get_ptr_shortcut.
def afterStamp (snapshot : Option Nat) (head : Word) : Pc :=
  match snapshot with
  | some stamp => .chase stamp head
  | none => if head.ptr.isIndirect then .shortcutStamp head else .finish none head.ptr.value

def afterStore (new : Ptr) : Pc :=
  if new.isIndirect then .pathStamp new else .flush new false

def atMost (stamp : Option Nat) (bound : Nat) : Bool :=
  match stamp with
  | some value => value ≤ bound
  | none => false

def State.stampAt (state : State workers) (ptr : Ptr) : Option Nat :=
  ptr.object.bind state.stamp

-- The exchange of a cam that links the new version.
def State.link (state : State workers) (new : Ptr) : State workers :=
  { state with
    word := marked new
    versions := state.versions ++ [new]
    linked := match new.object with
      | some object => Function.update state.linked object state.epoch.clock
      | none => state.linked }

def advance (state : State workers) (id : Fin workers) : Option (State workers) :=
  match state.pc id with
  | .idle => none
  | .spin snapshot =>
      if state.word.unpersisted then some state
      else some { state.goto id (.stamping snapshot state.word .test) with
        source := Function.update state.source id (state.versions.length - 1) }
  | .stamping snapshot head place =>
      stampStep state id head.ptr place (.stamping snapshot head) (afterStamp snapshot head)
  | .shortcutStamp head => some (state.goto id (.shortcutDone head (state.stampAt head.ptr)))
  | .shortcutDone head stamp =>
      some (state.goto id (if atMost stamp state.epoch.doneStamp then .shortcutLoad head
        else .finish none head.ptr.value))
  | .shortcutLoad head =>
      some (state.goto id (if state.word = head then .shortcutExchange head
        else .finish none head.ptr.value))
  | .shortcutExchange head =>
      if state.word = head then
        some { state.goto id (.finish none head.ptr.value) with word := clean .null }
      else some (state.goto id (.finish none head.ptr.value))
  | .chase stamp head =>
      match head.ptr.object with
      | none => some (state.goto id (.finish (some stamp) head.ptr.value))
      | some object =>
          if atMost (state.stamp object) stamp then
            some (state.goto id (.finish (some stamp) head.ptr.value))
          else some { state.goto id (.chase stamp (state.next object)) with
            source := Function.update state.source id (state.source id - 1) }
  | .finish snapshot value =>
      some { state.goto id .idle with
        reads := ⟨snapshot, state.source id, value, state.persistent⟩ :: state.reads }
  | .storeLoad new => some (state.goto id (.storeNext new state.word))
  | .storeNext new old =>
      match new.object with
      | some object =>
          some { state.goto id (.camLoad new old) with
            next := Function.update state.next object old }
      | none => none
  | .camLoad new old =>
      some (state.goto id (if state.word = old then .camExchange new old
        else if old.ptr.isIndirect then .recheck new old else .stampNew new .test))
  | .camExchange new old =>
      let after := if old.ptr.isIndirect then .recheck new old else .stampNew new .test
      if state.word = old then some ((state.link new).goto id after) else some (state.goto id after)
  | .recheck new _ =>
      some (state.goto id (if state.word = clean .null then .againLoad new
        else .stampNew new .test))
  | .againLoad new =>
      some (state.goto id (if state.word = clean .null then .againExchange new
        else .stampNew new .test))
  | .againExchange new =>
      if state.word = clean .null then some ((state.link new).goto id (.stampNew new .test))
      else some (state.goto id (.stampNew new .test))
  | .stampNew new place => stampStep state id new place (.stampNew new) (afterStore new)
  | .pathStamp new => some (state.goto id (.pathDone new (state.stampAt new)))
  | .pathDone new stamp =>
      some (state.goto id (if atMost stamp state.epoch.doneStamp then .pathLoad new
        else .flush new false))
  | .pathLoad new =>
      some (state.goto id (if state.word = marked new then .pathExchange new else .flush new false))
  | .pathExchange new =>
      if state.word = marked new then
        some { state.goto id (.flush new true) with word := clean .null }
      else some (state.goto id (.flush new false))
  | .flush new shortcutted =>
      some { state.goto id (.clear new shortcutted) with
        persistent := state.word, durable := state.versions.length - 1 }
  | .clear new shortcutted =>
      some { state.goto id .idle with
        writer := none
        word := if new.isIndirect && shortcutted then state.word else clean new }

/-- One atomic step of the pointer and the epoch structure together. `load`
dispatches on local_stamp; `store` takes the lock and a fresh node, or a null
store's fresh link. -/
def step (state : State workers) : Event workers → Option (State workers)
  | .epoch event =>
      if permitted state event then
        (Epoch.step state.epoch event).map fun epoch => { state with epoch }
      else none
  | .load id =>
      let thread := state.epoch.thread id
      if state.pc id = .idle ∧ thread.announcing = .inside ∧ thread.stampCall = none then
        some (state.goto id (.spin thread.localStamp))
      else none
  | .store id null =>
      let thread := state.epoch.thread id
      if state.pc id = .idle ∧ thread.announcing = .inside ∧ thread.stampCall = none ∧
          state.writer = none then
        let new := if null then Ptr.link state.allocated else Ptr.node state.allocated
        some { state.goto id (.storeLoad new) with
          writer := some id, allocated := state.allocated + 1, stores := state.stores ++ [new] }
      else none
  | .advance id => advance state id
  | .returnStamp id stamp =>
      match state.pc id with
      | .stamping snapshot head .wait =>
          (Epoch.step state.epoch (.returnWriteStamp id stamp)).map fun epoch =>
            { state.goto id (.stamping snapshot head (.retest stamp)) with epoch }
      | .stampNew new .wait =>
          (Epoch.step state.epoch (.returnWriteStamp id stamp)).map fun epoch =>
            { state.goto id (.stampNew new (.retest stamp)) with epoch }
      | _ => none

-- update_epoch is called by retire, that is by announced threads only.
def callersAnnounced (state : State workers) : Event workers → Prop
  | .epoch event => Epoch.callersAnnounced state.epoch event
  | _ => True

instance (state : State workers) (event : Event workers) :
    Decidable (callersAnnounced state event) :=
  match event with
  | .epoch event => inferInstanceAs (Decidable (Epoch.callersAnnounced state.epoch event))
  | .load _ | .store _ _ | .advance _ | .returnStamp _ _ => .isTrue trivial

end SetBench.VersionedPtr
