import SetBench.RangeQuery

/-! RQProvider of common/rq/rq_dcssp.h with logicalDeletion = false, over dcsspProvider of
common/dcss/dcss_plus_impl.h. One step is one read, write or compare-and-swap of a shared
word. The words old1, addr2, old2 and new2 of a descriptor are written while its sequence
number is even and keep their values while it is odd; they are written in one step, and
the memcpy of a snapshot reads them in one step. addr1 is the timestamp. Sequence numbers and
timestamps do not wrap. -/
namespace SetBench.DcsspQuery

open Transition
open RangeQuery (Update)

inductive State where
  | undecided
  | succeeded
  | failed
  deriving DecidableEq, Repr

inductive Word (V T : Type) where
  | value (v : V)
  | tag (tid : T) (seq : Nat)
  deriving DecidableEq

structure Args (A V : Type) where
  old1 : Nat
  addr2 : A
  old2 : V
  new2 : V
  deriving DecidableEq

/-- `inserted` and `deleted` keep what was written to the payloads, also after discardPayloads;
`installed` says that the owner has put the tagptr into addr2. -/
structure Desc (A V N : Type) where
  seq : Nat
  state : State
  args : Args A V
  payload1 : List N
  payload2 : List N
  inserted : List N
  deleted : List N
  installed : Bool

-- The reads and writes of dcsspHelp; the first two are the snapshot of dcsspHelpOther.
inductive HelpPhase (A V : Type) where
  | copy
  | check (args : Args A V)
  | readTime (args : Args A V)
  | readMutables (args : Args A V) (succeeds : Bool)
  | cas (args : Args A V) (succeeds : Bool)
  | finish (args : Args A V) (succeeded : Bool)
  deriving DecidableEq

structure Help (A V T : Type) where
  owner : T
  seq : Nat
  phase : HelpPhase A V
  deriving DecidableEq

-- linearize_update_at_write reads lin_addr first, linearize_update_at_cas does not.
inductive Stage (A V T N : Type) where
  | readTime
  | readAddr (old1 : Nat)
  | readHelp (old1 : Nat) (help : Help A V T)
  | descNew (args : Args A V)
  | fill (args : Args A V)
  | initialized (args : Args A V)
  | install (args : Args A V)
  | installHelp (args : Args A V) (help : Help A V T)
  | own (args : Args A V) (help : Help A V T)
  | setInsertionTimestamps (old1 : Nat) (rest : List N)
  | setDeletionTimestamps (old1 : Nat) (rest : List N)
  | discardPayload1
  | discardPayload2
  deriving DecidableEq

inductive Kind where
  | insertion
  | deletion
  deriving DecidableEq, Repr

-- What a query does with the descriptor of one process.
inductive Look (A V T N : Type) where
  | tagptr
  | mutables (seq : Nat)
  | args (seq : Nat) (state : State)
  | payload (seq : Nat) (state : State) (args : Args A V)
  | check (seq : Nat) (state : State) (args : Args A V) (payload : List N)
  | addr2 (seq : Nat) (args : Args A V)
  | helpProcess (seq : Nat) (args : Args A V)
  | help (seq : Nat) (args : Args A V) (help : Help A V T)
  | state2 (seq : Nat) (args : Args A V)
  deriving DecidableEq

inductive Try (A V T N : Type) where
  | itime
  | itimeAgain (itime : Nat)
  | loop (kind : Kind) (others : List T)
  | look (kind : Kind) (otherTid : T) (others : List T) (look : Look A V T N)
  | dtime
  deriving DecidableEq

inductive Pc (A V T N : Type) where
  | idle
  | update (u : Update A V N) (stage : Stage A V T N)
  | query (rqLinTime : Nat)
  | trying (rqLinTime : Nat) (node : N) (foundDuringTraversal : Bool) (try_ : Try A V T N)
  deriving DecidableEq

structure Decision (N : Type) where
  rqLinTime : Nat
  node : N
  foundDuringTraversal : Bool
  used : Bool
  deriving DecidableEq

/-- `born` and `died` are the timestamps of the dcssp whose state became SUCCEEDED with the node
among its inserted or deleted nodes. -/
structure World (A V T N : Type) where
  timestamp : Nat
  mem : A → Word V T
  desc : T → Desc A V N
  itime : N → Nat
  dtime : N → Nat
  pc : T → Pc A V T N
  born : N → Nat
  died : N → Nat
  decisions : List (Decision N)

inductive Event (A V T N : Type) where
  | update (tid : T) (u : Update A V N)
  | traversalStart (tid : T)
  | tryAdd (tid : T) (node : N) (foundDuringTraversal : Bool)
  | traversalEnd (tid : T)
  | move (tid : T)

variable {A V T N : Type} [DecidableEq A] [DecidableEq V] [DecidableEq T] [DecidableEq N]

def initial (mem : A → V) (args : Args A V) : World A V T N :=
  { timestamp := 1, mem := fun a => .value (mem a),
    desc := fun _ => ⟨1, .undecided, args, [], [], [], [], false⟩,
    itime := fun _ => 0, dtime := fun _ => 0, pc := fun _ => .idle,
    born := fun _ => 0, died := fun _ => 0, decisions := [] }

def World.goto (w : World A V T N) (tid : T) (pc : Pc A V T N) : World A V T N :=
  { w with pc := Function.update w.pc tid pc }

def World.setDesc (w : World A V T N) (tid : T) (desc : Desc A V N) : World A V T N :=
  { w with desc := Function.update w.desc tid desc }

def World.setMem (w : World A V T N) (a : A) (word : Word V T) : World A V T N :=
  { w with mem := Function.update w.mem a word }

-- The state of a descriptor is set; with SUCCEEDED its nodes are inserted and deleted.
def World.decideState (w : World A V T N) (owner : T) (succeeds : Bool) : World A V T N :=
  let d := w.desc owner
  if succeeds = true then
    { w.setDesc owner { d with state := .succeeded } with
      born := fun node => if node ∈ d.inserted then d.args.old1 else w.born node
      died := fun node => if node ∈ d.deleted then d.args.old1 else w.died node }
  else w.setDesc owner { d with state := .failed }

-- What the data structure promises: a node is inserted and deleted once.
def Desc.Valid (d : Desc A V N) (w : World A V T N) : Prop :=
  (∀ node ∈ d.inserted, w.born node = 0) ∧ ∀ node ∈ d.deleted, w.died node = 0

instance (d : Desc A V N) (w : World A V T N) : Decidable (d.Valid w) :=
  inferInstanceAs (Decidable ((∀ node ∈ d.inserted, w.born node = 0) ∧
    ∀ node ∈ d.deleted, w.died node = 0))

-- One step of dcsspHelp: the next phase, or what it returns.
def helpMove (w : World A V T N) (help : Help A V T) :
    Option (World A V T N × (HelpPhase A V ⊕ Bool)) :=
  let d := w.desc help.owner
  match help.phase with
  | .copy => some (w, .inl (.check d.args))
  | .check args => some (w, if d.seq = help.seq then .inl (.readTime args) else .inr false)
  | .readTime args => some (w, .inl (.readMutables args (w.timestamp = args.old1)))
  | .readMutables args succeeds =>
      some (w, if d.seq = help.seq then .inl (.cas args succeeds) else .inr false)
  | .cas args succeeds =>
      if d.seq = help.seq ∧ d.state = .undecided then
        if succeeds = true → d.Valid w then
          some (w.decideState help.owner succeeds, .inl (.finish args succeeds))
        else none
      -- A field that is decided is returned even when the sequence number has changed.
      else if d.state ≠ .undecided then some (w, .inl (.finish args (d.state = .succeeded)))
      else some (w, .inr false)
  | .finish args succeeded =>
      some (if w.mem args.addr2 = .tag help.owner help.seq then w.setMem args.addr2
        (.value (if succeeded = true then args.new2 else args.old2)) else w,
        .inr succeeded)

def updateMove (w : World A V T N) (tid : T) (u : Update A V N) :
    Stage A V T N → Option (World A V T N)
  | .readTime =>
      match u.linOldval with
      | none => some (w.goto tid (.update u (.readAddr w.timestamp)))
      | some old2 =>
          some (w.goto tid (.update u (.descNew ⟨w.timestamp, u.linAddr, old2, u.linNewval⟩)))
  | .readAddr old1 =>
      match w.mem u.linAddr with
      | .value old2 => some (w.goto tid (.update u (.descNew ⟨old1, u.linAddr, old2, u.linNewval⟩)))
      | .tag owner seq => some (w.goto tid (.update u (.readHelp old1 ⟨owner, seq, .copy⟩)))
  | .readHelp old1 help =>
      (helpMove w help).map fun
        | (w, .inl phase) => w.goto tid (.update u (.readHelp old1 { help with phase := phase }))
        | (w, .inr _) => w.goto tid (.update u (.readAddr old1))
  | .descNew args =>
      some ((w.setDesc tid { w.desc tid with
        seq := (w.desc tid).seq + 1
        state := .undecided
        installed := false }).goto tid (.update u (.fill args)))
  | .fill args =>
      some ((w.setDesc tid ⟨(w.desc tid).seq, (w.desc tid).state, args, u.insertedNodes,
        u.deletedNodes, u.insertedNodes, u.deletedNodes, false⟩).goto tid
        (.update u (.initialized args)))
  | .initialized args =>
      some ((w.setDesc tid { w.desc tid with seq := (w.desc tid).seq + 1 }).goto tid
        (.update u (.install args)))
  | .install args =>
      match w.mem args.addr2 with
      | .tag owner seq => some (w.goto tid (.update u (.installHelp args ⟨owner, seq, .copy⟩)))
      | .value r =>
          if r = args.old2 then
            some (((w.setMem args.addr2 (.tag tid (w.desc tid).seq)).setDesc tid
              { w.desc tid with installed := true }).goto tid
              (.update u (.own args ⟨tid, (w.desc tid).seq, .readTime args⟩)))
          else
            -- DCSSP_FAILED_ADDR2: linearize_update_at_write tries again.
            match u.linOldval with
            | none => some (w.goto tid (.update u .readTime))
            | some _ => some (w.goto tid .idle)
  | .installHelp args help =>
      (helpMove w help).map fun
        | (w, .inl phase) => w.goto tid (.update u (.installHelp args { help with phase := phase }))
        | (w, .inr _) => w.goto tid (.update u (.install args))
  | .own args help =>
      (helpMove w help).map fun
        | (w, .inl phase) => w.goto tid (.update u (.own args { help with phase := phase }))
        | (w, .inr true) =>
            w.goto tid (.update u (.setInsertionTimestamps args.old1 u.insertedNodes))
        | (w, .inr false) => w.goto tid (.update u .readTime)
  | .setInsertionTimestamps old1 [] =>
      some (w.goto tid (.update u (.setDeletionTimestamps old1 u.deletedNodes)))
  | .setInsertionTimestamps old1 (node :: rest) =>
      some ({ w with itime := Function.update w.itime node old1 }.goto tid
        (.update u (.setInsertionTimestamps old1 rest)))
  | .setDeletionTimestamps _ [] => some (w.goto tid (.update u .discardPayload1))
  | .setDeletionTimestamps old1 (node :: rest) =>
      some ({ w with dtime := Function.update w.dtime node old1 }.goto tid
        (.update u (.setDeletionTimestamps old1 rest)))
  | .discardPayload1 =>
      some ((w.setDesc tid { w.desc tid with payload1 := [] }).goto tid
        (.update u .discardPayload2))
  | .discardPayload2 => some ((w.setDesc tid { w.desc tid with payload2 := [] }).goto tid .idle)

structure Config (T : Type) where
  threads : List T
  all : ∀ t, t ∈ threads

def Config.others (config : Config T) (tid : T) : List T :=
  config.threads.filter fun otherTid => otherTid ≠ tid

def decideNode (w : World A V T N) (tid : T) (time : Nat) (node : N) (found used : Bool) :
    World A V T N :=
  { w with decisions := ⟨time, node, found, used⟩ :: w.decisions }.goto tid (.query time)

-- The node was inserted before the query.
def proceed (w : World A V T N) (tid : T) (time : Nat) (node : N) (found : Bool) : World A V T N :=
  if found = true then decideNode w tid time node found true
  else w.goto tid (.trying time node found .dtime)

-- The process inserted or deleted the node at time old1.
def known (w : World A V T N) (tid : T) (time : Nat) (node : N) (found : Bool) (old1 : Nat) :
    Kind → World A V T N
  | .insertion =>
      if time ≤ old1 then decideNode w tid time node found false else proceed w tid time node found
  | .deletion => decideNode w tid time node found (time ≤ old1)

def Desc.payload (d : Desc A V N) : Kind → List N
  | .insertion => d.payload1
  | .deletion => d.payload2

def lookMove (w : World A V T N) (tid : T) (time : Nat) (node : N) (found : Bool) (kind : Kind)
    (p : T) (others : List T) :
    Look A V T N → Option (World A V T N)
  | .tagptr =>
      if (w.desc p).seq % 2 = 1 then
        some (w.goto tid (.trying time node found (.look kind p others (.mutables (w.desc p).seq))))
      else some (w.goto tid (.trying time node found (.loop kind others)))
  | .mutables seq =>
      some (w.goto tid (.trying time node found (.look kind p others (.args seq (w.desc p).state))))
  | .args seq state =>
      some (w.goto tid (.trying time node found
        (.look kind p others (.payload seq state (w.desc p).args))))
  | .payload seq state args =>
      some (w.goto tid (.trying time node found
        (.look kind p others (.check seq state args ((w.desc p).payload kind)))))
  | .check seq state args payload =>
      if (w.desc p).seq = seq ∧ node ∈ payload then
        match state with
        | .failed => some (w.goto tid (.trying time node found (.loop kind others)))
        | .succeeded => some (known w tid time node found args.old1 kind)
        | .undecided =>
            some (w.goto tid (.trying time node found (.look kind p others (.addr2 seq args))))
      else some (w.goto tid (.trying time node found (.loop kind others)))
  | .addr2 seq args =>
      if w.mem args.addr2 = .tag p
        seq then some (w.goto tid
        (.trying time node found (.look kind p others (.helpProcess seq args))))
      else some (w.goto tid (.trying time node found (.look kind p others (.state2 seq args))))
  | .helpProcess seq args =>
      -- helpProcess takes the tagptr of the descriptor as it is now.
      if (w.desc p).seq % 2 = 1 then
        some (w.goto tid (.trying time node found
          (.look kind p others (.help seq args ⟨p, (w.desc p).seq, .copy⟩))))
      else some (w.goto tid (.trying time node found (.look kind p others (.state2 seq args))))
  | .help seq args help =>
      (helpMove w help).map fun
        | (w, .inl phase) =>
            w.goto tid (.trying time node found
              (.look kind p others (.help seq args { help with phase := phase })))
        | (w, .inr _) =>
            w.goto tid (.trying time node found (.look kind p others (.state2 seq args)))
  | .state2 seq args =>
      if (w.desc p).seq = seq ∧ (w.desc p).state =
        .succeeded then some (known w tid time node found args.old1 kind)
      else some (w.goto tid (.trying time node found (.loop kind others)))

def tryMove (config : Config T) (w : World A V T N) (tid : T) (time : Nat) (node : N)
    (found : Bool) : Try A V T N → Option (World A V T N)
  | .itime => some (w.goto tid (.trying time node found (.itimeAgain (w.itime node))))
  | .itimeAgain itime =>
      if itime ≠ 0 ∧ time ≤ w.itime node then some (decideNode w tid time node found false)
      else some (w.goto tid (.trying time node found (.loop .insertion (config.others tid))))
  | .loop .insertion others =>
      if w.itime node = 0 then
        match others with
        | [] => some (proceed w tid time node found)
        | p :: others =>
            some (w.goto tid (.trying time node found (.look .insertion p others .tagptr)))
      else if time ≤ w.itime node then some (decideNode w tid time node found false)
      else some (proceed w tid time node found)
  | .loop .deletion others =>
      if w.dtime node = 0 then
        match others with
        | [] => some (decideNode w tid time node found true)
        | p :: others =>
            some (w.goto tid (.trying time node found (.look .deletion p others .tagptr)))
      else some (decideNode w tid time node found (time ≤ w.dtime node))
  | .look kind p others look => lookMove w tid time node found kind p others look
  | .dtime =>
      if w.dtime node ≠ 0 ∧ w.dtime node < time then some (decideNode w tid time node found false)
      else some (w.goto tid (.trying time node found (.loop .deletion (config.others tid))))

def move (config : Config T) (w : World A V T N) (tid : T) : Option (World A V T N) :=
  match w.pc tid with
  | .idle | .query _ => none
  | .update u stage => updateMove w tid u stage
  | .trying time node found try_ => tryMove config w tid time node found try_

def step (config : Config T) (w : World A V T N) : Event A V T N → Option (World A V T N)
  | .update tid u => if w.pc tid = .idle then some (w.goto tid (.update u .readTime)) else none
  | .traversalStart tid =>
      if w.pc tid = .idle then
        some ({ w with timestamp := w.timestamp + 1 }.goto tid (.query (w.timestamp + 1)))
      else none
  | .tryAdd tid node found =>
      match w.pc tid with
      -- The node has been inserted.
      | .query time =>
          if w.born node ≠ 0 then some (w.goto tid (.trying time node found .itime)) else none
      | _ => none
  | .traversalEnd tid =>
      match w.pc tid with
      | .query _ => some (w.goto tid .idle)
      | _ => none
  | .move tid => move config w tid

-- A query that helps through helpProcess does not see the timestamp of a dcssp that its owner
-- has announced in its descriptor and not yet put into addr2.
def Pc.Careful (w : World A V T N) : Pc A V T N → Prop
  | .trying _ _ _ (.look _ _ _ (.help _ _ ⟨owner, seq, .readTime args⟩)) =>
      (w.desc owner).seq = seq → w.timestamp = args.old1 → (w.desc owner).installed = true
  | _ => True

def Careful (w : World A V T N) : Event A V T N → Prop
  | .move tid => (w.pc tid).Careful w
  | _ => True

end SetBench.DcsspQuery
