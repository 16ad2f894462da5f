import Mathlib
import SetBench.RwLock
import SetBench.Transition

/-! RQProvider of common/rq/rq_rwlock.h with logicalDeletion = false. One step is one read,
write or compare-and-swap of a shared word, or one step of the RWLock. The data structure
itself stays outside: an update says which nodes it inserts and deletes, and the traversal
of a query presents nodes in any order. Timestamps do not wrap. -/
namespace SetBench.RangeQuery

open Transition

/-- The arguments of linearize_update_at_cas, or of linearize_update_at_write where there is no
`linOldval`. -/
structure Update (A V N : Type) where
  linAddr : A
  linOldval : Option V
  linNewval : V
  insertedNodes : List N
  deletedNodes : List N
  deriving DecidableEq

inductive Stage (N : Type) where
  | announce (i : Nat)
  | announceSize
  | readLock
  | readTime
  | linearize (ts : Nat)
  | readUnlock (ts : Nat) (done : Bool)
  | setInsertionTimestamps (ts : Nat) (rest : List N)
  | setDeletionTimestamps (ts : Nat) (rest : List N)
  | retire (rest : List N)
  | succeeded
  | failed (left : Nat)
  deriving DecidableEq

-- Where the node of a call of traversal_try_add comes from.
structure Job (T N : Type) where
  node : N
  nodeSource : Option (T × Nat)
  foundDuringTraversal : Bool
  deriving DecidableEq

-- The reads of traversal_try_add in their order; the last four for an unknown dtime.
inductive Check where
  | itime
  | itimeAgain
  | dtime
  | source
  | dtimeLoop
  | dtimeLast
  | dtimeWait
  deriving DecidableEq

inductive Place (T N : Type) where
  | traversal
  | sizes (others : List T)
  | slots (otherTid : T) (i sz : Nat) (others : List T)
  | bags (others : List T) (allBags : List (List N))
  | scan (allBags : List (List N))
  deriving DecidableEq

inductive Phase (T N : Type) where
  | writeLock
  | load
  | store (ts : Nat)
  | writeUnlock
  | place (place : Place T N)
  | tryAdd (check : Check) (job : Job T N) (place : Place T N)
  | finished
  deriving DecidableEq

inductive Pc (A V T N K : Type) where
  | idle
  | update (u : Update A V N) (stage : Stage N)
  | query (lo hi : K) (phase : Phase T N)
  deriving DecidableEq

/-- `snapshot` are the nodes in the structure when the query writes the timestamp, `during` those
in it at some instant since then and `throughout` those in it at every instant; `limbo` are the
nodes that each thread has retired since then. The hash list holds what `results` holds. -/
structure Query (T N K : Type) where
  rqLinTime : Nat
  endTimestamp : Nat
  snapshot : List N
  during : List N
  throughout : List N
  presented : List N
  limbo : T → List N
  results : List K

/-- `nodes` are the nodes in the structure; `born`, `died` and `killer` say with which timestamp
a node was inserted and deleted, and by whom. `retired` lists what a thread has retired, newest
first. -/
structure World (A V T N K : Type) where
  mem : A → V
  nodes : List N
  timestamp : Nat
  rwlock : RwLock.World T
  itime : N → Nat
  dtime : N → Nat
  announcements : T → Nat → Option N
  numAnnouncements : T → Nat
  retired : T → List N
  pc : T → Pc A V T N K
  query : T → Query T N K
  born : N → Nat
  died : N → Nat
  killer : N → Option T

-- `threads` counts otherTid from 0 to NUM_PROCESSES, an int.
structure Config (T N K : Type) [Fintype T] where
  threads : List T
  all : ∀ t, t ∈ threads
  fits : Fintype.card T < 2 ^ 31
  getKeys : N → List K
  distinct : ∀ node, (getKeys node).Nodup

inductive Event (A V T N K : Type) where
  | update (tid : T) (u : Update A V N)
  | traversalStart (tid : T) (lo hi : K)
  | traversalTryAdd (tid : T) (node : N)
  | traversalEnd (tid : T)
  | getSafeBlockbags (tid : T) (bags : List (List N))
  | finish (tid : T)
  | move (tid : T)

variable {A V T N K : Type} [DecidableEq A] [DecidableEq V] [DecidableEq T] [Fintype T]
    [DecidableEq N] [LinearOrder K]

def initial (mem : A → V) : World A V T N K :=
  { mem := mem, nodes := [], timestamp := 1, rwlock := RwLock.initial,
    itime := fun _ => 0, dtime := fun _ => 0,
    announcements := fun _ _ => none, numAnnouncements := fun _ => 0, retired := fun _ => [], pc :=
      fun _ => .idle,
    query := fun _ => ⟨0, 0, [], [], [], [], fun _ => [], []⟩, born := fun _ => 0, died :=
      fun _ => 0, killer := fun _ => none }

def World.goto (w : World A V T N K) (tid : T) (pc : Pc A V T N K) : World A V T N K :=
  { w with pc := Function.update w.pc tid pc }

def World.setNum (w : World A V T N K) (tid : T) (num : Nat) : World A V T N K :=
  { w with numAnnouncements := Function.update w.numAnnouncements tid num }

def World.setSlot (w : World A V T N K) (tid : T) (i : Nat) (node : N) : World A V T N K :=
  { w with
    announcements := Function.update w.announcements tid
      (Function.update (w.announcements tid) i (some node)) }

def World.setQuery (w : World A V T N K) (tid : T) (query : Query T N K) : World A V T N K :=
  { w with query := Function.update w.query tid query }

-- One step of a call of the RWLock, which the thread enters in the state `start`.
def World.locking (w : World A V T N K) (tid : T) (start : RwLock.Pc) (call : RwLock.Call) :
    Option (World A V T N K) :=
  (RwLock.step w.rwlock (if w.rwlock.pc tid = start then .call tid call else .move tid)).map
  fun rwlock => { w with rwlock := rwlock }

def Update.succeeds (u : Update A V N) (mem : A → V) : Bool :=
  match u.linOldval with
  | none => true
  | some old => mem u.linAddr = old

-- What the data structure promises: new nodes are inserted and present ones are deleted.
def Update.Valid (u : Update A V N) (w : World A V T N K) : Prop :=
  (∀ node ∈ u.insertedNodes, w.born node = 0) ∧ ∀ node ∈ u.deletedNodes, node ∈ w.nodes

instance (u : Update A V N) (w : World A V T N K) : Decidable (u.Valid w) :=
  inferInstanceAs (Decidable ((∀ node ∈ u.insertedNodes, w.born node = 0) ∧
    ∀ node ∈ u.deletedNodes, node ∈ w.nodes))

def Query.linearized (q : Query T N K) (u : Update A V N) : Query T N K :=
  { q with
    during := u.insertedNodes ++ q.during
    throughout := q.throughout.filter fun node => node ∉ u.deletedNodes }

def World.linearized (w : World A V T N K) (tid : T) (u : Update A V N) (ts : Nat) :
    World A V T N K :=
  { w with
    mem := Function.update w.mem u.linAddr u.linNewval
    nodes := (u.insertedNodes ++ w.nodes).filter fun node => node ∉ u.deletedNodes
    query := fun t => (w.query t).linearized u
    born := fun node => if node ∈ u.insertedNodes then ts else w.born node
    died := fun node => if node ∈ u.deletedNodes then ts else w.died node
    killer := fun node => if node ∈ u.deletedNodes then some tid else w.killer node }

def World.retireNode (w : World A V T N K) (tid : T) (node : N) : World A V T N K :=
  { w with
    retired := Function.update w.retired tid (node :: w.retired tid)
    query := fun t => { w.query t with
      limbo := Function.update (w.query t).limbo tid (node :: (w.query t).limbo tid) } }

def updateMove (w : World A V T N K) (tid : T) (u : Update A V N) :
    Stage N → Option (World A V T N K)
  | .announce i =>
      match u.deletedNodes[i]? with
      | some node =>
          some ((w.setSlot tid (w.numAnnouncements tid + i) node).goto tid
            (.update u (.announce (i + 1))))
      | none => some (w.goto tid (.update u .announceSize))
  | .announceSize =>
      some ((w.setNum tid (w.numAnnouncements tid + u.deletedNodes.length)).goto tid
        (.update u .readLock))
  | .readLock =>
      if w.rwlock.pc tid = .reading then some (w.goto tid (.update u .readTime))
      else w.locking tid .idle .readLock
  | .readTime => some (w.goto tid (.update u (.linearize w.timestamp)))
  | .linearize ts =>
      if u.succeeds w.mem = true then
        if u.Valid w then some ((w.linearized tid u ts).goto tid (.update u (.readUnlock ts true)))
        else none
      else some (w.goto tid (.update u (.readUnlock ts false)))
  | .readUnlock ts done =>
      if w.rwlock.pc tid = .idle then
        if done = true then some (w.goto tid
          (.update u (.setInsertionTimestamps ts u.insertedNodes)))
        else some (w.goto tid (.update u (.failed u.deletedNodes.length)))
      else w.locking tid .reading .readUnlock
  | .setInsertionTimestamps ts [] =>
      some (w.goto tid (.update u (.setDeletionTimestamps ts u.deletedNodes)))
  | .setInsertionTimestamps ts (node :: rest) =>
      some ({ w with itime := Function.update w.itime node ts }.goto tid
        (.update u (.setInsertionTimestamps ts rest)))
  | .setDeletionTimestamps _ [] => some (w.goto tid (.update u (.retire u.deletedNodes)))
  | .setDeletionTimestamps ts (node :: rest) =>
      some ({ w with dtime := Function.update w.dtime node ts }.goto tid
        (.update u (.setDeletionTimestamps ts rest)))
  | .retire [] => some (w.goto tid (.update u .succeeded))
  | .retire (node :: rest) => some ((w.retireNode tid node).goto tid (.update u (.retire rest)))
  | .succeeded =>
      some ((w.setNum tid (w.numAnnouncements tid - u.deletedNodes.length)).goto tid .idle)
  | .failed 0 => some (w.goto tid .idle)
  | .failed (left + 1) =>
      some ((w.setNum tid (w.numAnnouncements tid - 1)).goto tid (.update u (.failed left)))

def Config.others (config : Config T N K) (tid : T) : List T :=
  config.threads.filter fun otherTid => otherTid ≠ tid

-- The keys in the range that are not in the hash list.
def Config.newKeys (config : Config T N K) (lo hi : K) (results : List K) (node : N) : List K :=
  (config.getKeys node).filter fun key => lo ≤ key ∧ key ≤ hi ∧ key ∉ results

def addToRQ (config : Config T N K) (w : World A V T N K) (tid : T) (lo hi : K) (node : N)
    (place : Place T N) : World A V T N K :=
  (w.setQuery tid { w.query tid with
    results := (w.query tid).results ++ config.newKeys lo hi (w.query tid).results node }).goto tid
    (.query lo hi (.place place))

-- What follows once dtime is known.
def decideDtime (config : Config T N K) (w : World A V T N K) (tid : T) (lo hi : K) (node : N)
    (place : Place T N) : World A V T N K :=
  if w.dtime node < (w.query tid).rqLinTime then w.goto tid (.query lo hi (.place place))
  else addToRQ config w tid lo hi node place

def tryAddMove (config : Config T N K) (w : World A V T N K) (tid : T) (lo hi : K) (job : Job T N)
    (place : Place T N) :
    Check → World A V T N K
  | .itime =>
      if w.itime job.node = 0 then w else w.goto tid (.query lo hi (.tryAdd .itimeAgain job place))
  | .itimeAgain =>
      if (w.query tid).rqLinTime ≤ w.itime job.node then w.goto tid (.query lo hi (.place place))
      else if job.foundDuringTraversal = true then addToRQ config w tid lo hi job.node place
      else w.goto tid (.query lo hi (.tryAdd .dtime job place))
  | .dtime =>
      if w.dtime job.node = 0 then w.goto tid (.query lo hi (.tryAdd .source job place))
      else decideDtime config w tid lo hi job.node place
  | .source =>
      match job.nodeSource with
      | none => w.goto tid (.query lo hi (.tryAdd .dtimeWait job place))
      | some (otherTid, i) =>
          if w.announcements otherTid i = some job.node then w.goto tid
            (.query lo hi (.tryAdd .dtimeLoop job place))
          else w.goto tid (.query lo hi (.tryAdd .dtimeLast job place))
  | .dtimeLoop =>
      if w.dtime job.node = 0 then w.goto tid (.query lo hi (.tryAdd .source job place))
      else decideDtime config w tid lo hi job.node place
  | .dtimeLast =>
      if w.dtime job.node = 0 then w.goto tid (.query lo hi (.place place))
      else decideDtime config w tid lo hi job.node place
  | .dtimeWait => if w.dtime job.node = 0 then w else decideDtime config w tid lo hi job.node place

def placeMove (config : Config T N K) (w : World A V T N K) (tid : T) (lo hi : K) :
    Place T N → Option (World A V T N K)
  | .traversal => none
  | .sizes [] => some (w.goto tid (.query lo hi (.place (.bags (config.others tid) []))))
  | .sizes (otherTid :: others) =>
      some (w.goto tid (.query lo hi
        (.place (.slots otherTid 0 (w.numAnnouncements otherTid) others))))
  | .slots otherTid i sz others =>
      if i < sz then
        (w.announcements otherTid i).map fun node =>
          w.goto tid (.query lo hi (.tryAdd .itime ⟨node, some (otherTid, i), false⟩
            (.slots otherTid (i + 1) sz others)))
      else some (w.goto tid (.query lo hi (.place (.sizes others))))
  | .bags [] allBags => some (w.goto tid (.query lo hi (.place (.scan allBags))))
  | .bags (_ :: _) _ => none
  | .scan [] => some (w.goto tid (.query lo hi .finished))
  | .scan ([] :: rest) => some (w.goto tid (.query lo hi (.place (.scan rest))))
  | .scan ((node :: bag) :: rest) =>
      if w.dtime node ≠ 0 ∧ (w.query tid).endTimestamp < w.dtime
        node then some (w.goto tid (.query lo hi (.place (.scan (bag :: rest)))))
      else if w.dtime node ≠ 0 ∧
        w.dtime node < (w.query tid).rqLinTime then
        some (w.goto tid (.query lo hi (.place (.scan rest))))
      else some (w.goto tid (.query lo hi
        (.tryAdd .itime ⟨node, none, false⟩ (.scan (bag :: rest)))))

def World.startQuery (w : World A V T N K) (tid : T) (ts : Nat) : World A V T N K :=
  { w.setQuery tid ⟨ts + 1, 0, w.nodes, w.nodes, w.nodes, [], fun _ => [], []⟩ with
    timestamp := ts + 1 }

def queryMove (config : Config T N K) (w : World A V T N K) (tid : T) (lo hi : K) :
    Phase T N → Option (World A V T N K)
  | .writeLock =>
      if w.rwlock.pc tid = .writing then some (w.goto tid (.query lo hi .load))
      else w.locking tid .idle .writeLock
  | .load => some (w.goto tid (.query lo hi (.store w.timestamp)))
  | .store ts => some ((w.startQuery tid ts).goto tid (.query lo hi .writeUnlock))
  | .writeUnlock =>
      if w.rwlock.pc tid = .idle then some (w.goto tid (.query lo hi (.place .traversal)))
      else w.locking tid .writing .writeUnlock
  | .place place => placeMove config w tid lo hi place
  | .tryAdd check job place => some (tryAddMove config w tid lo hi job place check)
  | .finished => none

def move (config : Config T N K) (w : World A V T N K) (tid : T) : Option (World A V T N K) :=
  match w.pc tid with
  | .idle => none
  | .update u stage => updateMove w tid u stage
  | .query lo hi phase => queryMove config w tid lo hi phase

def Config.InRange (config : Config T N K) (lo hi : K) (node : N) : Prop :=
  ∃ key ∈ config.getKeys node, lo ≤ key ∧ key ≤ hi

instance (config : Config T N K) (lo hi : K) (node : N) : Decidable (config.InRange lo hi node) :=
  inferInstanceAs (Decidable (∃ key ∈ config.getKeys node, lo ≤ key ∧ key ≤ hi))

def step (config : Config T N K) (w : World A V T N K) : Event A V T N K → Option (World A V T N K)
  | .update tid u =>
      match w.pc tid with
      | .idle => some (w.goto tid (.update u (.announce 0)))
      | _ => none
  | .traversalStart tid lo hi =>
      match w.pc tid with
      | .idle => some (w.goto tid (.query lo hi .writeLock))
      | _ => none
  | .traversalTryAdd tid node =>
      match w.pc tid with
      | .query lo hi (.place .traversal) =>
          -- The traversal presents nodes that were in the structure at some instant during it.
          if node ∈ (w.query tid).during then
            some ((w.setQuery tid
              { w.query tid with presented := node :: (w.query tid).presented }).goto tid
              (.query lo hi (.tryAdd .itime ⟨node, none, true⟩ .traversal)))
          else none
      | _ => none
  | .traversalEnd tid =>
      match w.pc tid with
      | .query lo hi (.place .traversal) =>
          -- It has presented every node that was there throughout.
          if ∀ node ∈ (w.query tid).throughout, config.InRange lo hi node →
            node ∈ (w.query tid).presented then
            some ((w.setQuery tid { w.query tid with endTimestamp := w.timestamp }).goto tid
              (.query lo hi (.place (.sizes (config.others tid)))))
          else none
      | _ => none
  | .getSafeBlockbags tid bags =>
      match w.pc tid with
      | .query lo hi (.place (.bags (otherTid :: others) allBags)) =>
          -- The bags list, newest first, what the thread has retired since the query began.
          if (∀ bag ∈ bags, bag.Sublist (w.retired otherTid)) ∧
            ∀ node ∈ (w.query tid).limbo otherTid, ∃ bag ∈ bags, node ∈ bag then
            some (w.goto tid (.query lo hi (.place (.bags others (allBags ++ bags)))))
          else none
      | _ => none
  | .finish tid =>
      match w.pc tid with
      | .query _ _ .finished => some (w.goto tid .idle)
      | _ => none
  | .move tid => move config w tid

end SetBench.RangeQuery
