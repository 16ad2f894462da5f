import SetBench.RangeQuery

/-! What the updates and the queries of rq_rwlock.h keep. A query is judged by the timestamps
with which nodes were inserted and deleted, which are fixed at the write to the structure
and reach the nodes later. A node that a query still misses is one that its deleter still
announces, or one that lies in the deleter's limbo bags. -/
namespace SetBench.RangeQuery

variable {A V T N K : Type}

/-- What a query depends on beside its own record. `owes` are the nodes that a thread has taken
out of the structure and not yet retired. -/
structure Shared (T N : Type) where
  timestamp : Nat
  born : N → Nat
  died : N → Nat
  killer : N → Option T
  itime : N → Nat
  owes : T → List N
  announcements : T → Nat → Option N

def Pc.owes : Pc A V T N K → List N
  | .update u (.readUnlock _ true) | .update u (.setInsertionTimestamps _ _) | .update u
    (.setDeletionTimestamps _ _) => u.deletedNodes
  | .update _ (.retire rest) => rest
  | _ => []

def World.shared (w : World A V T N K) : Shared T N :=
  ⟨w.timestamp, w.born, w.died, w.killer, w.itime, fun t => (w.pc t).owes, w.announcements⟩

/-! Nodes and queries. -/

-- The node was in the structure when the timestamp became `time`.
def Shared.Snap (s : Shared T N) (time : Nat) (node : N) : Prop :=
  s.born node ≠ 0 ∧ s.born node < time ∧ (s.died node = 0 ∨ time ≤ s.died node)

def Shared.Dead (s : Shared T N) (q : Query T N K) (node : N) : Prop :=
  s.died node ≠ 0 ∧ s.died node ≤ q.endTimestamp

-- A bag: newest first.
def Shared.Sorted (s : Shared T N) (bag : List N) : Prop :=
  (∀ node ∈ bag, s.died node ≠ 0) ∧ bag.Pairwise fun newer older => s.died older ≤ s.died newer

section Queries

variable [Fintype T] [LinearOrder K]

def Missing (config : Config T N K) (s : Shared T N) (lo hi : K) (q : Query T N K) (node : N) :
    Prop :=
  s.Snap q.rqLinTime node ∧ ∃ key ∈ config.getKeys node, lo ≤ key ∧ key ≤ hi ∧ key ∉ q.results

/-- Where a query that has come to `place` will still meet a node it misses. -/
def Place.Where (s : Shared T N) (q : Query T N K) (node : N) : Place T N → Prop
  | .traversal => node ∉ q.presented
  | .sizes others => s.Dead q node ∧ ∃ v, s.killer node = some v ∧ (v ∈ others ∨ node ∈ q.limbo v)
  | .slots otherTid i sz others =>
      s.Dead q node ∧ ∃ v, s.killer node = some v ∧ (v ∈ others ∨ node ∈ q.limbo v
      ∨ v = otherTid ∧ node ∈ s.owes otherTid ∧ ∃ j, i ≤ j ∧ j < sz ∧ s.announcements otherTid j =
        some node)
  | .bags others allBags =>
      s.Dead q node ∧ ((∃ v, s.killer node = some v ∧ v ∈ others ∧ node ∈ q.limbo v) ∨
        ∃ bag ∈ allBags, node ∈ bag)
  | .scan allBags => s.Dead q node ∧ ∃ bag ∈ allBags, node ∈ bag

def Place.Sorted (s : Shared T N) : Place T N → Prop
  | .bags _ allBags | .scan allBags => ∀ bag ∈ allBags, s.Sorted bag
  | _ => True

-- The call of traversal_try_add will add the keys of the node.
def Check.Finds (s : Shared T N) (q : Query T N K) (job : Job T N) (node : N) (check : Check) :
    Prop :=
  node = job.node ∧ check ≠ .dtimeLast ∧ ∀ otherTid i, job.nodeSource = some (otherTid, i) →
    s.Dead q node ∧ s.killer node = some otherTid ∧ node ∈ s.owes otherTid ∧
      s.announcements otherTid i = some node

def Check.Ok (s : Shared T N) (q : Query T N K) (job : Job T N) : Check → Prop
  | .itime => True
  | .itimeAgain => s.itime job.node ≠ 0
  | .dtime | .source | .dtimeLoop | .dtimeLast | .dtimeWait =>
      s.born job.node ≠ 0 ∧ s.born job.node < q.rqLinTime

structure Tried (s : Shared T N) (q : Query T N K) (check : Check) (job : Job T N)
    (place : Place T N) : Prop where
  checked : check.Ok s q job
  found : job.foundDuringTraversal = true → job.node ∈ q.during
  origin : ∀ otherTid i, job.nodeSource = some (otherTid, i) → ∃ sz others, place = .slots otherTid
    (i + 1) sz others

structure Live (config : Config T N K) (s : Shared T N) (t : T) (lo hi : K) (q : Query T N K) :
    Prop where
  positive : 0 < q.rqLinTime
  past : q.rqLinTime ≤ s.timestamp
  snapshot : ∀ node, node ∈ q.snapshot ↔ s.Snap q.rqLinTime node
  during : ∀ node ∈ q.during, s.born node ≠ 0 ∧ (s.died node = 0 ∨ q.rqLinTime ≤ s.died node)
  throughout : ∀ node, s.Snap q.rqLinTime node → node ∈ q.throughout ∨ s.died node ≠ 0
  debt : ∀ node, q.rqLinTime ≤ s.died node → ∃ v, v ≠ t ∧ s.killer node = some v ∧
    (node ∈ s.owes v ∨ node ∈ q.limbo v)
  sound : ∀ key ∈ q.results, ∃ node, s.Snap q.rqLinTime node ∧ key ∈ config.getKeys node ∧
    lo ≤ key ∧ key ≤ hi
  nodup : q.results.Nodup

def Phase.Ok (config : Config T N K) (s : Shared T N) (t : T) (lo hi : K) (q : Query T N K) :
    Phase T N → Prop
  | .writeLock | .load | .store _ => True
  | .writeUnlock => Live config s t lo hi q ∧ q.presented = []
  | .place spot =>
      Live config s t lo hi q ∧ spot.Sorted s ∧ ∀ node, Missing config s lo hi q node →
        spot.Where s q node
  | .tryAdd check job spot => Live config s t lo hi q ∧ spot.Sorted s ∧ Tried s q check job spot
      ∧ ∀ node, Missing config s lo hi q node → spot.Where s q node ∨ check.Finds s q job node
  | .finished => Live config s t lo hi q ∧ ∀ node, ¬ Missing config s lo hi q node

def Pc.QueryOk (config : Config T N K) (s : Shared T N) (t : T) (q : Query T N K) :
    Pc A V T N K → Prop
  | .query lo hi phase => phase.Ok config s t lo hi q
  | _ => True

end Queries

/-! Threads. -/

def Update.Posted (u : Update A V N) (num : Nat) (slots : Nat → Option N) : Prop :=
  num = u.deletedNodes.length ∧ ∀ j < u.deletedNodes.length, slots j = u.deletedNodes[j]?

def Stage.Good (s : Shared T N) (lockPc : RwLock.Pc) (num : Nat) (slots : Nat → Option N)
    (u : Update A V N) : Stage N → Prop
  | .announce i => num = 0 ∧ ∀ j < i, slots j = u.deletedNodes[j]?
  | .announceSize => num = 0 ∧ ∀ j < u.deletedNodes.length, slots j = u.deletedNodes[j]?
  | .readLock => u.Posted num slots
  | .readTime => u.Posted num slots ∧ lockPc = .reading
  | .linearize ts => u.Posted num slots ∧ lockPc = .reading ∧ ts = s.timestamp
  | .readUnlock ts true | .setInsertionTimestamps ts _ | .setDeletionTimestamps ts _ =>
      u.Posted num slots ∧ 0 < ts ∧ (∀ node ∈ u.insertedNodes, s.born node = ts) ∧
        ∀ node ∈ u.deletedNodes, s.died node = ts
  | .retire _ => u.Posted num slots ∧ ∃ ts, 0 < ts ∧ ∀ node ∈ u.deletedNodes, s.died node = ts
  | .readUnlock _ false | .succeeded => num = u.deletedNodes.length
  | .failed left => num = left

-- The nodes that a loop over a list has left are nodes of the list.
def Stage.Within (u : Update A V N) : Stage N → Prop
  | .setInsertionTimestamps _ rest => rest ⊆ u.insertedNodes
  | .setDeletionTimestamps _ rest | .retire rest => rest ⊆ u.deletedNodes
  | _ => True

def Phase.Good (s : Shared T N) (lockPc : RwLock.Pc) : Phase T N → Prop
  | .load => lockPc = .writing
  | .store ts => lockPc = .writing ∧ ts = s.timestamp
  | _ => True

def Pc.Good (s : Shared T N) (lockPc : RwLock.Pc) (num : Nat) (slots : Nat → Option N) :
    Pc A V T N K → Prop
  | .idle => num = 0
  | .update u stage => stage.Good s lockPc num slots u ∧ stage.Within u
  | .query _ _ phase => num = 0 ∧ phase.Good s lockPc

structure Facts (w : World A V T N K) : Prop where
  positive : 0 < w.timestamp
  nodes : ∀ node, node ∈ w.nodes ↔ w.born node ≠ 0 ∧ w.died node = 0
  unborn : ∀ node, w.born node = 0 → w.died node = 0
  bornLe : ∀ node, w.born node ≤ w.timestamp
  diedLe : ∀ node, w.died node ≤ w.timestamp
  itime : ∀ node, w.itime node ≠ 0 → w.itime node = w.born node
  dtime : ∀ node, w.dtime node ≠ 0 → w.dtime node = w.died node
  retired : ∀ t, w.shared.Sorted (w.retired t)
  order : ∀ t, ∀ y ∈ (w.pc t).owes, ∀ x ∈ w.retired t, w.died x ≤ w.died y

structure Inv [DecidableEq T] [Fintype T] [LinearOrder K] (config : Config T N K)
    (w : World A V T N K) : Prop where
  lock : RwLock.Inv w.rwlock
  facts : Facts w
  threads : ∀ t, (w.pc t).Good w.shared (w.rwlock.pc t) (w.numAnnouncements t) (w.announcements t)
  queries : ∀ t, (w.pc t).QueryOk config w.shared t (w.query t)

/-! What the steps of the others leave. -/

/-- A step of another thread, seen by the query of `t`. -/
structure Later (t : T) (s s' : Shared T N) (q q' : Query T N K) : Prop where
  time : s.timestamp ≤ s'.timestamp
  born : ∀ node, s'.born node = s.born node ∨ s.born node = 0 ∧ s.timestamp ≤ s'.born node
  died : ∀ node, s'.died node = s.died node ∧ s'.killer node = s.killer node
    ∨ s.died node = 0 ∧ s.timestamp ≤ s'.died node ∧ ∃ v, v ≠ t ∧ s'.killer node = some v ∧
      node ∈ s'.owes v
  itime : ∀ node, s.itime node ≠ 0 → s'.itime node ≠ 0
  owes : ∀ v, ∀ node ∈ s.owes v, node ∈ s'.owes v ∧ s'.announcements v = s.announcements v ∨
    node ∈ q'.limbo v
  limbo : ∀ v, ∀ node ∈ q.limbo v, node ∈ q'.limbo v
  during : ∀ node ∈ q.during, node ∈ q'.during
  entered : ∀ node ∈ q'.during, node ∈ q.during ∨ s'.born node ≠ 0 ∧ s'.died node = 0
  throughout : ∀ node ∈ q.throughout, node ∈ q'.throughout ∨ s'.died node ≠ 0
  rqLinTime : q'.rqLinTime = q.rqLinTime
  endTimestamp : q'.endTimestamp = q.endTimestamp
  snapshot : q'.snapshot = q.snapshot
  presented : q'.presented = q.presented
  results : q'.results = q.results

section Later

variable {t : T} {s s' : Shared T N} {q q' : Query T N K} (later : Later t s s' q q')

include later

theorem Later.died_of {node : N} (dead : s.died node ≠ 0) :
    s'.died node = s.died node ∧ s'.killer node = s.killer node := by
  rcases later.died node with same | ⟨alive, _⟩
  · exact same
  · exact (dead alive).elim

theorem Later.sorted {bag : List N} (sorted : s.Sorted bag) : s'.Sorted bag := by
  have same (node : N) (member : node ∈ bag) : s'.died node = s.died node :=
    (later.died_of (sorted.1 node member)).1
  refine ⟨fun node member => ?_, ?_⟩
  · rw [same node member]
    exact sorted.1 node member
  · refine sorted.2.imp_of_mem fun first second order => ?_
    rw [same _ first, same _ second]
    exact order

theorem Later.dead {node : N} (dead : s.Dead q node) : s'.Dead q' node := by
  have same := (later.died_of dead.1).1
  exact ⟨by rw [same]; exact dead.1, by rw [same, later.endTimestamp]; exact dead.2⟩

theorem Later.snap {time : Nat} (past : time ≤ s.timestamp) (node : N) :
    s'.Snap time node ↔ s.Snap time node := by
  rcases later.born node with born | ⟨unborn, late⟩
  · rcases later.died node with ⟨died, _⟩ | ⟨alive, late, _⟩
    · simp only [Shared.Snap, born, died]
    · simp only [Shared.Snap, born]
      constructor
      · rintro ⟨some_, before, _⟩
        exact ⟨some_, before, .inl alive⟩
      · rintro ⟨some_, before, _⟩
        exact ⟨some_, before, .inr (past.trans late)⟩
  · constructor
    · rintro ⟨_, before, _⟩
      omega
    · rintro ⟨some_, _⟩
      exact (some_ unborn).elim

theorem Later.where {place : Place T N} {node : N} (here : place.Where s q node) :
    place.Where s' q' node := by
  cases place with
  | traversal =>
      show node ∉ q'.presented
      rw [later.presented]
      exact here
  | sizes others =>
      obtain ⟨dead, v, killer, cases_⟩ := here
      refine ⟨later.dead dead, v, (later.died_of dead.1).2.trans killer, ?_⟩
      exact cases_.imp_right (later.limbo v node)
  | slots otherTid i sz others =>
      obtain ⟨dead, v, killer, cases_⟩ := here
      refine ⟨later.dead dead, v, (later.died_of dead.1).2.trans killer, ?_⟩
      rcases cases_ with ahead | retired | ⟨rfl, owed, j, low, high, slot⟩
      · exact .inl ahead
      · exact .inr (.inl (later.limbo v node retired))
      · rcases later.owes v node owed with ⟨still, slots⟩ | retired
        · exact .inr (.inr ⟨rfl, still, j, low, high, by rw [slots]; exact slot⟩)
        · exact .inr (.inl retired)
  | bags others allBags =>
      obtain ⟨dead, ⟨v, killer, ahead, retired⟩ | bag⟩ := here
      · exact ⟨later.dead dead, .inl ⟨v, (later.died_of dead.1).2.trans killer, ahead,
          later.limbo v node retired⟩⟩
      · exact ⟨later.dead dead, .inr bag⟩
  | scan allBags => exact ⟨later.dead here.1, here.2⟩

theorem Later.place_sorted {place : Place T N} (sorted : place.Sorted s) : place.Sorted s' := by
  cases place with
  | bags others allBags => exact fun bag member => later.sorted (sorted bag member)
  | scan allBags => exact fun bag member => later.sorted (sorted bag member)
  | traversal | sizes | slots => trivial

-- A node that its deleter retires under the query's eyes is met in the limbo bags.
theorem Later.finds {check : Check} {job : Job T N} {place : Place T N} {node : N}
    (tried : Tried s q check job place) (finds : check.Finds s q job node) :
    place.Where s' q' node ∨ check.Finds s' q' job node := by
  obtain ⟨self, early, source⟩ := finds
  cases from_ : job.nodeSource with
  | none => exact .inr ⟨self, early, fun otherTid i same => by rw [from_] at same; cases same⟩
  | some pair =>
      obtain ⟨otherTid, i⟩ := pair
      obtain ⟨dead, killer, owed, slot⟩ := source otherTid i from_
      have killer' := (later.died_of dead.1).2.trans killer
      rcases later.owes otherTid node owed with ⟨still, slots⟩ | retired
      · refine .inr ⟨self, early, fun otherTid' i' same => ?_⟩
        rw [from_] at same
        cases same
        exact ⟨later.dead dead, killer', still, by rw [slots]; exact slot⟩
      · obtain ⟨sz, others, rfl⟩ := tried.origin otherTid i from_
        exact .inl ⟨later.dead dead, otherTid, killer', .inr (.inl retired)⟩

theorem Later.tried {check : Check} {job : Job T N} {place : Place T N}
    (tried : Tried s q check job place) : Tried s' q' check job place := by
  have birth (old : s.born job.node ≠ 0 ∧ s.born job.node < q.rqLinTime) : s'.born job.node ≠ 0 ∧
    s'.born job.node < q'.rqLinTime := by
    rcases later.born job.node with same | ⟨unborn, _⟩
    · rw [same, later.rqLinTime]
      exact old
    · exact (old.1 unborn).elim
  refine ⟨?_, fun found => later.during _ (tried.found found), tried.origin⟩
  have checked := tried.checked
  cases check with
  | itime => trivial
  | itimeAgain => exact later.itime _ checked
  | dtime | source | dtimeLoop | dtimeLast | dtimeWait => exact birth checked

variable [Fintype T] [LinearOrder K] {config : Config T N K} {lo hi : K}

theorem Later.missing (past : q.rqLinTime ≤ s.timestamp) {node : N}
    (missing : Missing config s' lo hi q' node) :
    Missing config s lo hi q node := by
  obtain ⟨snap, key⟩ := missing
  rw [later.rqLinTime, later.snap past] at snap
  rw [later.results] at key
  exact ⟨snap, key⟩

theorem Later.live (live : Live config s t lo hi q) : Live config s' t lo hi q' := by
  constructor
  · rw [later.rqLinTime]
    exact live.positive
  · rw [later.rqLinTime]
    exact live.past.trans later.time
  · intro node
    rw [later.snapshot, later.rqLinTime, later.snap live.past]
    exact live.snapshot node
  · intro node member
    rw [later.rqLinTime]
    rcases later.entered node member with old | ⟨some_, alive⟩
    · have before := live.during node old
      have past := live.past
      rcases later.born node with born | ⟨unborn, _⟩
      · rw [born]
        rcases later.died node with ⟨died, _⟩ | ⟨_, late, _⟩
        · rw [died]
          exact before
        · exact ⟨before.1, .inr (past.trans late)⟩
      · exact (before.1 unborn).elim
    · exact ⟨some_, .inl alive⟩
  · intro node snap
    rw [later.rqLinTime, later.snap live.past] at snap
    rcases live.throughout node snap with inside | dead
    · exact later.throughout node inside
    · right
      rw [(later.died_of dead).1]
      exact dead
  · intro node late
    rw [later.rqLinTime] at late
    rcases later.died node with ⟨died, killer⟩ | ⟨_, _, v, apart, killer, owed⟩
    · rw [died] at late
      obtain ⟨v, apart, by_, debt⟩ := live.debt node late
      refine ⟨v, apart, killer.trans by_, ?_⟩
      rcases debt with owed | retired
      · exact (later.owes v node owed).imp_left And.left
      · exact .inr (later.limbo v node retired)
    · exact ⟨v, apart, killer, .inl owed⟩
  · intro key member
    rw [later.results] at member
    obtain ⟨node, snap, rest⟩ := live.sound key member
    refine ⟨node, ?_, rest⟩
    rw [later.rqLinTime, later.snap live.past]
    exact snap
  · rw [later.results]
    exact live.nodup

theorem Later.query_ok {pc : Pc A V T N K} (ok : pc.QueryOk config s t q) :
    pc.QueryOk config s' t q' := by
  cases pc with
  | idle => trivial
  | update u stage => trivial
  | query lo hi phase =>
      cases phase with
      | writeLock | load | store => trivial
      | writeUnlock => exact ⟨later.live ok.1, later.presented.trans ok.2⟩
      | place place =>
          obtain ⟨live, sorted, missed⟩ := ok
          exact ⟨later.live live, later.place_sorted sorted,
            fun node missing => later.where (missed node (later.missing live.past missing))⟩
      | tryAdd check job place =>
          obtain ⟨live, sorted, tried, missed⟩ := ok
          refine ⟨later.live live, later.place_sorted sorted, later.tried tried,
            fun node missing => ?_⟩
          rcases missed node (later.missing live.past missing) with ahead | finds
          · exact .inl (later.where ahead)
          · exact later.finds tried finds
      | finished =>
          exact ⟨later.live ok.1, fun node missing => ok.2 node (later.missing ok.1.past missing)⟩

end Later

end SetBench.RangeQuery
