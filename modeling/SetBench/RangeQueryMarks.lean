import SetBench.RangeQueryAtomic

/-! What is left behind in the nodes and in the announcements when no update is in progress:
a node that was ever in the structure has its itime, a retired node its dtime, and a slot
that was ever counted keeps some node. An update announces nodes that its search has found. -/
namespace SetBench.RangeQuery

open Transition

variable {A V T N K : Type}

/-- The callers look for a node before they delete it. -/
def Searched (w : World A V T N K) : Event A V T N K → Prop
  | .update _ u => ∀ node ∈ u.deletedNodes, w.born node ≠ 0
  | _ => True

instance (w : World A V T N K) (event : Event A V T N K) : Decidable (Searched w event) := by
  unfold Searched
  split <;> infer_instance

-- The nodes whose itime is still to be set.
def Pc.inserting : Pc A V T N K → List N
  | .update u (.readUnlock _ true) => u.insertedNodes
  | .update _ (.setInsertionTimestamps _ rest) => rest
  | _ => []

def Place.Filled (w : World A V T N K) : Place T N → Prop
  | .slots otherTid _ sz _ => ∀ j < sz, w.announcements otherTid j ≠ none
  | .bags _ allBags | .scan allBags => ∀ bag ∈ allBags, ∀ node ∈ bag, w.dtime node ≠ 0
  | _ => True

structure Job.Known (w : World A V T N K) (job : Job T N) : Prop where
  born : w.born job.node ≠ 0
  announced : job.nodeSource ≠ none → job.foundDuringTraversal = false
  deleted : job.nodeSource = none → job.foundDuringTraversal = false → w.dtime job.node ≠ 0

-- How a call of traversal_try_add came to a check.
def Check.Reached (job : Job T N) : Check → Prop
  | .itime | .itimeAgain => True
  | .dtime | .source | .dtimeLoop | .dtimeLast => job.foundDuringTraversal = false
  | .dtimeWait => job.foundDuringTraversal = false ∧ job.nodeSource = none

def Stage.Marked (w : World A V T N K) (u : Update A V N) : Stage N → Prop
  | .setDeletionTimestamps _ rest => ∀ node ∈ u.deletedNodes, node ∈ rest ∨ w.dtime node ≠ 0
  | .retire _ => ∀ node ∈ u.deletedNodes, w.dtime node ≠ 0
  | _ => True

def Phase.Settled (w : World A V T N K) : Phase T N → Prop
  | .place spot => spot.Filled w
  | .tryAdd check job spot => check.Reached job ∧ job.Known w ∧ spot.Filled w
  | _ => True

def Pc.Settled (w : World A V T N K) : Pc A V T N K → Prop
  | .idle => True
  | .update u stage => (∀ node ∈ u.deletedNodes, w.born node ≠ 0) ∧ stage.Marked w u
  | .query _ _ phase => phase.Settled w

structure Settled (w : World A V T N K) : Prop where
  itime : ∀ node, w.born node ≠ 0 → w.itime node ≠ 0 ∨ ∃ t, node ∈ (w.pc t).inserting
  retired : ∀ t, ∀ node ∈ w.retired t, w.dtime node ≠ 0
  limbo : ∀ t v, (w.query t).limbo v ⊆ w.retired v
  filled : ∀ t, ∀ j < w.numAnnouncements t, w.announcements t j ≠ none
  announced : ∀ t j node, w.announcements t j = some node → w.born node ≠ 0
  threads : ∀ t, (w.pc t).Settled w

-- Marks are set and never taken back.
structure Grows (w after : World A V T N K) : Prop where
  born : ∀ node, w.born node ≠ 0 → after.born node ≠ 0
  dtime : ∀ node, w.dtime node ≠ 0 → after.dtime node ≠ 0
  slots : ∀ t j, w.announcements t j ≠ none → after.announcements t j ≠ none

section Grows

variable {w after : World A V T N K} (grows : Grows w after)

include grows

theorem Grows.filled {place : Place T N} (filled : place.Filled w) : place.Filled after := by
  cases place with
  | slots otherTid i sz others => exact fun j below => grows.slots otherTid j (filled j below)
  | bags others allBags =>
      exact fun bag member node inside => grows.dtime node (filled bag member node inside)
  | scan allBags =>
      exact fun bag member node inside => grows.dtime node (filled bag member node inside)
  | traversal | sizes => trivial

theorem Grows.settled {pc : Pc A V T N K} (settled : pc.Settled w) : pc.Settled after := by
  cases pc with
  | idle => trivial
  | update u stage =>
      refine ⟨fun node member => grows.born node (settled.1 node member), ?_⟩
      replace settled := settled.2
      cases stage with
      | setDeletionTimestamps ts rest =>
          exact fun node member => (settled node member).imp_right (grows.dtime node)
      | retire rest => exact fun node member => grows.dtime node (settled node member)
      | announce | announceSize | readLock | readTime | linearize | readUnlock
      | setInsertionTimestamps | succeeded | failed => trivial
  | query lo hi phase =>
      cases phase with
      | place place => exact grows.filled settled
      | tryAdd check job place =>
          obtain ⟨reached, known, filled⟩ := settled
          exact ⟨reached, ⟨grows.born _ known.born, known.announced, fun none_ lost => grows.dtime _
            (known.deleted none_ lost)⟩, grows.filled filled⟩
      | writeLock | load | store | writeUnlock | finished => trivial

end Grows

/-- The world of a query that has gone on alone. -/
def World.lone [DecidableEq T] (w : World A V T N K) (tid : T) (results : List K)
    (pc : Pc A V T N K) : World A V T N K :=
  (w.setQuery tid { w.query tid with results := results }).goto tid pc

section Steps

variable [DecidableEq T] {w : World A V T N K} {tid : T}

theorem World.goto_lone (w : World A V T N K) (tid : T) (pc : Pc A V T N K) :
    w.goto tid pc = w.lone tid (w.query tid).results pc := by
  simp only [World.lone, World.setQuery, Function.update_eq_self]

theorem World.lone_self {pc : Pc A V T N K} (here : w.pc tid = pc) :
    w.lone tid (w.query tid).results pc = w := by
  rw [← World.goto_lone, ← here, World.goto, Function.update_eq_self]

variable (settled : Settled w)

include settled

theorem Settled.advance {after : World A V T N K} (grows : Grows w after)
    (others : ∀ v, v ≠ tid → after.pc v = w.pc v) (pc : (after.pc tid).Settled after) :
    ∀ t, (after.pc t).Settled after := by
  intro t
  by_cases self : t = tid
  · rw [self]
    exact pc
  · rw [others t self]
    exact grows.settled (settled.threads t)

-- A step of a thread that owes no itime.
theorem Settled.itime_kept {after : World A V T N K} {node : N}
    (inserting : (w.pc tid).inserting = []) (others : ∀ v, v ≠ tid → after.pc v = w.pc v)
    (born : w.born node ≠ 0) : w.itime node ≠ 0 ∨ ∃ t, node ∈ (after.pc t).inserting := by
  refine (settled.itime node born).imp_right ?_
  rintro ⟨t, member⟩
  refine ⟨t, ?_⟩
  by_cases self : t = tid
  · rw [self, inserting] at member
    cases member
  · rw [others t self]
    exact member

/-- A step that sets no mark. -/
theorem Settled.quiet (tid : T) {after : World A V T N K} (born : after.born = w.born)
    (itime : after.itime = w.itime) (dtime : after.dtime = w.dtime)
    (retired : after.retired = w.retired) (announcements : after.announcements = w.announcements)
    (limbo : ∀ t v, (after.query t).limbo v ⊆ (w.query t).limbo v)
    (num : ∀ t, after.numAnnouncements t ≤ w.numAnnouncements t)
    (others : ∀ v, v ≠ tid → after.pc v = w.pc v)
    (inserting : (w.pc tid).inserting ⊆ (after.pc tid).inserting) (pc : (after.pc tid).Settled w) :
    Settled after := by
  have grows : Grows w after :=
    ⟨fun node some_ => by rw [born]; exact some_, fun node some_ => by rw [dtime]; exact some_,
      fun t j some_ => by rw [announcements]; exact some_⟩
  refine ⟨fun node some_ => ?_, ?_, fun t v => ?_, fun t j below => ?_, ?_,
    settled.advance grows others (grows.settled pc)⟩
  · rw [born] at some_
    rw [itime]
    refine (settled.itime node some_).imp_right ?_
    rintro ⟨t, member⟩
    refine ⟨t, ?_⟩
    by_cases self : t = tid
    · rw [self] at member ⊢
      exact inserting member
    · rw [others t self]
      exact member
  · rw [retired, dtime]
    exact settled.retired
  · rw [retired]
    exact List.Subset.trans (limbo t v) (settled.limbo t v)
  · rw [announcements]
    exact settled.filled t j (below.trans_le (num t))
  · rw [announcements, born]
    exact settled.announced

theorem Settled.goto {pc : Pc A V T N K} (inserting : (w.pc tid).inserting ⊆ pc.inserting)
    (ok : pc.Settled w) : Settled (w.goto tid pc) := by
  refine settled.quiet tid rfl rfl rfl rfl rfl (fun _ _ _ member => member) (fun _ => Nat.le_refl _)
    (fun v apart => Function.update_of_ne apart _ _) ?_ ?_
  · simpa only [World.goto, Function.update_self] using inserting
  · simpa only [World.goto, Function.update_self] using ok

theorem Settled.setNum {pc : Pc A V T N K} {num : Nat} (fewer : num ≤ w.numAnnouncements tid)
    (inserting : (w.pc tid).inserting ⊆ pc.inserting) (ok : pc.Settled w) :
    Settled ((w.setNum tid num).goto tid pc) := by
  refine settled.quiet tid rfl rfl rfl rfl rfl (fun _ _ _ member => member) (fun t => ?_)
    (fun v apart => Function.update_of_ne apart _ _) ?_ ?_
  · show Function.update w.numAnnouncements tid num t ≤ w.numAnnouncements t
    by_cases self : t = tid
    · rw [self, Function.update_self]
      exact fewer
    · rw [Function.update_of_ne self]
  · simpa only [World.goto, World.setNum, Function.update_self] using inserting
  · simpa only [World.goto, World.setNum, Function.update_self] using ok

-- The query of a thread changes, and forgets at most some of what was retired.
theorem Settled.asks {q : Query T N K} {pc : Pc A V T N K}
    (limbo : ∀ v, q.limbo v ⊆ (w.query tid).limbo v)
    (inserting : (w.pc tid).inserting ⊆ pc.inserting) (ok : pc.Settled w) :
    Settled ((w.setQuery tid q).goto tid pc) := by
  refine settled.quiet tid rfl rfl rfl rfl rfl (fun t v => ?_) (fun _ => Nat.le_refl _)
    (fun v apart => Function.update_of_ne apart _ _) ?_ ?_
  · show (Function.update w.query tid q t).limbo v ⊆ (w.query t).limbo v
    by_cases self : t = tid
    · rw [self, Function.update_self]
      exact limbo v
    · rw [Function.update_of_ne self]
      exact fun _ member => member
  · simpa only [World.goto, World.setQuery, Function.update_self] using inserting
  · simpa only [World.goto, World.setQuery, Function.update_self] using ok

theorem Settled.locking {start : RwLock.Pc} {call : RwLock.Call} {after : World A V T N K}
    (locked : w.locking tid start call = some after) :
    Settled after := by
  obtain ⟨rwlock, -, rfl⟩ := Option.map_eq_some_iff.mp locked
  exact settled.quiet tid rfl rfl rfl rfl rfl (fun _ _ _ member => member) (fun _ => Nat.le_refl _)
    (fun _ _ => rfl)
    (fun _ member => member) (settled.threads tid)

theorem Settled.setSlot {pc : Pc A V T N K} {i : Nat} {node : N} (born : w.born node ≠ 0)
    (inserting : (w.pc tid).inserting = []) (ok : pc.Settled w) :
    Settled ((w.setSlot tid i node).goto tid pc) := by
  have slot (t : T) (j : Nat) : (w.setSlot tid i node).announcements t j = w.announcements t j ∨
    (w.setSlot tid i node).announcements t j = some node := by
    by_cases self : t = tid
    · simp only [World.setSlot, self, Function.update_self]
      by_cases same : j = i
      · right
        rw [same, Function.update_self]
      · left
        rw [Function.update_of_ne same]
    · left
      simp only [World.setSlot, Function.update_of_ne self]
  have grows : Grows w ((w.setSlot tid i node).goto tid pc) := by
    refine ⟨fun _ some_ => some_, fun _ some_ => some_, fun t j some_ => ?_⟩
    show (w.setSlot tid i node).announcements t j ≠ none
    rcases slot t j with same | new
    · rw [same]
      exact some_
    · rw [new]
      exact Option.some_ne_none _
  refine ⟨fun other some_ => ?_, settled.retired, settled.limbo, fun t j below => grows.slots t j
    (settled.filled t j below), fun t j other here => ?_,
    settled.advance grows (fun v apart => Function.update_of_ne apart _ _) ?_⟩
  · exact settled.itime_kept inserting (fun v apart => Function.update_of_ne apart _ _) some_
  · rcases slot t j with same | new
    · exact settled.announced t j other (same.symm.trans here)
    · cases new.symm.trans here
      exact born
  · refine grows.settled ?_
    simpa only [World.goto, World.setSlot, Function.update_self] using ok

theorem Settled.setItime [DecidableEq N] {u : Update A V N} {ts : Nat} {node : N} {rest : List N}
    (positive : 0 < ts) (pc : w.pc tid = .update u (.setInsertionTimestamps ts (node :: rest))) :
    Settled ({ w with itime := Function.update w.itime node ts }.goto tid
      (.update u (.setInsertionTimestamps ts rest))) := by
  have grows : Grows w ({ w with itime := Function.update w.itime node ts }.goto tid
    (.update u (.setInsertionTimestamps ts rest))) :=
    ⟨fun _ some_ => some_, fun _ some_ => some_, fun _ _ some_ => some_⟩
  have own := settled.threads tid
  rw [pc] at own
  refine ⟨fun other some_ => ?_, settled.retired, settled.limbo, settled.filled, settled.announced,
    settled.advance grows (fun v apart => Function.update_of_ne apart _ _) ?_⟩
  · by_cases same : other = node
    · left
      show Function.update w.itime node ts other ≠ 0
      rw [same, Function.update_self]
      omega
    · simp only [World.goto, Function.update_of_ne same]
      refine (settled.itime other some_).imp_right ?_
      rintro ⟨t, member⟩
      refine ⟨t, ?_⟩
      by_cases self : t = tid
      · rw [self, pc] at member
        rw [self, Function.update_self]
        exact List.mem_of_ne_of_mem same member
      · rw [Function.update_of_ne self]
        exact member
  · simp only [World.goto, Function.update_self]
    exact ⟨own.1, trivial⟩

theorem Settled.setDtime [DecidableEq N] {u : Update A V N} {ts : Nat} {node : N} {rest : List N}
    (positive : 0 < ts) (pc : w.pc tid = .update u (.setDeletionTimestamps ts (node :: rest))) :
    Settled ({ w with dtime := Function.update w.dtime node ts }.goto tid
      (.update u (.setDeletionTimestamps ts rest))) := by
  have set (other : N) (some_ : other = node ∨ w.dtime other ≠ 0) :
    Function.update w.dtime node ts other ≠ 0 := by
    by_cases same : other = node
    · rw [same, Function.update_self]
      omega
    · rw [Function.update_of_ne same]
      exact some_.resolve_left same
  have grows : Grows w ({ w with dtime := Function.update w.dtime node ts }.goto tid
    (.update u (.setDeletionTimestamps ts rest))) :=
    ⟨fun _ some_ => some_, fun other some_ => set other (.inr some_), fun _ _ some_ => some_⟩
  have own := settled.threads tid
  rw [pc] at own
  refine ⟨fun other some_ => ?_, fun t other member => set other
    (.inr (settled.retired t other member)), settled.limbo, settled.filled,
    settled.announced, settled.advance grows (fun v apart => Function.update_of_ne apart _ _) ?_⟩
  · exact settled.itime_kept (by rw [pc]; rfl) (fun v apart => Function.update_of_ne apart _ _)
      some_
  · simp only [World.goto, Function.update_self]
    refine ⟨own.1, fun other member => ?_⟩
    rcases own.2 other member with ahead | some_
    · rcases List.mem_cons.mp ahead with same | later
      · exact .inr (set other (.inl same))
      · exact .inl later
    · exact .inr (set other (.inr some_))

theorem Settled.retireNode {u : Update A V N} {node : N} {rest : List N}
    (pc : w.pc tid = .update u (.retire (node :: rest))) (within : node ∈ u.deletedNodes) :
    Settled ((w.retireNode tid node).goto tid (.update u (.retire rest))) := by
  have own := settled.threads tid
  rw [pc] at own
  have grows : Grows w ((w.retireNode tid node).goto tid (.update u (.retire rest))) :=
    ⟨fun _ some_ => some_, fun _ some_ => some_, fun _ _ some_ => some_⟩
  refine ⟨fun other some_ => ?_, fun t other member => ?_, fun t v => ?_, settled.filled,
    settled.announced,
    settled.advance grows (fun v apart => Function.update_of_ne apart _ _) ?_⟩
  · exact settled.itime_kept (by rw [pc]; rfl) (fun v apart => Function.update_of_ne apart _ _)
      some_
  · by_cases self : t = tid
    · simp only [World.goto, World.retireNode, self, Function.update_self] at member
      rcases List.mem_cons.mp member with rfl | old
      · exact own.2 _ within
      · exact settled.retired tid other old
    · simp only [World.goto, World.retireNode, Function.update_of_ne self] at member
      exact settled.retired t other member
  · simp only [World.goto, World.retireNode]
    by_cases self : v = tid
    · rw [self, Function.update_self, Function.update_self]
      exact List.cons_subset_cons node (settled.limbo t tid)
    · rw [Function.update_of_ne self, Function.update_of_ne self]
      exact settled.limbo t v
  · simp only [World.goto, Function.update_self]
    exact own

theorem Settled.linearized [DecidableEq A] [DecidableEq N] {u : Update A V N} {ts : Nat}
    (positive : 0 < ts) (pc : w.pc tid = .update u (.linearize ts)) :
    Settled ((w.linearized tid u ts).goto tid (.update u (.readUnlock ts true))) := by
  have own := settled.threads tid
  rw [pc] at own
  have born (node : N) (some_ : w.born node ≠ 0) : (w.linearized tid u ts).born node ≠ 0 := by
    simp only [World.linearized]
    split
    · omega
    · exact some_
  have grows : Grows w ((w.linearized tid u ts).goto tid (.update u (.readUnlock ts true))) :=
    ⟨born, fun _ some_ => some_, fun _ _ some_ => some_⟩
  refine ⟨fun node some_ => ?_, settled.retired, settled.limbo, settled.filled,
    fun t j node here => born node (settled.announced t j node here),
    settled.advance grows (fun v apart => Function.update_of_ne apart _ _) ?_⟩
  · by_cases inserted : node ∈ u.insertedNodes
    · refine .inr ⟨tid, ?_⟩
      simp only [World.goto, Function.update_self]
      exact inserted
    · simp only [World.goto, World.linearized, if_neg inserted] at some_
      exact settled.itime_kept (by rw [pc]; rfl) (fun v apart => Function.update_of_ne apart _ _)
        some_
  · simp only [World.goto, Function.update_self]
    exact ⟨fun node member => born node (own.1 node member), trivial⟩

section Moves

variable [Fintype T] [LinearOrder K] {config : Config T N K} (inv : Inv config w)

include inv

theorem Settled.announceSize {u : Update A V N} (pc : w.pc tid = .update u .announceSize) :
    Settled ((w.setNum tid (w.numAnnouncements tid + u.deletedNodes.length)).goto tid
      (.update u .readLock)) := by
  have good := inv.threads tid
  have own := settled.threads tid
  rw [pc] at good own
  obtain ⟨⟨num, slots⟩, -⟩ := good
  have grows : Grows w ((w.setNum tid (w.numAnnouncements tid + u.deletedNodes.length)).goto tid
    (.update u .readLock)) :=
    ⟨fun _ some_ => some_, fun _ some_ => some_, fun _ _ some_ => some_⟩
  refine ⟨fun node some_ => ?_, settled.retired, settled.limbo, fun t j below => ?_,
    settled.announced,
    settled.advance grows (fun v apart => Function.update_of_ne apart _ _) ?_⟩
  · exact settled.itime_kept (by rw [pc]; rfl) (fun v apart => Function.update_of_ne apart _ _)
      some_
  · by_cases self : t = tid
    · simp only [World.goto, World.setNum, self, Function.update_self, num, Nat.zero_add] at below ⊢
      rw [slots j below, List.getElem?_eq_getElem below]
      exact Option.some_ne_none _
    · simp only [World.goto, World.setNum, Function.update_of_ne self] at below
      exact settled.filled t j below
  · simp only [World.goto, Function.update_self]
    exact ⟨own.1, trivial⟩

theorem Settled.update [DecidableEq A] [DecidableEq V] [DecidableEq N] {u : Update A V N}
    {stage : Stage N} {after : World A V T N K} (pc : w.pc tid = .update u stage)
    (moved : updateMove w tid u stage = some after) : Settled after := by
  have good := inv.threads tid
  have own := settled.threads tid
  rw [pc] at good own
  obtain ⟨good, within⟩ := good
  obtain ⟨found, marked⟩ := own
  cases stage with
  | announce i =>
      simp only [updateMove] at moved
      split at moved <;> cases moved
      · rename_i node here
        exact settled.setSlot (found node (List.mem_of_getElem? here)) (by rw [pc]; rfl)
          ⟨found, trivial⟩
      · exact settled.goto (by rw [pc]; exact List.nil_subset _) ⟨found, trivial⟩
  | announceSize =>
      cases moved
      exact settled.announceSize inv pc
  | readLock =>
      simp only [updateMove] at moved
      split at moved
      · cases moved
        exact settled.goto (by rw [pc]; exact List.nil_subset _) ⟨found, trivial⟩
      · exact settled.locking moved
  | readTime =>
      cases moved
      exact settled.goto (by rw [pc]; exact List.nil_subset _) ⟨found, trivial⟩
  | linearize ts =>
      simp only [updateMove] at moved
      split at moved
      · obtain ⟨-, ⟨⟩⟩ := Option.ite_none_right_eq_some.mp moved
        have positive : 0 < ts := by
          rw [good.2.2]
          exact inv.facts.positive
        exact settled.linearized positive pc
      · cases moved
        exact settled.goto (by rw [pc]; exact List.nil_subset _) ⟨found, trivial⟩
  | readUnlock ts done =>
      simp only [updateMove] at moved
      split at moved
      · cases done with
        | true =>
            cases moved
            exact settled.goto (by rw [pc]; exact List.Subset.refl _) ⟨found, trivial⟩
        | false =>
            cases moved
            exact settled.goto (by rw [pc]; exact List.nil_subset _) ⟨found, trivial⟩
      · exact settled.locking moved
  | setInsertionTimestamps ts rest =>
      cases rest with
      | nil =>
          cases moved
          exact settled.goto (by rw [pc]; exact List.nil_subset _)
            ⟨found, fun node member => .inl member⟩
      | cons node rest =>
          cases moved
          exact settled.setItime good.2.1 pc
  | setDeletionTimestamps ts rest =>
      cases rest with
      | nil =>
          cases moved
          refine settled.goto (by rw [pc]; exact List.nil_subset _) ⟨found, fun node member => ?_⟩
          exact (marked node member).resolve_left List.not_mem_nil
      | cons node rest =>
          cases moved
          exact settled.setDtime good.2.1 pc
  | retire rest =>
      cases rest with
      | nil =>
          cases moved
          exact settled.goto (by rw [pc]; exact List.nil_subset _) ⟨found, trivial⟩
      | cons node rest =>
          cases moved
          exact settled.retireNode pc (within List.mem_cons_self)
  | succeeded =>
      cases moved
      exact settled.setNum (Nat.sub_le _ _) (by rw [pc]; exact List.nil_subset _) trivial
  | failed left =>
      cases left with
      | zero =>
          cases moved
          exact settled.goto (by rw [pc]; exact List.nil_subset _) trivial
      | succ left =>
          cases moved
          exact settled.setNum (Nat.sub_le _ _) (by rw [pc]; exact List.nil_subset _)
            ⟨found, trivial⟩

-- Whatever traversal_try_add reads, it goes on with its node or returns to its place.
omit settled inv in
theorem tryAddMove_cases [DecidableEq N] (config : Config T N K) (w : World A V T N K) (tid : T)
    (lo hi : K) (job : Job T N) (place : Place T N) {check : Check}
    (pc : w.pc tid = .query lo hi (.tryAdd check job place)) :
    ∃ results next, tryAddMove config w tid lo hi job place check = w.lone tid results
      (.query lo hi next)
      ∧ (next = .place place ∨ ∃ check', next = .tryAdd check' job place ∧
        (check.Reached job → check'.Reached job)) := by
  have still : w = w.lone tid (w.query tid).results (.query lo hi (.tryAdd check job place)) :=
    (World.lone_self pc).symm
  have decided : ∃ results next, decideDtime config w tid lo hi job.node place = w.lone tid results
    (.query lo hi next)
      ∧ (next = .place place ∨ ∃ check', next = .tryAdd check' job place ∧
        (check.Reached job → check'.Reached job)) := by
    unfold decideDtime
    split
    · exact ⟨_, _, World.goto_lone _ _ _, .inl rfl⟩
    · exact ⟨_, _, rfl, .inl rfl⟩
  cases check with
  | itime =>
      simp only [tryAddMove]
      split
      · exact ⟨_, _, still, .inr ⟨_, rfl, fun reached => reached⟩⟩
      · exact ⟨_, _, World.goto_lone _ _ _, .inr ⟨_, rfl, fun _ => trivial⟩⟩
  | itimeAgain =>
      simp only [tryAddMove]
      split
      · exact ⟨_, _, World.goto_lone _ _ _, .inl rfl⟩
      · split
        · exact ⟨_, _, rfl, .inl rfl⟩
        · exact ⟨_, _, World.goto_lone _ _ _, .inr ⟨_, rfl, fun _ => Bool.eq_false_iff.mpr ‹_›⟩⟩
  | dtime =>
      simp only [tryAddMove]
      split
      · exact ⟨_, _, World.goto_lone _ _ _, .inr ⟨_, rfl, fun reached => reached⟩⟩
      · exact decided
  | source =>
      simp only [tryAddMove]
      split
      · exact ⟨_, _, World.goto_lone _ _ _, .inr ⟨_, rfl, fun reached => ⟨reached, ‹_›⟩⟩⟩
      · split
        · exact ⟨_, _, World.goto_lone _ _ _, .inr ⟨_, rfl, fun reached => reached⟩⟩
        · exact ⟨_, _, World.goto_lone _ _ _, .inr ⟨_, rfl, fun reached => reached⟩⟩
  | dtimeLoop =>
      simp only [tryAddMove]
      split
      · exact ⟨_, _, World.goto_lone _ _ _, .inr ⟨_, rfl, fun reached => reached⟩⟩
      · exact decided
  | dtimeLast =>
      simp only [tryAddMove]
      split
      · exact ⟨_, _, World.goto_lone _ _ _, .inl rfl⟩
      · exact decided
  | dtimeWait =>
      simp only [tryAddMove]
      split
      · exact ⟨_, _, still, .inr ⟨_, rfl, fun reached => reached⟩⟩
      · exact decided

-- What a query has retired from a bag was deleted, and so inserted before.
omit [DecidableEq T] [Fintype T] [LinearOrder K] settled inv in
theorem Facts.born_of_dtime (facts : Facts w) {node : N} (deleted : w.dtime node ≠ 0) :
    w.born node ≠ 0 := by
  intro unborn
  have same := facts.dtime node deleted
  have alive := facts.unborn node unborn
  exact deleted (same.trans alive)

theorem Settled.place [DecidableEq N] {lo hi : K} {place : Place T N} {after : World A V T N K}
    (pc : w.pc tid = .query lo hi (.place place))
    (moved : placeMove config w tid lo hi place = some after) : Settled after := by
  have own := settled.threads tid
  rw [pc] at own
  have quiet : (w.pc tid).inserting ⊆ [] := by
    rw [pc]
    exact List.nil_subset _
  cases place with
  | traversal => cases moved
  | sizes others =>
      cases others with
      | nil =>
          cases moved
          refine settled.goto quiet ?_
          intro bag member
          cases member
      | cons otherTid others =>
          cases moved
          exact settled.goto quiet (settled.filled otherTid)
  | slots otherTid i sz others =>
      simp only [placeMove] at moved
      split at moved
      · obtain ⟨node, here, rfl⟩ := Option.map_eq_some_iff.mp moved
        refine settled.goto quiet
          ⟨trivial, ⟨settled.announced otherTid i node here, fun _ => rfl, fun none_ => ?_⟩, own⟩
        cases none_
      · cases moved
        exact settled.goto quiet trivial
  | bags others allBags =>
      cases others with
      | nil =>
          cases moved
          exact settled.goto quiet own
      | cons otherTid others => cases moved
  | scan allBags =>
      have left (first : List N) (rest : List (List N)) (here : allBags = first :: rest)
        (bag : List N) (part : bag ⊆ first) :
          Place.Filled w (.scan (bag :: rest)) := by
        intro other member node inside
        subst here
        rcases List.mem_cons.mp member with rfl | later
        · exact own first List.mem_cons_self node (part inside)
        · exact own other (List.mem_cons_of_mem _ later) node inside
      cases allBags with
      | nil =>
          cases moved
          exact settled.goto quiet trivial
      | cons first rest =>
          have rest_ : Place.Filled w (.scan rest) :=
            fun bag member => own bag (List.mem_cons_of_mem _ member)
          cases first with
          | nil =>
              cases moved
              exact settled.goto quiet rest_
          | cons node bag =>
              have shorter := left (node :: bag) rest rfl bag (List.subset_cons_self node bag)
              have deleted : w.dtime node ≠ 0 :=
                own (node :: bag) List.mem_cons_self node List.mem_cons_self
              simp only [placeMove] at moved
              split at moved
              · cases moved
                exact settled.goto quiet shorter
              · split at moved
                · cases moved
                  exact settled.goto quiet rest_
                · cases moved
                  exact settled.goto quiet ⟨trivial,
                    ⟨inv.facts.born_of_dtime deleted, fun some_ => (some_ rfl).elim,
                    fun _ _ => deleted⟩, shorter⟩

theorem Settled.query [DecidableEq N] {lo hi : K} {phase : Phase T N} {after : World A V T N K}
    (pc : w.pc tid = .query lo hi phase) (moved : queryMove config w tid lo hi phase = some after) :
    Settled after := by
  have own := settled.threads tid
  rw [pc] at own
  have quiet : (w.pc tid).inserting ⊆ [] := by
    rw [pc]
    exact List.nil_subset _
  cases phase with
  | writeLock =>
      simp only [queryMove] at moved
      split at moved
      · cases moved
        exact settled.goto quiet trivial
      · exact settled.locking moved
  | load =>
      cases moved
      exact settled.goto quiet trivial
  | store ts =>
      cases moved
      refine settled.quiet tid rfl rfl rfl rfl rfl (fun t v => ?_) (fun _ => Nat.le_refl _)
        (fun v apart => Function.update_of_ne apart _ _) ?_ ?_
      · simp only [World.goto, World.startQuery, World.setQuery]
        by_cases self : t = tid
        · rw [self, Function.update_self]
          exact List.nil_subset _
        · rw [Function.update_of_ne self]
          exact List.Subset.refl _
      · rw [pc]
        exact List.nil_subset _
      · simp only [World.goto, Function.update_self]
        trivial
  | writeUnlock =>
      simp only [queryMove] at moved
      split at moved
      · cases moved
        exact settled.goto quiet trivial
      · exact settled.locking moved
  | place place => exact settled.place inv pc moved
  | tryAdd check job place =>
      cases moved
      obtain ⟨results, next, same, back | ⟨check', on, reached⟩⟩ :=
        tryAddMove_cases config w tid lo hi job place pc
      · rw [same, back]
        exact settled.asks (fun _ _ member => member) quiet own.2.2
      · rw [same, on]
        exact settled.asks (fun _ _ member => member) quiet ⟨reached own.1, own.2⟩
  | finished => cases moved

end Moves

end Steps

theorem initial_settled (mem : A → V) : Settled (initial mem : World A V T N K) where
  itime := fun _ some_ => (some_ rfl).elim
  retired := fun _ _ member => absurd member List.not_mem_nil
  limbo := fun _ _ => List.nil_subset _
  filled := fun _ _ below => absurd below (Nat.not_lt_zero _)
  announced := fun _ _ _ here => by cases here
  threads := fun _ => trivial

variable [DecidableEq A] [DecidableEq V] [DecidableEq T] [Fintype T] [DecidableEq N] [LinearOrder K]

theorem step_settled (config : Config T N K) (before : World A V T N K) (event : Event A V T N K)
    (after : World A V T N K) (both : Inv config before ∧ Settled before)
    (searched : Searched before event) (stepped : step config before event = some after) :
    Inv config after ∧ Settled after := by
  obtain ⟨inv, settled⟩ := both
  refine ⟨step_inv config before event after inv trivial stepped, ?_⟩
  cases event with
  | update tid u =>
      simp only [step] at stepped
      split at stepped <;> cases stepped
      rename_i pc
      exact settled.goto (by rw [pc]; exact List.nil_subset _) ⟨searched, trivial⟩
  | traversalStart tid lo hi =>
      simp only [step] at stepped
      split at stepped <;> cases stepped
      rename_i pc
      exact settled.goto (by rw [pc]; exact List.nil_subset _) trivial
  | traversalTryAdd tid node =>
      simp only [step] at stepped
      split at stepped
      · rename_i lo hi pc
        obtain ⟨seen, ⟨⟩⟩ := Option.ite_none_right_eq_some.mp stepped
        have ok := inv.queries tid
        rw [pc] at ok
        refine settled.asks (fun _ _ member => member) (by rw [pc]; exact List.nil_subset _)
          ⟨trivial, ⟨(ok.1.during node seen).1, fun some_ => (some_ rfl).elim, fun _ lost => ?_⟩,
            trivial⟩
        cases lost
      · cases stepped
  | traversalEnd tid =>
      simp only [step] at stepped
      split at stepped
      · rename_i lo hi pc
        obtain ⟨-, ⟨⟩⟩ := Option.ite_none_right_eq_some.mp stepped
        exact settled.asks (fun _ _ member => member) (by rw [pc]; exact List.nil_subset _) trivial
      · cases stepped
  | getSafeBlockbags tid bags =>
      simp only [step] at stepped
      split at stepped
      · rename_i lo hi otherTid others allBags pc
        obtain ⟨⟨listed, -⟩, ⟨⟩⟩ := Option.ite_none_right_eq_some.mp stepped
        have own := settled.threads tid
        rw [pc] at own
        refine settled.goto (by rw [pc]; exact List.nil_subset _) fun bag member node inside => ?_
        rcases List.mem_append.mp member with old | new
        · exact own bag old node inside
        · exact settled.retired otherTid node ((listed bag new).subset inside)
      · cases stepped
  | finish tid =>
      simp only [step] at stepped
      split at stepped <;> cases stepped
      rename_i pc
      exact settled.goto (by rw [pc]; exact List.nil_subset _) trivial
  | move tid =>
      simp only [step, move] at stepped
      split at stepped
      · cases stepped
      · rename_i pc
        exact settled.update inv pc stepped
      · rename_i pc
        exact settled.query inv pc stepped

end SetBench.RangeQuery
