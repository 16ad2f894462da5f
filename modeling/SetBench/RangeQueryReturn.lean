import SetBench.RangeQueryMarks

/-! A query that runs alone. When every other thread is outside the calls of the provider, the
thread inside traversal_try_add or traversal_end waits only for a dtime, and a failed deletion
leaves its node in the slot of the announcement without one. -/
namespace SetBench.RangeQuery

open Transition

variable {A V T N K : Type}

-- Between two calls of the provider.
def Pc.Outside : Pc A V T N K → Prop
  | .idle | .query _ _ (.place .traversal) | .query _ _ .finished => True
  | _ => False

instance (pc : Pc A V T N K) : Decidable pc.Outside := by
  unfold Pc.Outside
  split <;> infer_instance

-- Inside traversal_try_add or traversal_end.
def Phase.Inside : Phase T N → Prop
  | .place .traversal | .finished | .writeLock | .load | .store _ | .writeUnlock => False
  | .place _ | .tryAdd _ _ _ => True

instance (phase : Phase T N) : Decidable phase.Inside := by
  unfold Phase.Inside
  split <;> infer_instance

def Event.Own (tid : T) : Event A V T N K → Prop
  | .move t | .getSafeBlockbags t _ => t = tid
  | _ => False

/-- The node was inserted before the query and has no dtime. -/
def World.Undecided (w : World A V T N K) (tid : T) (node : N) : Prop :=
  w.itime node < (w.query tid).rqLinTime ∧ w.dtime node = 0

/-- A slot that the query has still to read, up to the number of announcements it took, holds a
node without a dtime. -/
def Place.Trapped (w : World A V T N K) (tid : T) : Place T N → Prop
  | .slots otherTid i sz _ =>
      ∃ j, i ≤ j ∧ j < sz ∧ ∃ node, w.announcements otherTid j = some node ∧ w.Undecided tid node
  | _ => False

-- The slot that the query looks at still holds the node it waits for.
def Check.Trapped (w : World A V T N K) (tid : T) (job : Job T N) (check : Check) : Prop :=
  check ≠ .dtimeLast ∧ ∃ otherTid i, job.nodeSource = some (otherTid, i) ∧
    w.announcements otherTid i = some job.node ∧ w.Undecided tid job.node

def Phase.Trapped (w : World A V T N K) (tid : T) : Phase T N → Prop
  | .place spot => spot.Trapped w tid
  | .tryAdd check job spot => check.Trapped w tid job ∨ spot.Trapped w tid
  | _ => False

/-- Whatever the thread does alone, its call returns. -/
def Returns [DecidableEq A] [DecidableEq V] [DecidableEq T] [Fintype T] [DecidableEq N]
    [LinearOrder K] (config : Config T N K) (tid : T) (w : World A V T N K) : Prop :=
  Inevitable (step config) (Event.Own tid) (fun after => (after.pc tid).Outside) w

section Alone

variable [DecidableEq A] [DecidableEq V] [DecidableEq T] [Fintype T] [DecidableEq N] [LinearOrder K]
variable {config : Config T N K} {w : World A V T N K} {tid : T} {lo hi : K}

omit [DecidableEq A] [DecidableEq V] [Fintype T] [DecidableEq N] [LinearOrder K] in
@[simp] theorem World.lone_pc (results : List K) (pc : Pc A V T N K) :
    (w.lone tid results pc).pc tid = pc := Function.update_self _ _ _

omit [DecidableEq A] [DecidableEq V] [Fintype T] [DecidableEq N] [LinearOrder K] in
@[simp] theorem World.lone_query (results : List K) (pc : Pc A V T N K) :
    (w.lone tid results pc).query tid = { w.query tid with results := results } :=
    Function.update_self _ _ _

omit [DecidableEq A] [DecidableEq V] [Fintype T] [DecidableEq N] [LinearOrder K] in
@[simp] theorem World.lone_goto (results : List K) (pc next : Pc A V T N K) :
    (w.lone tid results pc).goto tid next = w.lone tid results next := by
  simp only [World.lone, World.goto, Function.update_idem]

omit [DecidableEq A] [DecidableEq V] [Fintype T] [DecidableEq N] [LinearOrder K] in
@[simp] theorem World.lone_lone (results more : List K) (pc next : Pc A V T N K) :
    (w.lone tid results pc).lone tid more next = w.lone tid more next := by
  simp only [World.lone, World.goto, World.setQuery, Function.update_idem, Function.update_self]

omit [DecidableEq A] [DecidableEq V] [Fintype T] [DecidableEq N] [LinearOrder K] in
@[simp] theorem World.lone_itime (results : List K) (pc : Pc A V T N K) :
    (w.lone tid results pc).itime = w.itime := rfl

/-- A query that has one move to make, and returns from where it leads. -/
theorem Returns.moves {phase : Phase T N} {after : World A V T N K}
    (pc : w.pc tid = .query lo hi phase)
    (bags : ∀ otherTid others allBags, phase ≠ .place (.bags (otherTid :: others) allBags))
    (moved : queryMove config w tid lo hi phase = some after) (next : Returns config tid after) :
    Returns config tid w := by
  refine .later ⟨.move tid, after, rfl, ?_⟩ fun event after' owned stepped => ?_
  · simp only [step, move, pc]
    exact moved
  · cases event with
    | move t =>
        cases owned
        simp only [step, move, pc] at stepped
        rw [moved] at stepped
        cases stepped
        exact next
    | getSafeBlockbags t bags' =>
        cases owned
        simp only [step] at stepped
        split at stepped
        · rename_i here
          rw [pc] at here
          cases here
          exact (bags _ _ _ rfl).elim
        · cases stepped
    | update | traversalStart | traversalTryAdd | traversalEnd | finish => cases owned

/-! What the thread finds when it runs alone. -/

structure Calm (config : Config T N K) (w : World A V T N K) (tid : T) : Prop where
  itime : ∀ node, w.born node ≠ 0 → w.itime node ≠ 0
  num : ∀ t, w.numAnnouncements t = 0
  announced : ∀ t j node, w.announcements t j = some node → w.born node ≠ 0
  retired : ∀ t, ∀ node ∈ w.retired t, w.dtime node ≠ 0
  limbo : ∀ v, (w.query tid).limbo v ⊆ w.retired v
  deleted : ∀ node, w.dtime node ≠ 0 → w.born node ≠ 0

-- The slot holds the node and the node has no dtime.
def Job.Waits (w : World A V T N K) (tid : T) (job : Job T N) : Prop :=
  ∃ otherTid i, job.nodeSource = some (otherTid, i) ∧ w.announcements otherTid i = some job.node ∧
    w.Undecided tid job.node

section TryAdd

variable {job : Job T N} {place : Place T N}
  (back : ∀ results, Returns config tid (w.lone tid results (.query lo hi (.place place))))

include back

theorem decideDtime_returns (results : List K) (pc : Pc A V T N K) :
    Returns config tid (decideDtime config (w.lone tid results pc) tid lo hi job.node place) := by
  unfold decideDtime
  split
  · rw [World.lone_goto]
    exact back _
  · unfold addToRQ
    change Returns config tid ((w.lone tid results pc).lone tid _ _)
    rw [World.lone_lone]
    exact back _

theorem tryAdd_returns (calm : Calm config w tid) (known : job.Known w) :
    ∀ (check : Check) (results : List K), check.Reached job →
      (check ≠ .itime → check ≠ .itimeAgain → w.itime job.node < (w.query tid).rqLinTime) →
      (check = .dtimeLast ∨ ¬ job.Waits w tid) →
      Returns config tid (w.lone tid results (.query lo hi (.tryAdd check job place))) := by
  have go (check : Check) (results : List K)
      (next : Returns config tid
        (tryAddMove config (w.lone tid results (.query lo hi (.tryAdd check job place))) tid lo hi
        job place check)) :
      Returns config tid (w.lone tid results (.query lo hi (.tryAdd check job place))) :=
    Returns.moves (World.lone_pc _ _) (fun _ _ _ same => by cases same) rfl next
  have last (results : List K) :
    Returns config tid (w.lone tid results (.query lo hi (.tryAdd .dtimeLast job place))) := by
    refine go _ _ ?_
    simp only [tryAddMove]
    split
    · rw [World.lone_goto]
      exact back _
    · exact decideDtime_returns back _ _
  have wait (results : List K) (reached : Check.dtimeWait.Reached job) :
      Returns config tid (w.lone tid results (.query lo hi (.tryAdd .dtimeWait job place))) := by
    refine go _ _ ?_
    have deleted : w.dtime job.node ≠ 0 := known.deleted reached.2 reached.1
    simp only [tryAddMove]
    split
    · rename_i unset
      exact (deleted unset).elim
    · exact decideDtime_returns back _ _
  have source (results : List K) (reached : job.foundDuringTraversal = false)
    (before : w.itime job.node < (w.query tid).rqLinTime)
      (free_ : ¬ job.Waits w tid) :
      Returns config tid (w.lone tid results (.query lo hi (.tryAdd .source job place))) := by
    refine go _ _ ?_
    cases from_ : job.nodeSource with
    | none =>
        simp only [tryAddMove, from_, World.lone_goto]
        exact wait _ ⟨reached, from_⟩
    | some pair =>
        obtain ⟨otherTid, i⟩ := pair
        simp only [tryAddMove, from_, World.lone_goto]
        split
        · rename_i holds
          refine go _ _ ?_
          have deleted : w.dtime job.node ≠ 0 :=
            fun unset => free_ ⟨otherTid, i, from_, holds, before, unset⟩
          simp only [tryAddMove]
          split
          · rename_i unset
            exact (deleted unset).elim
          · exact decideDtime_returns back _ _
        · exact last _
  have dtime (results : List K) (check : Check) (either : check = .dtime ∨ check = .dtimeLoop)
    (reached : job.foundDuringTraversal = false)
      (before : w.itime job.node < (w.query tid).rqLinTime) (free_ : ¬ job.Waits w tid) :
      Returns config tid (w.lone tid results (.query lo hi (.tryAdd check job place))) := by
    refine go _ _ ?_
    rcases either with rfl | rfl
    all_goals
      simp only [tryAddMove]
      split
      · rw [World.lone_goto]
        exact source _ reached before free_
      · exact decideDtime_returns back _ _
  have again (results : List K) (free_ : ¬ job.Waits w tid) :
      Returns config tid (w.lone tid results (.query lo hi (.tryAdd .itimeAgain job place))) := by
    refine go _ _ ?_
    simp only [tryAddMove]
    split
    · rw [World.lone_goto]
      exact back _
    · rename_i early
      split
      · unfold addToRQ
        change Returns config tid ((w.lone tid results _).lone tid _ _)
        rw [World.lone_lone]
        exact back _
      · rename_i lost
        rw [World.lone_goto]
        refine dtime _ _ (.inl rfl) (Bool.eq_false_iff.mpr lost) ?_ free_
        simpa only [World.lone_query, World.lone_itime, not_le] using early
  intro check results reached before free_
  cases check with
  | itime =>
      refine go _ _ ?_
      simp only [tryAddMove]
      split
      · rename_i unset
        exact (calm.itime _ known.born unset).elim
      · rw [World.lone_goto]
        exact again _ (free_.resolve_left (fun same => by cases same))
  | itimeAgain => exact again _ (free_.resolve_left (fun same => by cases same))
  | dtime =>
      exact dtime _ _ (.inl rfl) reached
        (before (fun same => by cases same) (fun same => by cases same))
        (free_.resolve_left (fun same => by cases same))
  | source =>
      exact source _ reached (before (fun same => by cases same) (fun same => by cases same))
        (free_.resolve_left (fun same => by cases same))
  | dtimeLoop =>
      exact dtime _ _ (.inr rfl) reached
        (before (fun same => by cases same) (fun same => by cases same))
        (free_.resolve_left (fun same => by cases same))
  | dtimeLast => exact last _
  | dtimeWait => exact wait _ reached

end TryAdd

section Places

variable (calm : Calm config w tid)

include calm

theorem scan_returns {allBags : List (List N)} (filled : Place.Filled w (.scan allBags))
    (results : List K) :
    Returns config tid (w.lone tid results (.query lo hi (.place (.scan allBags)))) := by
  have go (results : List K) (bags : List (List N)) (after : World A V T N K)
      (moved : placeMove config (w.lone tid results (.query lo hi (.place (.scan bags)))) tid lo hi
        (.scan bags) = some after)
      (next : Returns config tid after) :
      Returns config tid (w.lone tid results (.query lo hi (.place (.scan bags)))) :=
    Returns.moves (World.lone_pc _ _) (fun _ _ _ same => by cases same) moved next
  induction allBags generalizing results with
  | nil =>
      refine go _ _ _ rfl (.here ?_)
      rw [World.lone_goto, World.lone_pc]
      trivial
  | cons first rest ih =>
      have others (results : List K) :
        Returns config tid (w.lone tid results (.query lo hi (.place (.scan rest)))) :=
        ih (fun bag member => filled bag (List.mem_cons_of_mem _ member)) results
      have bag (part : List N) (inside : part ⊆ first) (results : List K) :
          Returns config tid (w.lone tid results
            (.query lo hi (.place (.scan (part :: rest))))) := by
        induction part generalizing results with
        | nil =>
            refine go _ _ _ rfl ?_
            rw [World.lone_goto]
            exact others _
        | cons node part shorter =>
            have back := shorter fun other member => inside (List.mem_cons_of_mem _ member)
            have deleted : w.dtime node ≠ 0 :=
              filled first List.mem_cons_self node (inside List.mem_cons_self)
            have born := calm.deleted node deleted
            by_cases late : w.dtime node ≠ 0 ∧ (w.query tid).endTimestamp < w.dtime node
            · refine go _ _ _ (if_pos ?_) ?_
              · rw [World.lone_query]
                exact late
              · rw [World.lone_goto]
                exact back _
            · by_cases early : w.dtime node ≠ 0 ∧ w.dtime node < (w.query tid).rqLinTime
              · refine go _ _ _ ((if_neg ?_).trans (if_pos ?_)) ?_
                · rw [World.lone_query]
                  exact late
                · rw [World.lone_query]
                  exact early
                · rw [World.lone_goto]
                  exact others _
              · refine go _ _ _ ((if_neg ?_).trans (if_neg ?_)) ?_
                · rw [World.lone_query]
                  exact late
                · rw [World.lone_query]
                  exact early
                · rw [World.lone_goto]
                  refine tryAdd_returns back calm ⟨born, fun some_ => (some_ rfl).elim,
                    fun _ _ => deleted⟩ _ _ trivial (fun not_ => (not_ rfl).elim)
                    (.inr ?_)
                  rintro ⟨otherTid, i, source, -⟩
                  cases source
      exact bag first (List.Subset.refl _) results

-- Whatever bags the reclaimer hands out.
theorem bags_returns (others : List T) {allBags : List (List N)}
    (filled : Place.Filled w (.scan allBags)) (results : List K) :
    Returns config tid (w.lone tid results (.query lo hi (.place (.bags others allBags)))) := by
  induction others generalizing allBags with
  | nil =>
      refine Returns.moves (World.lone_pc _ _) (fun _ _ _ same => by cases same) rfl ?_
      rw [World.lone_goto]
      exact scan_returns calm filled _
  | cons otherTid others ih =>
      refine .later ⟨.getSafeBlockbags tid [w.retired otherTid],
        w.lone tid results (.query lo hi (.place (.bags others (allBags ++ [w.retired otherTid])))),
        rfl, ?_⟩ fun event after owned stepped => ?_
      · simp only [step, World.lone_pc, World.lone_goto]
        refine if_pos ⟨fun bag member => ?_, fun node member => ?_⟩
        · rw [List.mem_singleton.mp member]
          exact List.Sublist.refl _
        · rw [World.lone_query] at member
          exact ⟨_, List.mem_singleton_self _, calm.limbo otherTid member⟩
      · cases event with
        | move t =>
            cases owned
            simp only [step, move, World.lone_pc, queryMove, placeMove] at stepped
            cases stepped
        | getSafeBlockbags t bags =>
            cases owned
            simp only [step, World.lone_pc, World.lone_goto] at stepped
            obtain ⟨⟨listed, -⟩, ⟨⟩⟩ := Option.ite_none_right_eq_some.mp stepped
            refine ih fun bag member node inside => ?_
            rcases List.mem_append.mp member with old | new
            · exact filled bag old node inside
            · exact calm.retired otherTid node ((listed bag new).subset inside)
        | update | traversalStart | traversalTryAdd | traversalEnd | finish => cases owned

-- No thread announces anything any more.
theorem sizes_returns (others : List T) (results : List K) :
    Returns config tid (w.lone tid results (.query lo hi (.place (.sizes others)))) := by
  induction others with
  | nil =>
      refine Returns.moves (World.lone_pc _ _) (fun _ _ _ same => by cases same) rfl ?_
      rw [World.lone_goto]
      refine bags_returns calm _ (fun bag member => ?_) _
      cases member
  | cons otherTid others ih =>
      refine Returns.moves (World.lone_pc _ _) (fun _ _ _ same => by cases same) rfl ?_
      rw [World.lone_goto]
      change Returns config tid
        (w.lone tid results (.query lo hi
        (.place (.slots otherTid 0 (w.numAnnouncements otherTid) others))))
      rw [calm.num otherTid]
      refine Returns.moves (World.lone_pc _ _) (fun _ _ _ same => by cases same) rfl ?_
      rw [World.lone_goto]
      exact ih

theorem slots_returns (otherTid : T) (others : List T) {sz : Nat}
    (filled : ∀ j < sz, w.announcements otherTid j ≠ none) (left : Nat) :
    ∀ i results, sz - i = left → ¬ Place.Trapped w tid (.slots otherTid i sz others) →
      Returns config tid (w.lone tid results
        (.query lo hi (.place (.slots otherTid i sz others)))) := by
  induction left with
  | zero =>
      intro i results ended _
      refine Returns.moves (World.lone_pc _ _) (fun _ _ _ same => by cases same)
        (if_neg (by omega)) ?_
      rw [World.lone_goto]
      exact sizes_returns calm _ _
  | succ left ih =>
      intro i results more free_
      have below : i < sz := by omega
      obtain ⟨node, here⟩ := Option.ne_none_iff_exists'.mp (filled i below)
      refine Returns.moves (World.lone_pc _ _) (fun _ _ _ same => by cases same)
        ((if_pos below).trans (congrArg _ here)) ?_
      dsimp only
      rw [World.lone_goto]
      refine tryAdd_returns (fun results => ih (i + 1) results (by omega) ?_) calm
        ⟨calm.announced _ _ _ here, fun _ => rfl, fun none_ => ?_⟩ _ _ trivial
        (fun not_ => (not_ rfl).elim) (.inr ?_)
      · rintro ⟨j, low, high, held⟩
        exact free_ ⟨j, by omega, high, held⟩
      · cases none_
      · rintro ⟨otherTid', i', source, held, undecided⟩
        cases source
        exact free_ ⟨i, Nat.le_refl i, below, node, held, undecided⟩

theorem place_returns {place : Place T N} (filled : place.Filled w)
    (free_ : ¬ place.Trapped w tid) (results : List K) :
    Returns config tid (w.lone tid results (.query lo hi (.place place))) := by
  cases place with
  | traversal =>
      refine .here ?_
      rw [World.lone_pc]
      trivial
  | sizes others => exact sizes_returns calm others results
  | slots otherTid i sz others =>
      exact slots_returns calm otherTid others filled (sz - i) i results rfl free_
  | bags others allBags => exact bags_returns calm others filled results
  | scan allBags => exact scan_returns calm filled results

end Places

/-! The two ways the wait can end, and when neither comes. -/

omit [DecidableEq A] [DecidableEq V] [Fintype T] [DecidableEq N] [LinearOrder K] in
theorem World.lone_undecided (results : List K) (pc : Pc A V T N K) (node : N) :
    (w.lone tid results pc).Undecided tid node ↔ w.Undecided tid node := by
  simp only [World.Undecided, World.lone_query]
  rfl

omit [DecidableEq A] [DecidableEq V] [Fintype T] [DecidableEq N] [LinearOrder K] in
theorem Place.Trapped.lone {place : Place T N} (trapped : place.Trapped w tid) (results : List K)
    (pc : Pc A V T N K) :
    place.Trapped (w.lone tid results pc) tid := by
  cases place with
  | slots otherTid i sz others =>
      obtain ⟨j, low, high, node, held, undecided⟩ := trapped
      exact ⟨j, low, high, node, held, (World.lone_undecided results pc node).mpr undecided⟩
  | traversal | sizes | bags | scan => exact trapped

omit [DecidableEq A] [DecidableEq V] in
-- The check goes on to one that waits for the same dtime.
theorem Check.Trapped.stays (config : Config T N K) {check : Check} {job : Job T N}
    {place : Place T N} (pc : w.pc tid = .query lo hi (.tryAdd check job place))
    (trapped : check.Trapped w tid job) (known : job.Known w) :
    ∃ next, tryAddMove config w tid lo hi job place check = w.lone tid (w.query tid).results
      (.query lo hi (.tryAdd next job place)) ∧ next ≠ .dtimeLast := by
  obtain ⟨early, otherTid, i, source, held, before, unset⟩ := trapped
  have lost : job.foundDuringTraversal = false :=
    known.announced (by rw [source]; exact Option.some_ne_none _)
  have on (next : Check) := World.goto_lone w tid (.query lo hi (.tryAdd next job place))
  have still : w = w.lone tid (w.query tid).results (.query lo hi (.tryAdd check job place)) :=
    (World.lone_self pc).symm
  cases check with
  | itime =>
      simp only [tryAddMove]
      split
      · exact ⟨.itime, still, Check.noConfusion⟩
      · exact ⟨.itimeAgain, on _, Check.noConfusion⟩
  | itimeAgain =>
      simp only [tryAddMove, if_neg (not_le.mpr before), lost, Bool.false_eq_true, if_false]
      exact ⟨.dtime, on _, Check.noConfusion⟩
  | dtime =>
      simp only [tryAddMove, if_pos unset]
      exact ⟨.source, on _, Check.noConfusion⟩
  | source =>
      simp only [tryAddMove, source, if_pos held]
      exact ⟨.dtimeLoop, on _, Check.noConfusion⟩
  | dtimeLoop =>
      simp only [tryAddMove, if_pos unset]
      exact ⟨.source, on _, Check.noConfusion⟩
  | dtimeLast => exact (early rfl).elim
  | dtimeWait =>
      simp only [tryAddMove, if_pos unset]
      exact ⟨.dtimeWait, still, Check.noConfusion⟩

omit [DecidableEq A] [DecidableEq V] in
theorem Phase.Trapped.stays (config : Config T N K) {phase : Phase T N}
    (pc : w.pc tid = .query lo hi phase) (settled : phase.Settled w)
    (trapped : phase.Trapped w tid) :
    ∃ results next, queryMove config w tid lo hi phase =
      some (w.lone tid results (.query lo hi next)) ∧
      next.Trapped (w.lone tid results (.query lo hi next)) tid := by
  cases phase with
  | place place =>
      cases place with
      | slots otherTid i sz others =>
          obtain ⟨j, low, high, held⟩ := trapped
          obtain ⟨node, here⟩ := Option.ne_none_iff_exists'.mp (settled i (by omega))
          refine ⟨_, _, (if_pos (by omega)).trans
            ((congrArg _ here).trans (congrArg some (World.goto_lone _ _ _))), ?_⟩
          by_cases same : j = i
          · left
            subst same
            obtain ⟨node', here', undecided⟩ := held
            rw [here] at here'
            cases here'
            exact ⟨Check.noConfusion, otherTid, j, rfl, here,
              (World.lone_undecided _ _ _).mpr undecided⟩
          · right
            have ahead : Place.Trapped w tid (.slots otherTid (i + 1) sz others) :=
              ⟨j, by omega, high, held⟩
            exact ahead.lone _ _
      | traversal | sizes | bags | scan => exact trapped.elim
  | tryAdd check job place =>
      rcases trapped with looking | ahead
      · obtain ⟨next, moved, early⟩ := looking.stays config pc settled.2.1
        obtain ⟨-, otherTid, i, source, held, undecided⟩ := looking
        exact ⟨_, _, congrArg some moved,
          .inl ⟨early, otherTid, i, source, held, (World.lone_undecided _ _ _).mpr undecided⟩⟩
      · obtain ⟨results, next, moved, rfl | ⟨check', rfl, -⟩⟩ :=
          tryAddMove_cases config w tid lo hi job place pc
        · exact ⟨_, _, congrArg some moved, ahead.lone _ _⟩
        · exact ⟨_, _, congrArg some moved, .inr (ahead.lone _ _)⟩
  | writeLock | load | store | writeUnlock | finished => exact trapped.elim

omit [DecidableEq A] [DecidableEq V] [DecidableEq T] [Fintype T] [DecidableEq N] [LinearOrder K] in
theorem Phase.Trapped.not_outside {phase : Phase T N} (trapped : phase.Trapped w tid) :
    ¬ (Pc.query lo hi phase : Pc A V T N K).Outside := by
  cases phase with
  | place place =>
      cases place with
      | slots => exact id
      | traversal | sizes | bags | scan => exact trapped.elim
  | tryAdd => exact id
  | writeLock | load | store | writeUnlock | finished => exact trapped.elim

theorem not_returns_of_trapped (inv : Inv config w) (settled : Settled w) {phase : Phase T N}
    (pc : w.pc tid = .query lo hi phase) (trapped : phase.Trapped w tid) :
    ¬ Returns config tid w := by
  intro returns
  refine returns.not_trap (fun w => (Inv config w ∧ Settled w) ∧ ∃ lo hi phase, w.pc tid = .query lo
    hi phase ∧ phase.Trapped w tid) ?_ ?_
    ⟨⟨inv, settled⟩, lo, hi, phase, pc, trapped⟩
  · rintro w ⟨-, lo, hi, phase, pc, trapped⟩
    rw [pc]
    exact trapped.not_outside
  · rintro w ⟨both, lo, hi, phase, pc, trapped⟩
    have own := both.2.threads tid
    rw [pc] at own
    obtain ⟨results, next, moved, still⟩ := trapped.stays config pc own
    have stepped : step config w (.move tid) = some (w.lone tid results (.query lo hi next)) := by
      simp only [step, move, pc]
      exact moved
    exact ⟨.move tid, _, rfl, stepped, step_settled config w (.move tid) _ both trivial stepped, lo,
      hi, next, World.lone_pc _ _, still⟩

omit [DecidableEq A] [DecidableEq V] [DecidableEq N] in
theorem calm_of_alone (inv : Inv config w) (settled : Settled w) {phase : Phase T N}
    (pc : w.pc tid = .query lo hi phase) (alone : ∀ t, t ≠ tid → (w.pc t).Outside) :
    Calm config w tid := by
  have resting (t : T) : (w.pc t).inserting = [] ∧ w.numAnnouncements t = 0 := by
    have good := inv.threads t
    by_cases self : t = tid
    · rw [self, pc] at good ⊢
      exact ⟨rfl, good.1⟩
    · have out := alone t self
      cases here : w.pc t with
      | idle =>
          rw [here] at good
          exact ⟨rfl, good⟩
      | update u stage =>
          rw [here] at out
          exact out.elim
      | query lo hi phase =>
          rw [here] at good
          exact ⟨rfl, good.1⟩
  refine ⟨fun node born => ?_, fun t => (resting t).2, settled.announced, settled.retired,
    settled.limbo tid, fun node => inv.facts.born_of_dtime⟩
  rcases settled.itime node born with set | ⟨t, member⟩
  · exact set
  · rw [(resting t).1] at member
    cases member

/-- Alone in the provider, a call of traversal_try_add or traversal_end returns exactly when no
slot that it looks at, or has counted and not read yet, still holds a node from before the query
that was not deleted: the leftover of a failed deletion. -/
theorem returns_iff_no_leftover {mem : A → V} {events : List (Event A V T N K)}
    (run : Run (step config) Searched (initial mem) events w) {phase : Phase T N}
    (pc : w.pc tid = .query lo hi phase) (inside : phase.Inside)
    (alone : ∀ t, t ≠ tid → (w.pc t).Outside) :
    Returns config tid w ↔ ¬ phase.Trapped w tid := by
  obtain ⟨inv, settled⟩ := run_invariant (fun w => Inv config w ∧ Settled w)
    ⟨initial_inv config mem, initial_settled mem⟩ (step_settled config) run
  refine ⟨fun returns trapped => not_returns_of_trapped inv settled pc trapped returns,
    fun free_ => ?_⟩
  have calm := calm_of_alone inv settled pc alone
  have own := settled.threads tid
  rw [pc] at own
  rw [← World.lone_self pc]
  cases phase with
  | place place => exact place_returns calm own free_ _
  | tryAdd check job place =>
      obtain ⟨reached, known, filled⟩ := own
      have ok := inv.queries tid
      rw [pc] at ok
      have checked := ok.2.2.1.checked
      refine tryAdd_returns (fun results => place_returns calm filled
        (fun trapped => free_ (.inr trapped)) results) calm known _ _ reached (fun late later =>
        ?_) ?_
      · have same := inv.facts.itime job.node (calm.itime _ known.born)
        rw [same]
        cases check with
        | itime => exact (late rfl).elim
        | itimeAgain => exact (later rfl).elim
        | dtime | source | dtimeLoop | dtimeLast | dtimeWait => exact checked.2
      · by_cases last : check = .dtimeLast
        · exact .inl last
        · exact .inr fun waits => free_ (.inl ⟨last, waits⟩)
  | writeLock | load | store | writeUnlock | finished => exact inside.elim

end Alone

-- Thread 0 inserts 1 and 2, thread 1 starts a query, thread 0 announces that it will delete 1, and
-- the traversal of thread 1 ends. The query counts one announcement and comes to wait for the
-- dtime of 1; then thread 0 does the compare-and-swap, from the value `old`.
def announcedDuringQuery (old : Nat) : List (Event Unit Nat (Fin 2) Nat Nat) :=
  [[.update 0 ⟨(), none, 1, [1, 2], []⟩], moves 0 17, [.traversalStart 1 10 30], moves 1 9,
    [.update 0 ⟨(), some old, 2, [], [1]⟩], moves 0 3,
    [.traversalTryAdd 1 2], moves 1 2, [.traversalTryAdd 1 1], moves 1 2, [.traversalEnd 1],
      moves 1 5].flatten

-- What the query waits for in the end.
def announcedJob : Job (Fin 2) Nat := ⟨1, some (0, 0), false⟩

theorem announced_run (old rounds dtime : Nat)
    (replayed : (replay (step tens) Searched (announcedDuringQuery old ++ moves 0 rounds)
      (initial fun _ => 0)).map
      (fun w => (decide (w.pc 0 = .idle),
      decide (w.pc 1 = .query 10 30 (.tryAdd .source announcedJob (.slots 0 1 1 []))),
      w.announcements 0 0, w.itime 1, w.dtime 1, (w.query 1).rqLinTime)) = some (true, true, some 1,
      1, dtime, 2)) :
    ∃ w, Run (step tens) Searched (initial fun _ => 0)
      (announcedDuringQuery old ++ moves 0 rounds) w ∧
      w.pc 1 = .query 10 30 (.tryAdd .source announcedJob (.slots 0 1 1 [])) ∧
        (∀ t, t ≠ 1 → (w.pc t).Outside) ∧
      w.announcements 0 0 = some 1 ∧ w.itime 1 = 1 ∧ w.dtime 1 = dtime ∧ (w.query 1).rqLinTime =
        2 := by
  obtain ⟨w, same, values⟩ := Option.map_eq_some_iff.mp replayed
  simp only [Prod.mk.injEq, decide_eq_true_eq] at values
  obtain ⟨resting, waiting, rest⟩ := values
  refine ⟨w, run_of_replay _ same, waiting, fun t apart => ?_, rest⟩
  obtain rfl : t = 0 := by omega
  rw [resting]
  trivial

theorem returns_after_deletion :
    ∃ w, Run (step tens) Searched (initial fun _ => 0) (announcedDuringQuery 1 ++ moves 0 15) w ∧
      Returns tens 1 w := by
  obtain ⟨w, run, pc, alone, -, -, deleted, -⟩ := announced_run 1 15 2 (by decide +kernel)
  refine ⟨w, run, (returns_iff_no_leftover run pc trivial alone).mpr ?_⟩
  rintro (⟨-, otherTid, i, -, -, -, unset⟩ | ⟨j, low, high, -⟩)
  · exact absurd (deleted.symm.trans unset) (by decide)
  · omega

-- The compare-and-swap fails, and the slot keeps node 1.
theorem hangs_after_failure :
    ¬ ∀ (events : List (Event Unit Nat (Fin 2) Nat Nat))
      (w : World Unit Nat (Fin 2) Nat Nat) (lo hi : Nat)
    (phase : Phase (Fin 2) Nat), Run (step tens) Searched (initial fun _ => 0) events w →
    w.pc 1 = .query lo hi phase → phase.Inside →
    (∀ t, t ≠ 1 → (w.pc t).Outside) → Returns tens 1 w := by
  intro always
  obtain ⟨w, run, pc, alone, held, inserted, unset, time⟩ :=
    announced_run 7 11 0 (by decide +kernel)
  obtain ⟨inv, settled⟩ := run_invariant (fun w => Inv tens w ∧ Settled w)
    ⟨initial_inv tens _, initial_settled _⟩ (step_settled tens) run
  refine not_returns_of_trapped inv settled pc
    (.inl ⟨Check.noConfusion, 0, 0, rfl, held, ?_, unset⟩) (always _ w _ _ _ run pc trivial alone)
  rw [time]
  show w.itime 1 < 2
  omega

end SetBench.RangeQuery
