import SetBench.EpochTreeSafe

/-! No advance of the epoch is lost for good: a value that both children of a node agree on is
in the node, or some thread is on its way to put it there. -/
namespace SetBench.EpochTree

open Transition LimboBag HeapTree

variable {Object : Type}

-- The node where a thread inside tryAdvance is, and the value it carries.
def Pc.carrying : Pc → Option (Nat × Nat)
  | .readSibling currIx val | .readParent currIx val | .casRoot currIx val _ | .casParent currIx val
    _ => some (currIx, val)
  | _ => none

-- The children agree on the value, or one of them is quiescent.
def Agreed (nodes : Nat → Nat) (ix val : Nat) : Prop :=
  (nodes (2 * ix) = val ∨ nodes (2 * ix) % 2 = 1) ∧
  (nodes (2 * ix + 1) = val ∨ nodes (2 * ix + 1) % 2 = 1)

def Passed (nodes : Nat → Nat) (ix val : Nat) : Prop :=
  if ix = 1 then val < nodes 1 else val ≤ nodes ix

def Carried (config : Config) (w : World Object) (ix val : Nat) : Prop :=
  ∃ tid < config.threads, ∃ currIx, (w.thread tid).pc.carrying = some (currIx, val) ∧
    parent currIx = ix

-- A thread has announced the value at a leaf below and has not yet tried to carry it.
def Untried (config : Config) (w : World Object) (ix val : Nat) : Prop :=
  ∃ tid < config.threads, parent (config.leaf tid) = ix ∧ w.nodes (config.leaf tid) = val ∧
    (w.thread tid).tried = false
    ∧ (w.thread tid).pc.carrying = none

structure Moving (config : Config) (w : World Object) : Prop where
  live : ∀ ix val, 1 ≤ ix → ix < config.leaves →
    (∃ tid < config.threads, Under ix (config.leaf tid)) → Agreed w.nodes ix val →
    Passed w.nodes ix val ∨ Carried config w ix val ∨ Untried config w ix val
  -- A compare-and-swap that will fail comes too late to matter.
  late : ∀ tid < config.threads, ∀ currIx val parentVal, (w.thread tid).pc =
    .casParent currIx val parentVal →
    w.nodes (parent currIx) = parentVal ∨ val ≤ w.nodes (parent currIx)
  quiet : ∀ ix, 2 ≤ ix → ix < 2 * config.leaves →
    (∀ tid < config.threads, ¬ Under ix (config.leaf tid)) → w.nodes ix = 1

theorem Passed.up {nodes nodes' : Nat → Nat} {ix val : Nat} (passed : Passed nodes ix val)
    (up : ∀ ix, nodes ix ≤ nodes' ix) : Passed nodes' ix val := by
  unfold Passed at passed ⊢
  split
  · rw [if_pos ‹_›] at passed
    exact Nat.lt_of_lt_of_le passed (up 1)
  · rw [if_neg ‹_›] at passed
    exact passed.trans (up ix)

theorem agreed_sibling {nodes : Nat → Nat} {currIx val : Nat}
    (agreed : Agreed nodes (parent currIx) val) :
    nodes (sibling currIx) = val ∨ quiescent (nodes (sibling currIx)) = true := by
  rw [quiescent, decide_eq_true_eq]
  rcases sibling_cases currIx with ⟨_, there⟩ | ⟨_, there⟩
  · rw [there]
    exact agreed.2
  · rw [there]
    exact agreed.1

/-- One step of thread `tid`. A node that changes was changed by a thread that goes on with it,
or is a leaf with a new announcement; a thread that lets its value go finds it passed. -/
theorem Moving.step_live {config : Config} {w after : World Object} (moving : Moving config w)
    {tid : Nat} (active : tid < config.threads) (up : ∀ ix, w.nodes ix ≤ after.nodes ix)
    (others : ∀ other, other ≠ tid → after.thread other = w.thread other)
    (leaves : ∀ other, other ≠ tid → after.nodes (config.leaf other) = w.nodes (config.leaf other))
    (changed : ∀ ix, 2 ≤ ix → after.nodes ix ≠ w.nodes ix → after.nodes ix % 2 = 0 ∧
      ((after.thread tid).pc.carrying = some (ix, after.nodes ix) ∨ ix = config.leaf tid ∧
      (after.thread tid).tried = false ∧ (after.thread tid).pc.carrying = none))
    (leaving : ∀ currIx val, (w.thread tid).pc.carrying = some (currIx, val) →
      (after.thread tid).pc.carrying = some (currIx, val) ∨
      (Agreed w.nodes (parent currIx) val → Passed after.nodes (parent currIx) val))
    (trying : 1 < config.leaf tid → (w.thread tid).pc.carrying = none →
      (w.thread tid).tried = false → after.nodes (config.leaf tid) = w.nodes (config.leaf tid) →
      (after.thread tid).pc.carrying = none ∧ (after.thread tid).tried = false ∨
      (after.thread tid).pc.carrying = some (config.leaf tid, w.nodes (config.leaf tid)))
    (ix val : Nat) (low : 1 ≤ ix) (high : ix < config.leaves)
    (below : ∃ tid < config.threads, Under ix (config.leaf tid))
    (agreed : Agreed after.nodes ix val) :
    Passed after.nodes ix val ∨ Carried config after ix val ∨ Untried config after ix val := by
  -- A child that has just got the value.
  have child (node : Nat) (two : 2 ≤ node) (above : parent node = ix)
    (agrees : after.nodes node = val ∨ after.nodes node % 2 = 1)
      (new : after.nodes node ≠ w.nodes node) : Carried config after ix val ∨
      Untried config after ix val := by
    obtain ⟨even, mover⟩ := changed node two new
    have same : after.nodes node = val := by
      rcases agrees with same | odd
      · exact same
      · omega
    rcases mover with carries | ⟨rfl, tried, none_⟩
    · exact .inl ⟨tid, active, node, same ▸ carries, above⟩
    · exact .inr ⟨tid, active, above, same, tried, none_⟩
  by_cases left : after.nodes (2 * ix) = w.nodes (2 * ix)
  · by_cases right : after.nodes (2 * ix + 1) = w.nodes (2 * ix + 1)
    · have before : Agreed w.nodes ix val := by
        rw [Agreed, ← left, ← right]
        exact agreed
      rcases moving.live ix val low high below before with passed | ⟨other, other_lt, currIx,
        carries, above⟩ | ⟨other, other_lt, above, same, tried, none_⟩
      · exact .inl (passed.up up)
      · by_cases self : other = tid
        · subst self
          rcases leaving currIx val carries with still | gone
          · exact .inr (.inl ⟨other, active, currIx, still, above⟩)
          · rw [above] at gone
            exact .inl (gone before)
        · exact .inr (.inl ⟨other, other_lt, currIx, by rw [others other self]; exact carries,
            above⟩)
      · by_cases self : other = tid
        · subst self
          have here : after.nodes (config.leaf other) = w.nodes (config.leaf other) := by
            unfold parent at above
            rcases Nat.mod_two_eq_zero_or_one (config.leaf other) with even | odd
            · rw [show config.leaf other = 2 * ix by omega]
              exact left
            · rw [show config.leaf other = 2 * ix + 1 by omega]
              exact right
          have large : 1 < config.leaf other := by
            unfold parent at above
            omega
          rcases trying large none_ tried here with ⟨none', tried'⟩ | carries
          · exact .inr (.inr ⟨other, active, above, here.trans same, tried', none'⟩)
          · exact .inr (.inl ⟨other, active, _, same ▸ carries, above⟩)
        · refine .inr (.inr ⟨other, other_lt, above, (leaves other self).trans same, ?_, ?_⟩)
          · rw [others other self]
            exact tried
          · rw [others other self]
            exact none_
    · exact .inr (child (2 * ix + 1) (by omega) (by unfold parent; omega) agreed.2 right)
  · exact .inr (child (2 * ix) (by omega) (by unfold parent; omega) agreed.1 left)

section Steps

variable {config : Config} {w : World Object} (inv : Inv config w) (moving : Moving config w)
    {tid : Nat} (active : tid < config.threads)

include inv moving active

theorem Moving.update {nodes : Nat → Nat} {thread : Thread Object}
    (up : ∀ ix, w.nodes ix ≤ nodes ix)
    (leaves : ∀ other, other ≠ tid → nodes (config.leaf other) = w.nodes (config.leaf other))
    (changed : ∀ ix, 2 ≤ ix → nodes ix ≠ w.nodes ix → nodes ix % 2 = 0 ∧
      (thread.pc.carrying = some (ix, nodes ix) ∨ ix = config.leaf tid ∧ thread.tried = false ∧
      thread.pc.carrying = none))
    (raised : ∀ ix, 2 ≤ ix → nodes ix ≠ w.nodes ix → Under ix (config.leaf tid) ∧
      (ix < config.leaves → nodes ix = w.nodes (config.leaf tid)))
    (leaving : ∀ currIx val, (w.thread tid).pc.carrying = some (currIx, val) →
      thread.pc.carrying = some (currIx, val) ∨
      (Agreed w.nodes (parent currIx) val → Passed nodes (parent currIx) val))
    (trying : 1 < config.leaf tid → (w.thread tid).pc.carrying = none →
      (w.thread tid).tried = false → nodes (config.leaf tid) = w.nodes (config.leaf tid) →
      thread.pc.carrying = none ∧ thread.tried = false ∨ thread.pc.carrying =
      some (config.leaf tid, w.nodes (config.leaf tid)))
    (late : ∀ currIx val parentVal, thread.pc = .casParent currIx val parentVal →
      nodes (parent currIx) = parentVal ∨ val ≤ nodes (parent currIx)) :
    Moving config ({ w with nodes := nodes }.set tid thread) := by
  have self : ({ w with nodes := nodes }.set tid thread).thread tid = thread := by
    simp only [World.set, Function.update_self]
  have others (other : Nat) (apart : other ≠ tid) :
    ({ w with nodes := nodes }.set tid thread).thread other = w.thread other := by
    simp only [World.set]
    rw [Function.update_of_ne apart]
  constructor
  · refine moving.step_live active up others leaves ?_ ?_ ?_
    · rw [self]
      exact changed
    · rw [self]
      exact leaving
    · rw [self]
      exact trying
  · intro other below currIx val parentVal pc
    by_cases same : other = tid
    · rw [same, self] at pc
      exact late currIx val parentVal pc
    · rw [others other same] at pc
      have place := (inv.ok other below).place
      rw [pc] at place
      obtain ⟨climbs, across, notTop, _⟩ := place
      have bound := climbs.parent_lt
      show nodes (parent currIx) = parentVal ∨ val ≤ nodes (parent currIx)
      by_cases still : nodes (parent currIx) = w.nodes (parent currIx)
      · rw [still]
        exact moving.late other below currIx val parentVal pc
      · obtain ⟨under, value⟩ := raised (parent currIx) (by omega) still
        rw [value bound.1]
        exact .inr (across tid active under)
  · intro ix low high nobody
    show nodes ix = 1
    by_cases still : nodes ix = w.nodes ix
    · rw [still]
      exact moving.quiet ix low high nobody
    · exact absurd (raised ix low still).1 (nobody tid active)

-- A step that leaves the tree alone.
theorem Moving.set {thread : Thread Object}
    (leaving : ∀ currIx val, (w.thread tid).pc.carrying = some (currIx, val) →
      thread.pc.carrying = some (currIx, val) ∨
      (Agreed w.nodes (parent currIx) val → Passed w.nodes (parent currIx) val))
    (trying : 1 < config.leaf tid → (w.thread tid).pc.carrying = none →
      (w.thread tid).tried = false → thread.pc.carrying = none ∧ thread.tried = false ∨
      thread.pc.carrying = some (config.leaf tid, w.nodes (config.leaf tid)))
    (late : ∀ currIx val parentVal, thread.pc = .casParent currIx val parentVal →
      w.nodes (parent currIx) = parentVal) :
    Moving config (w.set tid thread) :=
  moving.update inv active (fun _ => Nat.le_refl _) (fun _ _ => rfl) (fun _ _ new => absurd rfl new)
    (fun _ _ new => absurd rfl new) leaving
    (fun large none_ tried _ => trying large none_ tried) fun currIx val parentVal pc =>
    .inl (late currIx val parentVal pc)

-- Outside tryAdvance, before and after.
theorem Moving.plain {thread : Thread Object} (before : (w.thread tid).pc.carrying = none)
    (after : thread.pc.carrying = none) (tried : thread.tried = (w.thread tid).tried) :
    Moving config (w.set tid thread) := by
  refine moving.set inv active (fun currIx val carries => ?_)
    (fun _ _ untried => .inl ⟨after, tried.trans untried⟩) fun currIx val parentVal pc => ?_
  · rw [before] at carries
    cases carries
  · rw [pc] at after
    cases after

-- Inside tryAdvance, with the same value at the same node.
theorem Moving.stay {pc : Pc} {place : Nat × Nat}
    (before : (w.thread tid).pc.carrying = some place) (after : pc.carrying = some place)
    (late : ∀ currIx val parentVal, pc = .casParent currIx val parentVal →
      w.nodes (parent currIx) = parentVal) :
    Moving config (w.set tid ((w.thread tid).goto pc)) := by
  refine moving.set inv active (fun currIx val carries => ?_) (fun _ none_ _ => ?_) late
  · rw [before] at carries
    exact .inl (after.trans carries)
  · rw [before] at none_
    cases none_

-- tryAdvance gives up.
theorem Moving.leave {currIx val : Nat} (before : (w.thread tid).pc.carrying = some (currIx, val))
    (passed : Agreed w.nodes (parent currIx) val → Passed w.nodes (parent currIx) val) :
    Moving config (w.set tid (w.thread tid).leave) := by
  refine moving.set inv active (fun node value carries => ?_) (fun _ none_ _ => ?_) nofun
  · rw [before] at carries
    cases carries
    exact .inr passed
  · rw [before] at none_
    cases none_

theorem Moving.announce {readEpoch : Nat} (pc : (w.thread tid).pc = .announce readEpoch) :
    Moving config ((w.write (config.leaf tid) readEpoch).set tid
      { w.thread tid with pc := .rotate readEpoch, tried := false }) := by
  have place := (inv.ok tid active).place
  rw [pc] at place
  obtain ⟨_, even, _, less⟩ := place
  have self : Function.update w.nodes (config.leaf tid) readEpoch (config.leaf tid) = readEpoch :=
    Function.update_self _ _ _
  have only (ix : Nat) (new : Function.update w.nodes (config.leaf tid) readEpoch ix ≠ w.nodes ix) :
    ix = config.leaf tid := by
    by_contra apart
    exact new (Function.update_of_ne apart _ _)
  refine moving.update inv active (update_up less.le)
    (fun other apart => Function.update_of_ne (leaf_ne apart) _ _) (fun ix _ new => ?_)
    (fun ix _ new => ?_) (fun currIx val carries => ?_) (fun _ _ _ same => ?_) nofun
  · obtain rfl := only ix new
    rw [self]
    exact ⟨even, .inr ⟨rfl, rfl, rfl⟩⟩
  · obtain rfl := only ix new
    have bound := leaf_inside active
    exact ⟨under_self _, fun inner => by omega⟩
  · rw [pc] at carries
    cases carries
  · exact .inl ⟨rfl, rfl⟩

theorem Moving.casRoot {currIx val parentVal : Nat}
    (pc : (w.thread tid).pc = .casRoot currIx val parentVal)
    (same : w.nodes (parent currIx) = parentVal) :
    Moving config ((w.write (parent currIx) (parentVal + 2)).set tid (w.thread tid).leave) := by
  have place := (inv.ok tid active).place
  rw [pc] at place
  obtain ⟨climbs, _, top, equal⟩ := place
  have several : 2 ≤ config.leaves := by
    have inside := climbs.inside
    omega
  have other (ix : Nat) (two : 2 ≤ ix) : Function.update w.nodes (parent currIx) (parentVal + 2)
    ix = w.nodes ix :=
    Function.update_of_ne (by omega) _ _
  refine moving.update inv active (update_up (by omega))
    (fun user _ => other _ (by unfold Config.leaf; omega))
    (fun ix two new => absurd (other ix two) new)
    (fun ix two new => absurd (other ix two) new) (fun node value carries => ?_)
    (fun _ none_ _ => ?_) nofun
  · rw [pc] at carries
    cases carries
    refine .inr fun _ => ?_
    rw [Passed, if_pos top, top, Function.update_self]
    omega
  · rw [pc] at none_
    cases none_

theorem Moving.casParent {currIx val parentVal : Nat}
    (pc : (w.thread tid).pc = .casParent currIx val parentVal)
    (same : w.nodes (parent currIx) = parentVal) :
    Moving config ((w.write (parent currIx) val).set tid
      ((w.thread tid).goto (.readSibling (parent currIx) val))) := by
  have place := (inv.ok tid active).place
  rw [pc] at place
  obtain ⟨climbs, across, notTop, less⟩ := place
  have bound := climbs.parent_lt
  have self : Function.update w.nodes (parent currIx) val (parent currIx) = val :=
    Function.update_self _ _ _
  have only (ix : Nat) (new : Function.update w.nodes (parent currIx) val ix ≠ w.nodes ix) :
    ix = parent currIx := by
    by_contra apart
    exact new (Function.update_of_ne apart _ _)
  refine moving.update inv active (update_up (by omega))
    (fun user _ => Function.update_of_ne (by unfold Config.leaf; omega) _ _) (fun ix _ new => ?_)
    (fun ix _ new => ?_) (fun node value carries => ?_) (fun _ none_ _ => ?_) nofun
  · obtain rfl := only ix new
    rw [self, ← climbs.own]
    refine ⟨inv.tree.even tid active, .inl ?_⟩
    rw [climbs.own]
    rfl
  · obtain rfl := only ix new
    exact ⟨climbs.under.up, fun _ => self.trans climbs.own.symm⟩
  · rw [pc] at carries
    cases carries
    refine .inr fun _ => ?_
    rw [Passed, if_neg notTop, self]
  · rw [pc] at none_
    cases none_

end Steps

theorem move_moving {config : Config} {w after : World Object} (inv : Inv config w)
    (moving : Moving config w) {tid : Nat} (moved : move config w tid = some after) :
    Moving config after := by
  have reach : (w.thread tid).pc ≠ .idle → tid < config.threads := inv.active_of
  unfold move at moved
  dsimp only at moved
  split at moved
  · cases moved
  · rename_i pc
    cases moved
    exact moving.plain inv (reach (by rw [pc]; nofun)) (by rw [pc]; rfl) rfl rfl
  · rename_i readEpoch pc
    cases moved
    refine moving.plain inv (reach (by rw [pc]; nofun)) (by rw [pc]; rfl) ?_ rfl
    show (if readEpoch ≠ bitsEpoch (w.nodes (config.leaf tid)) then Pc.announce readEpoch
      else Pc.tick).carrying = none
    split <;> rfl
  · rename_i readEpoch pc
    cases moved
    exact moving.announce inv (reach (by rw [pc]; nofun)) pc
  · rename_i readEpoch pc
    cases moved
    exact moving.plain inv (reach (by rw [pc]; nofun)) (by rw [pc]; rfl) rfl rfl
  · rename_i pc
    cases moved
    refine moving.plain inv (reach (by rw [pc]; nofun)) (by rw [pc]; rfl) ?_ rfl
    dsimp only
    split <;> rfl
  · rename_i pc
    cases moved
    have active := reach (by rw [pc]; nofun)
    refine moving.set inv active (fun currIx val carries => ?_) (fun large _ _ => ?_)
      fun currIx val parentVal here => ?_
    · rw [pc] at carries
      cases carries
    · rw [if_pos large]
      exact .inr rfl
    · split at here <;> cases here
  · rename_i currIx val pc
    cases moved
    have active := reach (by rw [pc]; nofun)
    split
    · exact moving.stay inv active (by rw [pc]; rfl) rfl nofun
    · rename_i differs
      exact moving.leave inv active (by rw [pc]; rfl) fun agreed =>
        absurd (agreed_sibling agreed) differs
  · rename_i currIx val pc
    have active := reach (by rw [pc]; nofun)
    have place := (inv.ok tid active).place
    rw [pc] at place
    split at moved <;> cases moved
    · rename_i top
      split
      · rename_i other
        refine moving.leave inv active (by rw [pc]; rfl) fun _ => ?_
        have least := inv.tree.least tid active
        rw [place.1.own] at least
        rw [top] at other
        rw [Passed, if_pos top]
        omega
      · exact moving.stay inv active (by rw [pc]; rfl) rfl nofun
    · rename_i notTop
      split
      · rename_i larger
        refine moving.leave inv active (by rw [pc]; rfl) fun _ => ?_
        rw [Passed, if_neg notTop]
        exact larger
      · refine moving.stay inv active (by rw [pc]; rfl) rfl fun node value parentVal same => ?_
        cases same
        rfl
  · rename_i currIx val parentVal pc
    have active := reach (by rw [pc]; nofun)
    have place := (inv.ok tid active).place
    rw [pc] at place
    split at moved <;> cases moved
    · rename_i same
      exact moving.casRoot inv active pc same
    · rename_i other
      refine moving.leave inv active (by rw [pc]; rfl) fun _ => ?_
      obtain ⟨climbs, _, top, equal⟩ := place
      have least := inv.tree.least tid active
      rw [climbs.own] at least
      rw [top] at other
      rw [Passed, if_pos top]
      omega
  · rename_i currIx val parentVal pc
    have active := reach (by rw [pc]; nofun)
    have place := (inv.ok tid active).place
    rw [pc] at place
    split at moved <;> cases moved
    · rename_i same
      exact moving.casParent inv active pc same
    · rename_i other
      refine moving.leave inv active (by rw [pc]; rfl) fun _ => ?_
      rw [Passed, if_neg place.2.2.1]
      rcases moving.late tid active currIx val parentVal pc with same | larger
      · exact absurd same other
      · exact larger

theorem step_moving (config : Config) (before : World Object) (event : Event Object)
    (after : World Object) (both : Inv config before ∧ Moving config before)
    (kept : free before event) (stepped : step config before event = some after) :
    Inv config after ∧ Moving config after := by
  obtain ⟨inv, moving⟩ := both
  refine ⟨step_inv config before event after inv kept stepped, ?_⟩
  cases event with
  | startOp tid =>
      obtain ⟨⟨active, idle⟩, ⟨⟩⟩ := Option.ite_none_right_eq_some.mp stepped
      exact moving.plain inv active (by rw [idle]; rfl) rfl rfl
  | retire tid object =>
      obtain ⟨⟨active, idle⟩, ⟨⟩⟩ := Option.ite_none_right_eq_some.mp stepped
      refine moving.plain inv active (by rw [idle]; rfl) ?_ rfl
      show (before.thread tid).pc.carrying = none
      rw [idle]
      rfl
  | move tid => exact move_moving inv moving stepped

-- At first every node with a thread below it holds 0 and the root 2.
theorem initial_moving (config : Config) (several : 2 ≤ config.threads) :
    Moving config (initial config : World Object) := by
  refine ⟨fun ix val low high below agreed => .inl ?_, nofun, fun ix low high nobody => ?_⟩
  rotate_left
  · show config.initNodes ix = 1
    rw [init_other (by omega)]
    exact padded_quiet (by omega) ix (by omega) high nobody
  obtain ⟨tid, active, under⟩ := below
  have some_ : 0 < config.threads := by omega
  have zero (node : Nat) (two : 2 ≤ node) (here : Under node (config.leaf tid)) :
    config.initNodes node = 0 := by
    rw [init_other (by omega)]
    rcases (padded_ok some_).1 node with none_ | ⟨_, _, _, nobody⟩
    · exact none_
    · exact absurd here (nobody tid active)
  have value : val = 0 := by
    have bound := leaf_inside active
    rcases under.eq_or_down with same | left | right
    · omega
    · have empty := zero (2 * ix) (by omega) left
      have agrees : config.initNodes (2 * ix) = val ∨ config.initNodes (2 * ix) % 2 = 1 := agreed.1
      omega
    · have empty := zero (2 * ix + 1) (by omega) right
      have agrees : config.initNodes (2 * ix + 1) = val ∨ config.initNodes (2 * ix + 1) % 2 = 1 :=
        agreed.2
      omega
  have root : config.initNodes 1 = 2 := init_root
  rw [Passed, value]
  split
  · show 0 < config.initNodes 1
    omega
  · exact Nat.zero_le _

/-- Two threads or more. Once every thread has announced the epoch `e`, or a later one, and has
since returned from tryAdvance, the epoch is past `e` or some thread is inside tryAdvance and
carries `e` upwards. -/
theorem epoch_advance_not_lost {config : Config} (several : 2 ≤ config.threads)
    {events : List (Event Object)} {w : World Object}
    (run : Run (step config) free (initial config) events w) (e : Nat)
    (announced : ∀ tid < config.threads, e < w.nodes (config.leaf tid) ∨
      w.nodes (config.leaf tid) = e ∧ (w.thread tid).tried = true) :
    e < w.nodes 1 ∨ ∃ tid < config.threads, ∃ currIx, (w.thread tid).pc.carrying =
      some (currIx, e) := by
  obtain ⟨inv, moving⟩ : Inv config w ∧ Moving config w :=
    run_invariant (fun w => Inv config w ∧ Moving config w)
      ⟨initial_inv config, initial_moving config several⟩ (step_moving config) run
  by_contra neither
  rw [not_or] at neither
  obtain ⟨behind, nobody⟩ := neither
  have leaf (tid : Nat) (active : tid < config.threads) : w.nodes (config.leaf tid) = e ∧
    (w.thread tid).tried = true := by
    rcases announced tid active with later | here
    · have least := inv.tree.least tid active
      omega
    · exact here
  have stuck (ix : Nat) (low : 1 ≤ ix) (high : ix < config.leaves)
    (below : ∃ tid < config.threads, Under ix (config.leaf tid))
      (agreed : Agreed w.nodes ix e) : Passed w.nodes ix e := by
    rcases moving.live ix e low high below agreed with passed | ⟨tid, active, currIx, carries,
      _⟩ | ⟨tid, active, _, _, untried, _⟩
    · exact passed
    · exact absurd ⟨tid, active, currIx, carries⟩ nobody
    · rw [(leaf tid active).2] at untried
      cases untried
  -- From the leaves upwards every node with a thread below it holds the value.
  have filled (ix : Nat) (low : 2 ≤ ix) (high : ix < 2 * config.leaves) : w.nodes ix = e ∨
    w.nodes ix % 2 = 1 := by
    induction height : 2 * config.leaves - ix using Nat.strong_induction_on generalizing ix with
    | _ height ih =>
        by_cases below : ∃ tid < config.threads, Under ix (config.leaf tid)
        · obtain ⟨tid, active, under⟩ := below
          by_cases outer : config.leaves ≤ ix
          · rw [under.leaf (leaf_inside active).2 outer]
            exact .inl (leaf tid active).1
          · have agreed : Agreed w.nodes ix e :=
              ⟨ih _ (by omega) (2 * ix) (by omega) (by omega) rfl,
                ih _ (by omega) (2 * ix + 1) (by omega) (by omega) rfl⟩
            have passed := stuck ix (by omega) (by omega) ⟨tid, active, under⟩ agreed
            rw [Passed, if_neg (by omega)] at passed
            have most := (inv.tree.inner ix low (by omega) tid active under).1
            rw [(leaf tid active).1] at most
            exact .inl (by omega)
        · refine .inr ?_
          rw [moving.quiet ix low high fun tid active under => below ⟨tid, active, under⟩]
  have enough := config.threads_le
  have passed := stuck 1 (Nat.le_refl 1) (by omega)
    ⟨0, by omega, under_root (by unfold Config.leaf; omega)⟩
    ⟨filled 2 (by omega) (by omega), filled 3 (by omega) (by omega)⟩
  rw [Passed, if_pos rfl] at passed
  exact behind passed

theorem two_threads_advance :
    ∃ w : World Unit, Run (step ⟨2, 1, 1⟩) free (initial ⟨2, 1, 1⟩)
      (startOpBy 0 7 ++ startOpBy 1 9) w
    ∧ (2 < w.nodes 1 ∨ ∃ tid < 2, ∃ currIx, (w.thread tid).pc.carrying = some (currIx, 2)) := by
  have replayed : (replay (step ⟨2, 1, 1⟩) free (startOpBy 0 7 ++ startOpBy 1 9)
    (initial ⟨2, 1, 1⟩)).map (fun w =>
      (w.nodes 2, (w.thread 0).tried, w.nodes 3, (w.thread 1).tried)) = some (2, true, 2,
      true) := by
    decide +kernel
  obtain ⟨w, same, values⟩ := Option.map_eq_some_iff.mp replayed
  simp only [Prod.mk.injEq] at values
  have run := run_of_replay _ same
  refine ⟨w, run, epoch_advance_not_lost (by decide) run 2 fun tid active => .inr ?_⟩
  have two : tid < 2 := active
  rcases (show tid = 0 ∨ tid = 1 by omega) with rfl | rfl
  · exact ⟨values.1, values.2.1⟩
  · exact ⟨values.2.2.1, values.2.2.2⟩

-- Thread 1 loses a compare-and-swap to a later call of thread 0, which has not yet gone on.
def lostToLaterCall : List (Event Unit) :=
  [startOpBy 2 10, startOpBy 0 7, startOpBy 1 8, startOpBy 0 7, [.move 1]].flatten

theorem advance_still_pending :
    ¬ ∀ (events : List (Event Unit)) (w : World Unit), Run (step ⟨3, 1, 1⟩) free (initial ⟨3, 1, 1⟩)
      events w →
    (∀ tid < 3, w.nodes (Config.leaf ⟨3, 1, 1⟩ tid) = 2 ∧ (w.thread tid).tried = true) →
    2 < w.nodes 1 := by
  intro always
  have replayed : (replay (step ⟨3, 1, 1⟩) free lostToLaterCall (initial ⟨3, 1, 1⟩)).map (fun w =>
      ((w.nodes 4, (w.thread 0).tried), (w.nodes 5, (w.thread 1).tried),
        (w.nodes 6, (w.thread 2).tried), w.nodes 1))
      = some ((2, true), (2, true), (2, true), 2) := by
    decide +kernel
  obtain ⟨w, same, values⟩ := Option.map_eq_some_iff.mp replayed
  simp only [Prod.mk.injEq] at values
  have larger := always lostToLaterCall w (run_of_replay _ same) fun tid three => by
    rcases (show tid = 0 ∨ tid = 1 ∨ tid = 2 by omega) with rfl | rfl | rfl
    · exact values.1
    · exact values.2.1
    · exact values.2.2.1
  omega

end SetBench.EpochTree
