import Mathlib
import SetBench.Epoch

/-! The epoch memory pool `mem_pool` of artifact_flock/epoch.h over the
epoch structure. `retire` is `add_to_current_list`: advance_epoch reads the current
epoch, clears the old list, rotates the lists, reads the current epoch again and
may run update_epoch before the new link is pushed. The update heuristic depends
on a counter and on wall time, so its outcome is part of the event. Freed memory
is not handed out again here: a link is identified by the retire call that made
it, and an object retired twice counts as two objects. -/
namespace SetBench.Reclaim

open SetBench.Transition

variable {workers : Nat} {Object : Type}

structure Link (Object : Type) where
  value : Object
  call : Nat
  deriving DecidableEq, Repr

inductive RetirePc (Object : Type) where
  | idle
  | load (link : Link Object)
  | clear (link : Link Object) (rest : List (Link Object))
  | rotate (link : Link Object)
  | stamp (link : Link Object)
  | heuristic (link : Link Object)
  | push (link : Link Object)
  deriving DecidableEq, Repr

structure OldCurrent (Object : Type) where
  old : List (Link Object)
  current : List (Link Object)
  epoch : Nat
  pc : RetirePc Object
  deriving DecidableEq, Repr

/-- `now` counts the events so far; `began` is the time a slot was last exchanged
and `retiredAt` the time a retire call started. -/
structure State (workers : Nat) (Object : Type) where
  epoch : Epoch.State workers
  pools : Fin workers → OldCurrent Object
  skip : Nat → Bool
  calls : Nat
  now : Nat
  began : Fin workers → Nat
  retiredAt : Nat → Nat
  destructed : List (Link Object)

-- `undoRetire` writes the skip field: true in undo_retire, false in undo_allocate.
inductive Event (workers : Nat) (Object : Type) where
  | epoch (event : Epoch.Event workers)
  | retire (id : Fin workers) (value : Object)
  | retireStep (id : Fin workers) (update : Bool)
  | undoRetire (call : Nat) (flag : Bool)

def initial (clock : Nat) : State workers Object :=
  ⟨Epoch.initial clock, fun _ => ⟨[], [], 0, .idle⟩, fun _ => false, 0, 0, fun _ => 0,
    fun _ => 0, []⟩

def State.setPool (state : State workers Object) (id : Fin workers) (pool : OldCurrent Object) :
    State workers Object :=
  { state with pools := Function.update state.pools id pool, now := state.now + 1 }

-- A thread inside retire neither unannounces nor starts a second update_epoch.
def permitted (state : State workers Object) : Epoch.Event workers → Bool
  | .unannounce id => match (state.pools id).pc with | .idle => true | _ => false
  | .beginUpdate id => match (state.pools id).pc with | .idle => true | _ => false
  | _ => true

def begun (state : State workers Object) : Epoch.Event workers → Fin workers → Nat
  | .announceStep id =>
      match (state.epoch.thread id).announcing with
      | .exchange _ => Function.update state.began id state.now
      | _ => state.began
  | _ => state.began

def retireStep (state : State workers Object) (id : Fin workers) (update : Bool) :
    Option (State workers Object) :=
  let pid := state.pools id
  match pid.pc with
  | .idle => none
  | .load link =>
      if pid.epoch + 1 < state.epoch.currentEpoch then
        some (state.setPool id { pid with pc := .clear link pid.old })
      else some (state.setPool id { pid with pc := .heuristic link })
  | .clear link [] => some (state.setPool id { pid with pc := .rotate link })
  | .clear link (head :: rest) =>
      let next := state.setPool id { pid with pc := .clear link rest }
      if state.skip head.call then some next
      else some { next with destructed := head :: state.destructed }
  | .rotate link =>
      some (state.setPool id { pid with old := pid.current, current := [], pc := .stamp link })
  | .stamp link =>
      some (state.setPool id { pid with epoch := state.epoch.currentEpoch, pc := .heuristic link })
  | .heuristic link =>
      let next := state.setPool id { pid with pc := .push link }
      if update then (Epoch.step state.epoch (.beginUpdate id)).map fun epoch => { next with epoch }
      else some next
  | .push link =>
      if (state.epoch.thread id).updating = .idle then
        some { state.setPool id { pid with current := link :: pid.current, pc := .idle } with
          skip := Function.update state.skip link.call false }
      else none

def step (state : State workers Object) : Event workers Object → Option (State workers Object)
  | .epoch event =>
      if permitted state event then
        (Epoch.step state.epoch event).map fun epoch =>
          { state with epoch, began := begun state event, now := state.now + 1 }
      else none
  | .retire id value =>
      let pid := state.pools id
      match pid.pc with
      | .idle =>
          if (state.epoch.thread id).announcing = .inside ∧ (state.epoch.thread id).updating =
            .idle then
            some { state.setPool id { pid with pc := .load ⟨value, state.calls⟩ } with
              calls := state.calls + 1
              retiredAt := Function.update state.retiredAt state.calls state.now }
          else none
      | _ => none
  | .retireStep id update => retireStep state id update
  | .undoRetire call flag =>
      some { state with skip := Function.update state.skip call flag, now := state.now + 1 }

/-! Identity of links: a retire call is in at most one list of one thread, and
never in a list once its link was destructed. -/

def pending : RetirePc Object → List (Link Object)
  | .idle => []
  | .load link | .clear link _ | .rotate link | .stamp link | .heuristic link | .push link => [link]

-- While the old list is being cleared its head pointer dangles; `rest` is what is left of it.
def remaining (pool : OldCurrent Object) : List (Link Object) :=
  match pool.pc with
  | .clear _ rest => rest
  | .rotate _ => []
  | _ => pool.old

def held (pool : OldCurrent Object) : List Nat :=
  (pending pool.pc ++ pool.current ++ remaining pool).map Link.call

structure Distinct (state : State workers Object) : Prop where
  nodup : ∀ id, (held (state.pools id)).Nodup
  owner : ∀ id other call, call ∈ held (state.pools id) → call ∈ held (state.pools other) →
    id = other
  known : ∀ id call, call ∈ held (state.pools id) → call < state.calls
  gone : ∀ id call, call ∈ held (state.pools id) → call ∉ state.destructed.map Link.call
  past : ∀ call ∈ state.destructed.map Link.call, call < state.calls
  once : (state.destructed.map Link.call).Nodup

theorem initial_distinct (clock : Nat) : Distinct (initial clock : State workers Object) := by
  constructor <;> simp [initial, held, pending, remaining]

-- A thread that keeps a sublist of what it held keeps identities apart.
theorem set_distinct {state : State workers Object} (inv : Distinct state) (id : Fin workers)
    (pool : OldCurrent Object) (nodup : (held pool).Nodup)
    (subset : held pool ⊆ held (state.pools id)) :
    Distinct (state.setPool id pool) := by
  have back (other : Fin workers) (call : Nat)
      (member : call ∈ held ((state.setPool id pool).pools other)) :
      call ∈ held (state.pools other) := by
    by_cases here : other = id
    · subst here; exact subset (by simpa [State.setPool] using member)
    · simpa [State.setPool, here] using member
  refine ⟨?_, fun one other call first second => inv.owner one other call (back one call first)
    (back other call second), fun other call member =>
    inv.known other call (back other call member),
    fun other call member => inv.gone other call (back other call member), inv.past, inv.once⟩
  intro other
  by_cases here : other = id
  · subst here; simpa [State.setPool] using nodup
  · simpa [State.setPool, here] using inv.nodup other

theorem retireStep_distinct {before after : State workers Object} {id : Fin workers}
    {update : Bool} (inv : Distinct before) (stepped : retireStep before id update = some after) :
    Distinct after := by
  have own := inv.nodup id
  -- Moves that keep the held calls in place.
  have same (pool : OldCurrent Object) (unchanged : held pool = held (before.pools id)) :
      Distinct (before.setPool id pool) :=
    set_distinct inv id pool (unchanged ▸ own) (unchanged ▸ List.Subset.refl _)
  cases pc : (before.pools id).pc with
  | idle => simp [retireStep, pc] at stepped
  | load link =>
      simp only [retireStep, pc] at stepped
      split at stepped <;> simp only [Option.some.injEq] at stepped <;> subst stepped <;>
        exact same _ (by simp [held, pending, remaining, pc])
  | clear link rest =>
      cases rest with
      | nil =>
          simp only [retireStep, pc, Option.some.injEq] at stepped
          subst stepped
          exact same _ (by simp [held, pending, remaining, pc])
      | cons head rest =>
          have split : held (before.pools id) = (link :: (before.pools id).current).map Link.call ++
              head.call :: rest.map Link.call := by simp [held, pending, remaining, pc]
          have shorter : held { before.pools id with pc := .clear link rest } =
              (link :: (before.pools id).current).map Link.call ++ rest.map Link.call := by
            simp [held, pending, remaining]
          rw [split] at own
          have parts := List.nodup_append.mp own
          have tail := List.nodup_cons.mp parts.2.1
          have apart : head.call ∉ held { before.pools id with pc := .clear link rest } := by
            rw [shorter, List.mem_append]
            rintro (early | late)
            · exact parts.2.2 _ early _ (by simp) rfl
            · exact tail.1 late
          have kept : Distinct (before.setPool id
            { before.pools id with pc := .clear link rest }) := by
            apply set_distinct inv id
            · rw [shorter]
              exact List.nodup_append.mpr ⟨parts.1, tail.2, fun a early b late =>
                parts.2.2 a early b (List.mem_cons_of_mem _ late)⟩
            · rw [shorter, split]
              intro call member
              simp only [List.mem_append, List.mem_cons] at member ⊢
              tauto
          have mine : head.call ∈ held (before.pools id) := by rw [split]; simp
          simp only [retireStep, pc] at stepped
          split at stepped <;> simp only [Option.some.injEq] at stepped <;> subst stepped
          · exact kept
          · refine ⟨kept.nodup, kept.owner, kept.known, ?_, ?_, ?_⟩
            · intro other call member destructed
              rcases List.mem_cons.mp destructed with here | earlier
              · subst here
                by_cases self : other = id
                · subst self; exact apart (by simpa [State.setPool] using member)
                · exact self (inv.owner other id head.call
                    (by simpa [State.setPool, self] using member) mine)
              · exact kept.gone other call member earlier
            · intro call member
              rcases List.mem_cons.mp member with here | earlier
              · subst here; exact inv.known id _ mine
              · exact inv.past call earlier
            · exact List.nodup_cons.mpr ⟨inv.gone id _ mine, inv.once⟩
  | rotate link =>
      simp only [retireStep, pc, Option.some.injEq] at stepped
      subst stepped
      exact same _ (by simp [held, pending, remaining, pc])
  | stamp link =>
      simp only [retireStep, pc, Option.some.injEq] at stepped
      subst stepped
      exact same _ (by simp [held, pending, remaining, pc])
  | heuristic link =>
      have kept := same { before.pools id with pc := .push link }
        (by simp [held, pending, remaining, pc])
      simp only [retireStep, pc] at stepped
      split at stepped
      · obtain ⟨epoch, _, rfl⟩ := Option.map_eq_some_iff.mp stepped
        exact ⟨kept.nodup, kept.owner, kept.known, kept.gone, kept.past, kept.once⟩
      · simp only [Option.some.injEq] at stepped
        subst stepped
        exact kept
  | push link =>
      have kept :=
        same { before.pools id with current := link :: (before.pools id).current, pc := .idle }
        (by simp [held, pending, remaining, pc])
      simp only [retireStep, pc, Option.ite_none_right_eq_some, Option.some.injEq] at stepped
      obtain ⟨_, rfl⟩ := stepped
      exact ⟨kept.nodup, kept.owner, kept.known, kept.gone, kept.past, kept.once⟩

theorem step_distinct {before after : State workers Object} (event : Event workers Object)
    (inv : Distinct before) (stepped : step before event = some after) : Distinct after := by
  cases event with
  | epoch event =>
      simp only [step, Option.ite_none_right_eq_some] at stepped
      obtain ⟨epoch, _, rfl⟩ := Option.map_eq_some_iff.mp stepped.2
      exact ⟨inv.nodup, inv.owner, inv.known, inv.gone, inv.past, inv.once⟩
  | retire id value =>
      simp only [step] at stepped
      split at stepped
      · rename_i pc
        simp only [Option.ite_none_right_eq_some, Option.some.injEq] at stepped
        obtain ⟨_, rfl⟩ := stepped
        have longer : held { before.pools id with pc := .load ⟨value, before.calls⟩ } =
            before.calls :: held (before.pools id) := by simp [held, pending, remaining, pc]
        have old (other : Fin workers) (call : Nat)
            (member : call ∈ held ((before.setPool id
              { before.pools id with pc := .load ⟨value, before.calls⟩ }).pools other)) :
            (call = before.calls ∧ other = id) ∨ call ∈ held (before.pools other) := by
          by_cases here : other = id
          · subst here
            simp only [State.setPool, Function.update_self, longer, List.mem_cons] at member
            rcases member with same | earlier
            · exact Or.inl ⟨same, rfl⟩
            · exact Or.inr earlier
          · exact Or.inr (by simpa [State.setPool, here] using member)
        have newest (other : Fin workers) : before.calls ∉ held (before.pools other) :=
          fun member =>
          Nat.lt_irrefl _ (inv.known other _ member)
        refine ⟨?_, ?_, ?_, ?_, fun call member => Nat.lt_succ_of_lt (inv.past call member),
          inv.once⟩
        · intro other
          by_cases here : other = id
          · subst here
            simp only [State.setPool, Function.update_self, longer]
            exact List.nodup_cons.mpr ⟨newest other, inv.nodup other⟩
          · simpa [State.setPool, here] using inv.nodup other
        · intro one other call first second
          rcases old one call first with ⟨fresh, here⟩ | mine
          · rcases old other call second with ⟨_, there⟩ | theirs
            · rw [here, there]
            · exact absurd (fresh ▸ theirs) (newest other)
          · rcases old other call second with ⟨fresh, _⟩ | theirs
            · exact absurd (fresh ▸ mine) (newest one)
            · exact inv.owner one other call mine theirs
        · intro other call member
          rcases old other call member with ⟨fresh, _⟩ | earlier
          · simp only; omega
          · exact Nat.lt_succ_of_lt (inv.known other call earlier)
        · intro other call member destructed
          rcases old other call member with ⟨fresh, _⟩ | earlier
          · have bound := inv.past call destructed
            omega
          · exact inv.gone other call earlier destructed
      · simp at stepped
  | retireStep id update => exact retireStep_distinct inv stepped
  | undoRetire call flag =>
      simp only [step, Option.some.injEq] at stepped
      subst stepped
      exact ⟨inv.nodup, inv.owner, inv.known, inv.gone, inv.past, inv.once⟩


/-! Ages of links. `retiredIn call` is the epoch in which a retire call started. A
link in the current list was retired at most one epoch after `pid.epoch`, a link
in the old list strictly before it, and the old list is cleared only two epochs
later. -/

structure Aged (retiredIn : Nat → Nat) (epoch : Nat) (pool : OldCurrent Object) : Prop where
  read : pool.epoch ≤ epoch
  current : ∀ link ∈ pool.current, retiredIn link.call ≤ pool.epoch + 1
  old : (∀ link, pool.pc ≠ .stamp link) →
    ∀ link ∈ remaining pool, retiredIn link.call + 1 ≤ pool.epoch
  clearing : ∀ link rest, pool.pc = .clear link rest → pool.epoch + 2 ≤ epoch
  rotating : ∀ link, pool.pc = .rotate link → pool.epoch + 2 ≤ epoch
  stamping : ∀ link, pool.pc = .stamp link → pool.epoch + 2 ≤ epoch ∧
    ∀ entry ∈ pool.old, retiredIn entry.call ≤ pool.epoch + 1
  waiting : ∀ link ∈ pending pool.pc, retiredIn link.call ≤ epoch
  pushing : ∀ link, pool.pc = .heuristic link ∨ pool.pc = .push link →
    retiredIn link.call ≤ pool.epoch + 1

structure Guarded (retiredIn : Nat → Nat) (state : State workers Object) : Prop where
  bounded : Epoch.Bounded state.epoch
  aged : ∀ id, Aged retiredIn state.epoch.currentEpoch (state.pools id)
  pinned : ∀ id call, call < state.calls → state.epoch.last id ≠ none →
    state.began id < state.retiredAt call → (state.epoch.thread id).wrote ≤ retiredIn call
  began : ∀ id, state.epoch.last id ≠ none → state.began id < state.now
  retired : ∀ call < state.calls, state.retiredAt call < state.now

theorem initial_guarded (clock : Nat) :
    Guarded (fun _ => 0) (initial clock : State workers Object) := by
  refine ⟨Epoch.initial_bounded clock, ?_, ?_, ?_, ?_⟩
  · intro id
    constructor <;> simp [initial, remaining, pending, Epoch.initial]
  · simp [initial]
  · simp [initial, Epoch.initial]
  · simp [initial]

theorem aged_later {retiredIn : Nat → Nat} {epoch later : Nat} {pool : OldCurrent Object}
    (aged : Aged retiredIn epoch pool) (grows : epoch ≤ later) : Aged retiredIn later pool := by
  obtain ⟨read, current, old, clearing, rotating, stamping, waiting, pushing⟩ := aged
  refine ⟨by omega, current, old, ?_, ?_, ?_, ?_, pushing⟩
  · intro link rest at_; have := clearing link rest at_; omega
  · intro link at_; have := rotating link at_; omega
  · intro link at_; have := stamping link at_; exact ⟨by omega, this.2⟩
  · intro link member; have := waiting link member; omega


theorem aged_congr {retiredIn other : Nat → Nat} {epoch : Nat} {pool : OldCurrent Object}
    (aged : Aged retiredIn epoch pool)
    (same : ∀ link : Link Object, link.call ∈ held pool → other link.call = retiredIn link.call) :
    Aged other epoch pool := by
  have member (link : Link Object) (entry : link ∈ pending pool.pc ∨ link ∈ pool.current ∨
    link ∈ remaining pool) :
      other link.call = retiredIn link.call := by
    apply same
    simp only [held, List.map_append, List.mem_append]
    rcases entry with entry | entry | entry
    · exact Or.inl (Or.inl (List.mem_map_of_mem entry))
    · exact Or.inl (Or.inr (List.mem_map_of_mem entry))
    · exact Or.inr (List.mem_map_of_mem entry)
  obtain ⟨read, current, old, clearing, rotating, stamping, waiting, pushing⟩ := aged
  refine ⟨read, ?_, ?_, clearing, rotating, ?_, ?_, ?_⟩
  · intro link entry
    rw [member link (Or.inr (Or.inl entry))]
    exact current link entry
  · intro calm link entry
    rw [member link (Or.inr (Or.inr entry))]
    exact old calm link entry
  · intro link at_
    refine ⟨(stamping link at_).1, fun entry inside => ?_⟩
    rw [member entry (Or.inr (Or.inr (by simpa [remaining, at_] using inside)))]
    exact (stamping link at_).2 entry inside
  · intro link entry
    rw [member link (Or.inl entry)]
    exact waiting link entry
  · intro link at_
    have entry : link ∈ pending pool.pc := by
      rcases at_ with at_ | at_ <;> simp [at_, pending]
    rw [member link (Or.inl entry)]
    exact pushing link at_

theorem retireStep_aged {retiredIn : Nat → Nat} {before after : State workers Object}
    {id : Fin workers} {update : Bool}
    (aged : Aged retiredIn before.epoch.currentEpoch (before.pools id))
    (stepped : retireStep before id update = some after) :
    Aged retiredIn before.epoch.currentEpoch (after.pools id) := by
  obtain ⟨read, current, old, clearing, rotating, stamping, waiting, pushing⟩ := aged
  cases pc : (before.pools id).pc with
  | idle => simp [retireStep, pc] at stepped
  | load link =>
      simp only [remaining, pc, pending] at old waiting
      have entered := waiting link (by simp)
      have older := old (by simp)
      simp only [retireStep, pc] at stepped
      split at stepped <;> simp only [Option.some.injEq] at stepped <;> subst stepped
      all_goals
        simp only [State.setPool, Function.update_self]
        constructor <;> simp only [remaining, pending, reduceCtorEq, or_false]
      all_goals grind
  | clear link rest =>
      simp only [remaining, pc, pending] at old waiting
      have due := clearing link rest pc
      have older := old (by simp)
      cases rest with
      | nil =>
          simp only [retireStep, pc, Option.some.injEq] at stepped
          subst stepped
          simp only [State.setPool, Function.update_self]
          constructor <;> simp only [remaining, pending, reduceCtorEq, or_false]
          all_goals grind
      | cons head rest =>
          have next : after.pools id = { before.pools id with pc := .clear link rest } := by
            simp only [retireStep, pc] at stepped
            split at stepped <;> simp only [Option.some.injEq] at stepped <;> subst stepped <;>
              simp [State.setPool]
          rw [next]
          constructor <;> simp only [remaining, pending, reduceCtorEq, or_false]
          all_goals grind
  | rotate link =>
      have due := rotating link pc
      simp only [pc, pending] at waiting
      simp only [retireStep, pc, Option.some.injEq] at stepped
      subst stepped
      simp only [State.setPool, Function.update_self]
      constructor <;> simp only [remaining, pending, reduceCtorEq, or_false]
      all_goals grind
  | stamp link =>
      have due := stamping link pc
      simp only [pc, pending] at waiting
      simp only [retireStep, pc, Option.some.injEq] at stepped
      subst stepped
      simp only [State.setPool, Function.update_self]
      constructor <;> simp only [remaining, pending, reduceCtorEq, or_false]
      all_goals grind
  | heuristic link =>
      have young := pushing link (Or.inl pc)
      simp only [remaining, pc, pending] at old waiting
      have next : after.pools id = { before.pools id with pc := .push link } := by
        simp only [retireStep, pc] at stepped
        split at stepped
        · obtain ⟨epoch, _, rfl⟩ := Option.map_eq_some_iff.mp stepped
          simp [State.setPool]
        · simp only [Option.some.injEq] at stepped
          subst stepped
          simp [State.setPool]
      rw [next]
      constructor <;> simp only [remaining, pending, reduceCtorEq, false_or]
      all_goals grind
  | push link =>
      have young := pushing link (Or.inr pc)
      simp only [remaining, pc, pending] at old waiting
      simp only [retireStep, pc, Option.ite_none_right_eq_some, Option.some.injEq] at stepped
      obtain ⟨_, rfl⟩ := stepped
      simp only [State.setPool, Function.update_self]
      constructor <;> simp only [remaining, pending, reduceCtorEq, or_false]
      all_goals grind


theorem retireStep_frame {before after : State workers Object} {id : Fin workers} {update : Bool}
    (stepped : retireStep before id update = some after) :
    (∀ other, other ≠ id → after.pools other = before.pools other) ∧ after.calls = before.calls ∧
    after.began = before.began ∧ after.retiredAt = before.retiredAt ∧ after.now = before.now + 1 ∧
    (after.epoch = before.epoch ∨ Epoch.step before.epoch
      (.beginUpdate id) = some after.epoch) := by
  have moved (pool : OldCurrent Object) (other : Fin workers) (different : other ≠ id) :
      (before.setPool id pool).pools other = before.pools other := by
      simp [State.setPool, different]
  unfold retireStep at stepped
  simp only at stepped
  split at stepped
  · simp at stepped
  · split at stepped <;> simp only [Option.some.injEq] at stepped <;> subst stepped <;>
      exact ⟨moved _, rfl, rfl, rfl, rfl, Or.inl rfl⟩
  · simp only [Option.some.injEq] at stepped
    subst stepped
    exact ⟨moved _, rfl, rfl, rfl, rfl, Or.inl rfl⟩
  · split at stepped <;> simp only [Option.some.injEq] at stepped <;> subst stepped <;>
      exact ⟨moved _, rfl, rfl, rfl, rfl, Or.inl rfl⟩
  · simp only [Option.some.injEq] at stepped
    subst stepped
    exact ⟨moved _, rfl, rfl, rfl, rfl, Or.inl rfl⟩
  · simp only [Option.some.injEq] at stepped
    subst stepped
    exact ⟨moved _, rfl, rfl, rfl, rfl, Or.inl rfl⟩
  · split at stepped
    · obtain ⟨epoch, began, rfl⟩ := Option.map_eq_some_iff.mp stepped
      exact ⟨moved _, rfl, rfl, rfl, rfl, Or.inr began⟩
    · simp only [Option.some.injEq] at stepped
      subst stepped
      exact ⟨moved _, rfl, rfl, rfl, rfl, Or.inl rfl⟩
  · simp only [Option.ite_none_right_eq_some, Option.some.injEq] at stepped
    obtain ⟨_, rfl⟩ := stepped
    exact ⟨moved _, rfl, rfl, rfl, rfl, Or.inl rfl⟩

theorem begun_cases (state : State workers Object) (event : Epoch.Event workers)
    (id : Fin workers) :
    (∃ current, (state.epoch.thread id).announcing = .exchange current ∧ event = .announceStep id ∧
      begun state event id = state.now) ∨
    ((∀ current, (state.epoch.thread id).announcing = .exchange current →
      event ≠ .announceStep id) ∧
      begun state event id = state.began id) := by
  by_cases here : event = .announceStep id
  · subst here
    cases pc : (state.epoch.thread id).announcing with
    | exchange current => exact Or.inl ⟨current, rfl, rfl, by simp [begun, pc]⟩
    | outside | load | check _ | inside => exact Or.inr ⟨by simp, by simp [begun, pc]⟩
  · refine Or.inr ⟨fun _ _ => here, ?_⟩
    cases event with
    | announceStep actor =>
        have other : id ≠ actor := fun same => here (by rw [same])
        cases pc : (state.epoch.thread actor).announcing <;> simp [begun, pc, other]
    | _ => rfl

-- Any step of the epoch structure, whoever takes it, keeps the ages.
theorem epoch_guarded {retiredIn : Nat → Nat} {before : State workers Object}
    {epoch : Epoch.State workers} (event : Epoch.Event workers) (inv : Guarded retiredIn before)
    (stepped : Epoch.step before.epoch event = some epoch) :
    Guarded retiredIn
      { before with epoch, began := begun before event, now := before.now + 1 } := by
  obtain ⟨-, grows, -, moves⟩ := Epoch.step_moves event stepped
  have exchanging := begun_cases before event
  refine ⟨Epoch.step_bounded event inv.bounded stepped, fun id => aged_later (inv.aged id) grows,
    ?_, ?_, ?_⟩
  · intro id call known held early
    rcases exchanging id with ⟨current, at_, announce, now⟩ | ⟨quiet, same⟩
    · have before := inv.retired call known
      simp only at early
      omega
    · rcases (moves id).slot held with ⟨was, wrote⟩ | ⟨current, at_, announce, _⟩
      · simp only [wrote]
        exact inv.pinned id call known was (by simpa only [same] using early)
      · exact absurd announce (quiet current at_)
  · intro id held
    rcases exchanging id with ⟨current, at_, announce, now⟩ | ⟨quiet, same⟩
    · simp only; omega
    · rcases (moves id).slot held with ⟨was, _⟩ | ⟨current, at_, announce, _⟩
      · have := inv.began id was
        simp only; omega
      · exact absurd announce (quiet current at_)
  · intro call known
    exact Nat.lt_succ_of_lt (inv.retired call known)

theorem step_guarded {retiredIn : Nat → Nat} {before after : State workers Object}
    (event : Event workers Object) (inv : Guarded retiredIn before) (distinct : Distinct before)
    (stepped : step before event = some after) : ∃ next, Guarded next after := by
  cases event with
  | epoch event =>
      simp only [step, Option.ite_none_right_eq_some] at stepped
      obtain ⟨epoch, moved, rfl⟩ := Option.map_eq_some_iff.mp stepped.2
      exact ⟨retiredIn, epoch_guarded event inv moved⟩
  | retire id value =>
      simp only [step] at stepped
      split at stepped
      · rename_i pc
        simp only [Option.ite_none_right_eq_some, Option.some.injEq] at stepped
        obtain ⟨_, rfl⟩ := stepped
        -- The new call is younger than every link that is held.
        have kept (other : Fin workers) (call : Nat) (member : call ∈ held (before.pools other)) :
            Function.update retiredIn before.calls before.epoch.currentEpoch call =
              retiredIn call :=
          Function.update_of_ne (Nat.ne_of_lt (distinct.known other call member)) ..
        refine ⟨Function.update retiredIn before.calls before.epoch.currentEpoch, inv.bounded, ?_,
          ?_, ?_, ?_⟩
        · intro other
          have aged := inv.aged other
          have same := kept other
          by_cases here : other = id
          · subst here
            simp only [State.setPool, Function.update_self]
            obtain ⟨read, current, old, -, -, -, -, -⟩ := aged
            simp only [held, pending, remaining, pc, List.nil_append, List.map_append,
              List.mem_append,
              List.mem_map] at same old
            refine ⟨read, ?_, ?_, by simp, by simp, by simp, by simp [pending], by simp⟩
            · intro link member
              rw [same link.call (Or.inl ⟨link, member, rfl⟩)]
              exact current link member
            · intro _ link member
              simp only [remaining] at member
              rw [same link.call (Or.inr ⟨link, member, rfl⟩)]
              exact old (by simp) link member
          · simp only [State.setPool, Function.update_of_ne here]
            have here_ (link : Link Object) (member : link.call ∈ held (before.pools other)) :=
              same link.call member
            exact aged_congr aged here_
        · intro other call known held early
          rcases Nat.lt_succ_iff_lt_or_eq.mp known with older | newest
          · simp only [Function.update_of_ne (Nat.ne_of_lt older)] at early ⊢
            exact inv.pinned other call older held early
          · subst newest
            rw [Function.update_self]
            obtain ⟨epoch, slot⟩ := Option.ne_none_iff_exists'.mp held
            exact (inv.bounded.slot other epoch slot).2.1
        · intro other held
          exact Nat.lt_succ_of_lt (inv.began other held)
        · intro call known
          rcases Nat.lt_succ_iff_lt_or_eq.mp known with older | newest
          · simp only [Function.update_of_ne (Nat.ne_of_lt older)]
            exact Nat.lt_succ_of_lt (inv.retired call older)
          · subst newest
            simp only [Function.update_self]
            exact Nat.lt_succ_self _
      · simp at stepped
  | retireStep id update =>
      obtain ⟨others, calls, began, retiredAt, now, epoch⟩ := retireStep_frame stepped
      have own := retireStep_aged (inv.aged id) stepped
      have aged (other : Fin workers) : Aged retiredIn before.epoch.currentEpoch
        (after.pools other) := by
        by_cases here : other = id
        · exact here ▸ own
        · exact others other here ▸ inv.aged other
      have moved : Guarded retiredIn
        { before with epoch := after.epoch, now := before.now + 1 } := by
        rcases epoch with same | updating
        · rw [same]
          exact ⟨inv.bounded, inv.aged, inv.pinned, fun other held => Nat.lt_succ_of_lt
            (inv.began other held),
            fun call known => Nat.lt_succ_of_lt (inv.retired call known)⟩
        · exact epoch_guarded (.beginUpdate id) inv updating
      have grows : before.epoch.currentEpoch ≤ after.epoch.currentEpoch := by
        rcases epoch with same | updating
        · rw [same]
        · exact (Epoch.step_moves _ updating).2.1
      refine ⟨retiredIn, moved.bounded, fun other => aged_later (aged other) grows, ?_, ?_, ?_⟩
      · rw [calls, began, retiredAt]; exact moved.pinned
      · rw [began, now]; exact moved.began
      · rw [calls, retiredAt, now]; exact moved.retired
  | undoRetire call flag =>
      simp only [step, Option.some.injEq] at stepped
      subst stepped
      exact ⟨retiredIn, inv.bounded, inv.aged, inv.pinned,
        fun other held => Nat.lt_succ_of_lt (inv.began other held),
        fun call known => Nat.lt_succ_of_lt (inv.retired call known)⟩

theorem destruct_cases {before after : State workers Object} (event : Event workers Object)
    (stepped : step before event = some after) (link : Link Object)
    (grew : after.destructed = link :: before.destructed) :
    before.skip link.call = false ∧
    ∃ id retiring rest, (before.pools id).pc = .clear retiring (link :: rest) := by
  have idle (same : after.destructed = before.destructed) : False := by
    rw [grew] at same
    exact List.cons_ne_self link before.destructed same
  cases event with
  | epoch event =>
      simp only [step, Option.ite_none_right_eq_some] at stepped
      obtain ⟨epoch, _, rfl⟩ := Option.map_eq_some_iff.mp stepped.2
      exact (idle rfl).elim
  | retire id value =>
      simp only [step] at stepped
      split at stepped
      · simp only [Option.ite_none_right_eq_some, Option.some.injEq] at stepped
        obtain ⟨_, rfl⟩ := stepped
        exact (idle rfl).elim
      · simp at stepped
  | undoRetire call flag =>
      simp only [step, Option.some.injEq] at stepped
      subst stepped
      exact (idle rfl).elim
  | retireStep id update =>
      simp only [step] at stepped
      unfold retireStep at stepped
      simp only at stepped
      split at stepped
      · simp at stepped
      · split at stepped <;> simp only [Option.some.injEq] at stepped <;> subst stepped <;>
          exact (idle rfl).elim
      · simp only [Option.some.injEq] at stepped
        subst stepped
        exact (idle rfl).elim
      · rename_i retiring head rest pc
        split at stepped <;> simp only [Option.some.injEq] at stepped <;> subst stepped
        · exact (idle rfl).elim
        · rename_i live
          obtain ⟨rfl, _⟩ := List.cons.inj grew
          exact ⟨Bool.eq_false_iff.mpr live, id, retiring, rest, pc⟩
      · simp only [Option.some.injEq] at stepped
        subst stepped
        exact (idle rfl).elim
      · simp only [Option.some.injEq] at stepped
        subst stepped
        exact (idle rfl).elim
      · split at stepped
        · obtain ⟨epoch, _, rfl⟩ := Option.map_eq_some_iff.mp stepped
          exact (idle rfl).elim
        · simp only [Option.some.injEq] at stepped
          subst stepped
          exact (idle rfl).elim
      · simp only [Option.ite_none_right_eq_some, Option.some.injEq] at stepped
        obtain ⟨_, rfl⟩ := stepped
        exact (idle rfl).elim

def Safe (state : State workers Object) : Prop :=
  Distinct state ∧ ∃ retiredIn, Guarded retiredIn state

theorem run_safe {clock : Nat} {events : List (Event workers Object)} {state : State workers Object}
    (run : Run step free (initial clock) events state) : Safe state := by
  refine run_invariant Safe ⟨initial_distinct clock, _, initial_guarded clock⟩ ?_ run
  rintro before event after ⟨distinct, retiredIn, guarded⟩ _ stepped
  exact ⟨step_distinct event distinct stepped, step_guarded event guarded distinct stepped⟩

/-- An announcement counts from the exchange that wrote the slot, which is no later
than the return of announce: what is destructed was retired before every standing
announcement began, and no retire call is destructed twice. -/
theorem reclamation_safety {clock : Nat} {events : List (Event workers Object)}
    {state : State workers Object} (run : Run step free (initial clock) events state) :
    (state.destructed.map Link.call).Nodup ∧
    ∀ event after link, step state event = some after → after.destructed =
      link :: state.destructed →
      state.skip link.call = false ∧
      ∀ id, state.epoch.last id ≠ none → ¬ state.began id < state.retiredAt link.call := by
  obtain ⟨distinct, retiredIn, guarded⟩ := run_safe run
  refine ⟨distinct.once, fun event after link stepped grew => ?_⟩
  obtain ⟨live, owner, retiring, rest, pc⟩ := destruct_cases event stepped link grew
  refine ⟨live, fun id standing early => ?_⟩
  have aged := guarded.aged owner
  have due := aged.clearing retiring _ pc
  have old := aged.old (by simp [pc]) link (by simp [remaining, pc])
  have known : link.call < state.calls := distinct.known owner link.call (by
    simp [held, pending, remaining, pc])
  have pinned := guarded.pinned id link.call known standing early
  obtain ⟨epoch, slot⟩ := Option.ne_none_iff_exists'.mp standing
  have bound := guarded.bounded.slot id epoch slot
  omega

-- One thread retires three objects; the first two epochs rotate the lists, the
-- next two let the third retire clear what the first one left.
def announced : List (Event 1 Unit) :=
  [.epoch (.enter 0), .epoch (.announceStep 0), .epoch (.announceStep 0), .epoch (.announceStep 0)]

def advanced : List (Event 1 Unit) :=
  .epoch (.beginUpdate 0) :: List.replicate 8 (.epoch (.updateStep 0))

def threeRetires : List (Event 1 Unit) :=
  announced ++ [.retire 0 ()] ++ List.replicate 3
    (.retireStep 0 false) ++ [.epoch (.unannounce 0)] ++
  advanced ++ advanced ++
  announced ++ [.retire 0 ()] ++ List.replicate 6
    (.retireStep 0 false) ++ [.epoch (.unannounce 0)] ++
  advanced ++ advanced ++
  announced ++ [.retire 0 ()] ++ List.replicate 1 (.retireStep 0 false)

theorem three_retires_replay :
    (replay step free threeRetires (initial 0)).map
    (fun state => (state.destructed, state.epoch.last 0,
      (step state (.retireStep 0 false)).map State.destructed)) =
    some ([], some 4, some [⟨(), 0⟩]) := by decide +kernel

theorem three_retires_safe : ∃ state after : State 1 Unit,
    Run step free (initial 0) threeRetires state ∧ step state (.retireStep 0 false) = some after ∧
    after.destructed = ⟨(), 0⟩ :: state.destructed ∧ state.epoch.last 0 = some 4 ∧
    ¬ state.began 0 < state.retiredAt 0 := by
  obtain ⟨state, replayed, shape⟩ := Option.map_eq_some_iff.mp three_retires_replay
  simp only [Prod.mk.injEq] at shape
  obtain ⟨empty, slot, last⟩ := shape
  obtain ⟨after, stepped, destructed⟩ := Option.map_eq_some_iff.mp last
  have run : Run step free (initial 0) threeRetires state :=
    run_of_replay threeRetires replayed
  have grew : after.destructed = ⟨(), 0⟩ :: state.destructed := by rw [destructed, empty]
  exact ⟨state, after, run, stepped, grew, slot,
    ((reclamation_safety run).2 _ after _ stepped grew).2 0 (by simp [slot])⟩

end SetBench.Reclaim
