import Mathlib
import SetBench.FlockSteps

/-! The objects a thunk allocates: the pool of memory_pool::new_obj gets back every object that lost
its place in the log, once, and never one that is in the log. -/
namespace SetBench.Flock

open Transition LinkedLog

variable {thunk : Thunk} {memory : Memory} {s s' : State} {chain : List Nat}
    {committed : List Entry} {now : Config} {h : Nat}

-- The entry a helper brings to the log.
def Phase.brings : Phase → Option Entry
  | .holding _ _ entry | .linking _ _ entry _ | .reading _ _ entry | .deciding _ _ entry =>
      some entry
  | _ => none

def State.Logged (s : State) (o : Nat) : Prop :=
  ∃ array slot, s.entries array slot = some (.object o)

inductive Home where
  | pool
  | helper (h : Nat)
  | log
  | returned
  deriving DecidableEq

/-- Where every object is. -/
structure Placed (s : State) (home : Nat → Home) : Prop where
  pool : ∀ o, home o = .pool ↔ s.objects ≤ o
  helper : ∀ o h, home o = .helper h ↔ (s.helpers h).brings = some (.object o)
  log : ∀ o, home o = .log ↔ s.Logged o
  returned : ∀ o, s.destructed o = if home o = .returned then 1 else 0

variable {home : Nat → Home}

-- The helper goes on with what it brings; the log and the pool stay.
theorem Placed.carry (placed : Placed s home) (phase : Phase)
    (same : phase.brings = (s.helpers h).brings)
    (moved : s'.helpers = Function.update s.helpers h phase) (objects : s'.objects = s.objects)
    (entries : s'.entries = s.entries) (destructed : s'.destructed = s.destructed) :
    Placed s' home where
  pool o := by rw [placed.pool o, objects]
  helper o k := by
    rw [placed.helper o k, moved]
    by_cases own : k = h
    · rw [own, Function.update_self, same]
    · rw [Function.update_of_ne own]
  log o := by
    rw [placed.log o]
    unfold State.Logged
    rw [entries]
  returned o := by rw [destructed, placed.returned o]

theorem Placed.alone (placed : Placed s home) {o k : Nat}
    (mine : (s.helpers h).brings = some (.object o))
    (other : (s.helpers k).brings = some (.object o)) : k = h := by
  have first := (placed.helper o h).mpr mine
  have second := (placed.helper o k).mpr other
  exact Home.helper.inj (second.symm.trans first)

-- The helper lets go of what it brought: the object moves to a new home.
theorem Placed.leave (placed : Placed s home) (dest : Home) {o : Nat} {phase : Phase}
    (mine : (s.helpers h).brings = some (.object o)) (empty : phase.brings = none)
    (moved : s'.helpers = Function.update s.helpers h phase) (objects : s'.objects = s.objects)
    (unpooled : dest ≠ .pool) (unheld : ∀ k, dest ≠ .helper k)
    (logged : ∀ q, s'.Logged q ↔ s.Logged q ∨ (q = o ∧ dest = .log))
    (destructed : ∀ q,
      s'.destructed q = s.destructed q + if q = o ∧ dest = .returned then 1 else 0) :
    Placed s' (Function.update home o dest) := by
  have at_h : home o = .helper h := (placed.helper o h).mpr mine
  constructor
  case pool =>
    intro q
    by_cases same : q = o
    · rw [same, Function.update_self, objects, ← placed.pool o, at_h]
      exact ⟨fun clash => absurd clash unpooled, nofun⟩
    · rw [Function.update_of_ne same, placed.pool q, objects]
  case helper =>
    intro q k
    rw [moved]
    by_cases own : k = h
    · rw [own, Function.update_self, empty]
      by_cases same : q = o
      · rw [same, Function.update_self]
        exact ⟨fun clash => absurd clash (unheld h), nofun⟩
      · rw [Function.update_of_ne same, placed.helper q h, mine]
        exact ⟨fun clash => absurd (Entry.object.inj (Option.some.inj clash)).symm same, nofun⟩
    · rw [Function.update_of_ne own]
      by_cases same : q = o
      · rw [same, Function.update_self]
        exact ⟨fun clash => absurd clash (unheld k),
          fun other => absurd (placed.alone mine other) own⟩
      · rw [Function.update_of_ne same, placed.helper q k]
  case log =>
    intro q
    rw [logged q, ← placed.log q]
    by_cases same : q = o
    · rw [same, Function.update_self, at_h]
      exact ⟨fun here => .inr ⟨rfl, here⟩, fun either => either.elim nofun And.right⟩
    · rw [Function.update_of_ne same]
      exact ⟨.inl, fun either => either.elim id fun both => absurd both.1 same⟩
  case returned =>
    intro q
    rw [destructed q, placed.returned q]
    by_cases same : q = o
    · rw [same, Function.update_self, at_h, if_neg Home.noConfusion, Nat.zero_add]
      exact if_congr (and_iff_right rfl) rfl rfl
    · rw [Function.update_of_ne same]
      simp only [same, false_and, if_false, Nat.add_zero]

-- The helper brings an entry that is no object, or had none: nothing has a new home.
theorem brings_no_object {phase : Phase} (empty : phase.brings = none) (o : Nat) :
    phase.brings ≠ some (.object o) := by
  rw [empty]
  exact (Option.some_ne_none _).symm

theorem Placed.drop (placed : Placed s home) (phase : Phase)
    (none_ : ∀ o, (s.helpers h).brings ≠ some (.object o))
    (empty : ∀ o, phase.brings ≠ some (.object o))
    (moved : s'.helpers = Function.update s.helpers h phase) (objects : s'.objects = s.objects)
    (logged : ∀ q, s'.Logged q ↔ s.Logged q) (destructed : s'.destructed = s.destructed) :
    Placed s' home where
  pool o := by rw [placed.pool o, objects]
  helper o k := by
    rw [placed.helper o k, moved]
    by_cases own : k = h
    · rw [own, Function.update_self]
      exact iff_of_false (none_ o) (empty o)
    · rw [Function.update_of_ne own]
  log o := by rw [placed.log o, logged o]
  returned o := by rw [destructed, placed.returned o]

-- The pool hands out a new object.
theorem Placed.take (placed : Placed s home) {log : Log} {point : Point}
    (none_ : (s.helpers h).brings = none) :
    Placed { s with
      objects := s.objects + 1
      helpers := Function.update s.helpers h (.holding log point (.object s.objects)) }
      (Function.update home s.objects (.helper h)) := by
  have at_pool : home s.objects = .pool := (placed.pool _).mpr (Nat.le_refl _)
  constructor
  case pool =>
    intro o
    by_cases same : o = s.objects
    · rw [same, Function.update_self]
      exact ⟨nofun, fun less => absurd less (Nat.not_succ_le_self _)⟩
    · rw [Function.update_of_ne same, placed.pool o]
      exact ⟨fun less => Nat.lt_of_le_of_ne less (Ne.symm same), Nat.le_of_succ_le⟩
  case helper =>
    intro o k
    dsimp only
    by_cases same : o = s.objects <;> by_cases own : k = h
    · rw [same, own, Function.update_self, Function.update_self]
      exact iff_of_true rfl rfl
    · rw [same, Function.update_self, Function.update_of_ne own, ← placed.helper, at_pool]
      exact ⟨fun clash => absurd (Home.helper.inj clash).symm own, nofun⟩
    · rw [Function.update_of_ne same, own, Function.update_self, placed.helper, none_]
      exact ⟨nofun, fun clash => absurd (Entry.object.inj (Option.some.inj clash)).symm same⟩
    · rw [Function.update_of_ne same, Function.update_of_ne own, placed.helper]
  case log =>
    intro o
    change _ ↔ s.Logged o
    rw [← placed.log o]
    by_cases same : o = s.objects
    · rw [same, Function.update_self, at_pool]
      exact ⟨nofun, nofun⟩
    · rw [Function.update_of_ne same]
  case returned =>
    intro o
    dsimp only
    rw [placed.returned o]
    by_cases same : o = s.objects
    · rw [same, Function.update_self, at_pool]
      rfl
    · rw [Function.update_of_ne same]

theorem logged_of_set {log : Log} {entry : Entry} {o : Nat}
    (logged : (s.setCurrent log entry).Logged o) : s.Logged o ∨ entry = .object o := by
  obtain ⟨array, slot, here⟩ := logged
  unfold State.setCurrent at here
  by_cases same : array = log.vals
  · dsimp only at here
    rw [same, Function.update_self] at here
    by_cases cell : slot = log.count - 1
    · rw [cell, Function.update_self] at here
      exact .inr (Option.some.inj here)
    · rw [Function.update_of_ne cell] at here
      exact .inl ⟨_, _, here⟩
  · dsimp only at here
    rw [Function.update_of_ne same] at here
    exact .inl ⟨_, _, here⟩

theorem logged_set (log : Log) (entry : Entry) (o : Nat)
    (unlogged : ∀ q, s.current log ≠ some (.object q)) :
    (s.setCurrent log entry).Logged o ↔ s.Logged o ∨ entry = .object o := by
  refine ⟨logged_of_set, ?_⟩
  unfold State.Logged State.setCurrent
  unfold State.current at unlogged
  rintro (⟨array, slot, here⟩ | rfl)
  · refine ⟨array, slot, ?_⟩
    dsimp only
    by_cases same : array = log.vals
    · subst same
      have cell : slot ≠ log.count - 1 := by
        rintro rfl
        exact unlogged o here
      rwa [Function.update_self, Function.update_of_ne cell]
    · rwa [Function.update_of_ne same]
  · refine ⟨log.vals, log.count - 1, ?_⟩
    dsimp only
    rw [Function.update_self, Function.update_self]

-- A helper at a mark brings the mark only.
def Phase.Marks : Phase → Prop
  | .holding _ point entry | .linking _ point entry _ | .reading _ point entry =>
      ∀ l old v rest, point = .mark l old v rest → entry = .done
  | _ => True

structure Housed (s : State) (home : Nat → Home) : Prop where
  placed : Placed s home
  marks : ∀ h, (s.helpers h).Marks

theorem Housed.adopt (housed : Housed s home) {log : Log} {point : Point} {mine : Entry}
    (brings : (s.helpers h).brings = some mine) (found : Entry) :
    ∃ home', Placed (s.adopt h log point mine found) home' := by
  cases mine with
  | object o =>
      refine ⟨_, housed.placed.leave .returned brings rfl rfl rfl nofun nofun ?_ ?_⟩
      · exact fun q => ⟨.inl, fun either => either.elim id fun both => absurd both.2
          Home.noConfusion⟩
      · intro q
        by_cases same : q = o
        · rw [same, if_pos ⟨rfl, rfl⟩]
          exact Function.update_self ..
        · rw [if_neg fun both => same both.1]
          exact Function.update_of_ne same ..
  | word w =>
      exact ⟨home, housed.placed.drop (.ready log (point.after found)) (by rw [brings]; nofun) nofun
        rfl rfl (fun _ => Iff.rfl) rfl⟩
  | done =>
      exact ⟨home, housed.placed.drop (.ready log (point.after found)) (by rw [brings]; nofun) nofun
        rfl rfl (fun _ => Iff.rfl) rfl⟩

theorem Housed.decide (housed : Housed s home) {log : Log} {point : Point} {entry : Entry}
    (brings : (s.helpers h).brings = some entry) (absent : s.current log = none) :
    ∃ home', Placed ((s.setCurrent log entry).put h (.ready log (point.after entry))) home' := by
  have unlogged (q : Nat) : s.current log ≠ some (.object q) := by
    rw [absent]
    nofun
  cases entry with
  | object o =>
      refine ⟨_, housed.placed.leave .log brings rfl rfl rfl nofun nofun ?_ ?_⟩
      · intro q
        refine (logged_set log (.object o) q unlogged).trans (or_congr_right ?_)
        exact ⟨fun same => ⟨(Entry.object.inj same).symm, rfl⟩,
          fun both => congrArg Entry.object both.1.symm⟩
      · intro q
        rw [if_neg fun both => Home.noConfusion both.2]
        rfl
  | word w =>
      refine ⟨home, housed.placed.drop (.ready log (point.after (.word w))) (by rw [brings]; nofun)
        nofun rfl rfl ?_ rfl⟩
      exact fun q => (logged_set log (.word w) q unlogged).trans (or_iff_left Entry.noConfusion)
  | done =>
      refine ⟨home, housed.placed.drop (.ready log (point.after .done)) (by rw [brings]; nofun)
        nofun rfl rfl ?_ rfl⟩
      exact fun q => (logged_set log .done q unlogged).trans (or_iff_left Entry.noConfusion)

-- The slot of a mark holds the mark or nothing.
theorem Agreed.mark_slot (agreed : Agreed thunk memory s chain committed now) {log : Log}
    {l v : Nat} {old : Word} {rest : Thunk} (at_h : s.helpers h = .marking log l old v rest)
    (q : Nat) : s.current log ≠ some (.object q) := by
  have standing := agreed.helpers h
  rw [at_h] at standing
  obtain ⟨p, moved, stands, _⟩ := standing
  rw [agreed.reads moved]
  intro present
  obtain ⟨inside, same⟩ := List.getElem?_eq_some_iff.mp present
  obtain ⟨m, _, ahead⟩ := stands.ahead agreed.path
  rw [List.drop_eq_getElem_cons inside, same] at ahead
  cases ahead with
  | next fits _ => exact absurd fits Entry.noConfusion

theorem Housed.advance (agreed : Agreed thunk memory s chain committed now) (housed : Housed s home)
    (stepped : s.advance h = some s') : ∃ home', Placed s' home' := by
  have marks := housed.marks h
  unfold State.advance at stepped
  cases at_h : s.helpers h with
  | idle | finished result =>
      rw [at_h] at stepped
      cases stepped
  | ready log point =>
      have empty : (s.helpers h).brings = none := by rw [at_h]; rfl
      rw [at_h] at stepped
      dsimp only at stepped
      split at stepped
      case h_1 result _ =>
        cases stepped
        exact ⟨home, housed.placed.drop (.finished _) (by rw [empty]; nofun) nofun rfl rfl
          (fun _ => Iff.rfl) rfl⟩
      case h_2 point entry objects _ proposed =>
        cases stepped
        unfold State.propose at proposed
        split at proposed
        case h_1 => cases proposed
        case h_5 rest =>
          cases proposed
          exact ⟨_, housed.placed.take empty⟩
        all_goals
          cases proposed
          refine ⟨home, housed.placed.drop _ (by rw [empty]; nofun) ?_ rfl rfl
            (fun _ => Iff.rfl) rfl⟩
          intro o clash
          cases clash
      case h_3 => cases stepped
  | holding log point entry =>
      rw [at_h] at stepped
      dsimp only at stepped
      have same (log' : Log) : (Phase.reading log' point entry).brings = (s.helpers h).brings := by
        rw [at_h]; rfl
      by_cases full : log.count = logLen
      · rw [if_pos full] at stepped
        cases link : s.next log.vals with
        | some array =>
            rw [link] at stepped
            cases stepped
            exact ⟨home, housed.placed.carry _ (same _) rfl rfl rfl rfl⟩
        | none =>
            rw [link] at stepped
            cases stepped
            exact ⟨home, housed.placed.carry (.linking log point entry s.arrays) (same log) rfl rfl
              rfl rfl⟩
      · rw [if_neg full] at stepped
        cases stepped
        exact ⟨home, housed.placed.carry _ (same _) rfl rfl rfl rfl⟩
  | linking log point entry array =>
      rw [at_h] at stepped
      dsimp only at stepped
      have same (log' : Log) : (Phase.reading log' point entry).brings = (s.helpers h).brings := by
        rw [at_h]; rfl
      cases link : s.next log.vals with
      | some other =>
          rw [link] at stepped
          cases stepped
          exact ⟨home, housed.placed.carry _ (same _) rfl rfl rfl rfl⟩
      | none =>
          rw [link] at stepped
          cases stepped
          exact ⟨home, housed.placed.carry _ (same _) rfl rfl rfl rfl⟩
  | reading log point entry =>
      have brings : (s.helpers h).brings = some entry := by rw [at_h]; rfl
      rw [at_h] at stepped marks
      dsimp only at stepped
      split at stepped
      case h_1 found _ =>
        cases stepped
        exact housed.adopt brings found
      case h_2 l old v rest _ =>
        cases stepped
        rw [marks l old v rest rfl] at brings
        exact ⟨home, housed.placed.drop (.swapping log l old v rest) (by rw [brings]; nofun) nofun
          rfl rfl (fun _ => Iff.rfl) rfl⟩
      case h_3 body _ =>
        cases stepped
        exact ⟨home, housed.placed.carry (.deciding log (.op body) entry) brings.symm rfl rfl
          rfl rfl⟩
  | deciding log point entry =>
      have brings : (s.helpers h).brings = some entry := by rw [at_h]; rfl
      rw [at_h] at stepped
      dsimp only at stepped
      cases present : s.current log with
      | some found =>
          rw [present] at stepped
          cases stepped
          exact housed.adopt brings found
      | none =>
          rw [present] at stepped
          cases stepped
          exact housed.decide brings present
  | swapping log l old v rest =>
      have empty : (s.helpers h).brings = none := by rw [at_h]; rfl
      rw [at_h] at stepped
      cases stepped
      exact ⟨home, housed.placed.drop (.marking log l old v rest) (by rw [empty]; nofun) nofun rfl
        rfl (fun _ => Iff.rfl) rfl⟩
  | marking log l old v rest =>
      have empty : (s.helpers h).brings = none := by rw [at_h]; rfl
      have unlogged := agreed.mark_slot at_h
      rw [at_h] at stepped
      cases stepped
      refine ⟨home, housed.placed.drop (.ready log (.op rest)) (by rw [empty]; nofun) nofun rfl rfl
        ?_ rfl⟩
      exact fun q => (logged_set log .done q unlogged).trans (or_iff_left Entry.noConfusion)

theorem advance_marks (marks : ∀ k, (s.helpers k).Marks) (stepped : s.advance h = some s')
    (k : Nat) : (s'.helpers k).Marks := by
  have put {phase : Phase} (kept : phase.Marks) : (Function.update s.helpers h phase k).Marks := by
    by_cases own : k = h
    · rw [own, Function.update_self]
      exact kept
    · rw [Function.update_of_ne own]
      exact marks k
  have own := marks h
  unfold State.advance at stepped
  cases at_h : s.helpers h with
  | idle | finished result =>
      rw [at_h] at stepped
      cases stepped
  | ready log point =>
      rw [at_h] at stepped
      dsimp only at stepped
      split at stepped
      case h_1 =>
        cases stepped
        exact put trivial
      case h_2 point entry objects _ proposed =>
        cases stepped
        apply put
        rintro l old v rest rfl
        exact (congrArg Prod.fst (Option.some.inj proposed)).symm
      case h_3 => cases stepped
  | holding log point entry =>
      rw [at_h] at stepped own
      dsimp only at stepped
      split at stepped
      · split at stepped
        · cases stepped
          exact put own
        · cases stepped
          exact put (show (Phase.linking log point entry s.arrays).Marks from own)
      · cases stepped
        exact put own
  | linking log point entry array =>
      rw [at_h] at stepped own
      dsimp only at stepped
      split at stepped
      · cases stepped
        exact put own
      · cases stepped
        exact put own
  | reading log point entry =>
      rw [at_h] at stepped
      dsimp only at stepped
      split at stepped
      · cases stepped
        exact put trivial
      · cases stepped
        exact put trivial
      · cases stepped
        exact put trivial
  | deciding log point entry =>
      rw [at_h] at stepped
      dsimp only at stepped
      split at stepped
      · cases stepped
        exact put trivial
      · cases stepped
        exact put trivial
  | swapping log l old v rest | marking log l old v rest =>
      rw [at_h] at stepped
      cases stepped
      exact put trivial

theorem Housed.step (agreed : Agreed thunk memory s chain committed now) (housed : Housed s home)
    {event : Event} (stepped : step s event = some s') : ∃ home', Housed s' home' := by
  cases event with
  | help h =>
      simp only [Flock.step] at stepped
      cases at_h : s.helpers h with
      | idle =>
          rw [at_h] at stepped
          cases stepped
          have before : (s.helpers h).brings = none := congrArg Phase.brings at_h
          refine ⟨home, housed.placed.drop (.ready ⟨0, 0⟩ (.op s.thunk)) (brings_no_object before)
            (brings_no_object rfl) rfl rfl
            (fun _ => Iff.rfl) rfl, ?_⟩
          intro k
          by_cases own : k = h
          · rw [own]
            simp only [State.put, Function.update_self]
            trivial
          · simp only [State.put, Function.update_of_ne own]
            exact housed.marks k
      | _ =>
          rw [at_h] at stepped
          cases stepped
  | step h =>
      obtain ⟨home', placed⟩ := housed.advance agreed stepped
      exact ⟨home', placed, advance_marks housed.marks stepped⟩
  | write l v =>
      cases stepped
      exact ⟨home, ⟨housed.placed.pool, housed.placed.helper, housed.placed.log,
        housed.placed.returned⟩, housed.marks⟩

theorem housed_run {events : List Event} {last : State}
    (run : Run step Locked (start thunk memory) events last) :
    ∃ home, Placed last home := by
  have whole := run_invariant
    (fun s => (∃ chain committed now, Agreed thunk memory s chain committed now) ∧
      ∃ home, Housed s home)
    ⟨⟨_, _, _, agreed_initial thunk memory⟩, fun _ => .pool,
      ⟨fun o => iff_of_true rfl (Nat.zero_le o), fun _ _ => iff_of_false nofun nofun,
      fun o => iff_of_false nofun (fun ⟨_, _, here⟩ => absurd here nofun), fun _ => rfl⟩,
        fun _ => trivial⟩
    (fun _ _ _ ⟨⟨_, _, _, agreed⟩, _, housed⟩ locked stepped => ⟨agreed.step locked stepped,
      housed.step agreed stepped⟩) run
  obtain ⟨_, home, housed⟩ := whole
  exact ⟨home, housed.placed⟩

/-- However helpers race to allocate: an object goes back to the pool at most once, one that is in
the log never does, two helpers never bring one object, and an object that nobody brings is in
the log or back in the pool. -/
theorem objects_kept {events : List Event} {last : State}
    (run : Run step Locked (start thunk memory) events last) (o : Nat) :
    last.destructed o ≤ 1 ∧ (last.Logged o → last.destructed o = 0) ∧
      (∀ h k, (last.helpers h).brings = some (.object o) →
        (last.helpers k).brings = some (.object o) → k = h) ∧
      (o < last.objects → (∀ h, (last.helpers h).brings ≠ some (.object o)) → last.Logged o ∨
        last.destructed o = 1) := by
  obtain ⟨home, placed⟩ := housed_run run
  have count := placed.returned o
  refine ⟨?_, fun logged => ?_, fun h k => placed.alone, fun taken free => ?_⟩
  · rw [count]
    split
    · exact Nat.le_refl 1
    · exact Nat.zero_le 1
  · rw [count, (placed.log o).mpr logged]
    rfl
  · cases at_o : home o with
    | pool => exact absurd ((placed.pool o).mp at_o) (Nat.not_le_of_lt taken)
    | helper h => exact absurd ((placed.helper o h).mp at_o) (free h)
    | log => exact .inl ((placed.log o).mp at_o)
    | returned =>
        rw [at_o] at count
        exact .inr count

/-! What one thunk has of the objects that all thunks draw from. -/

-- The object is in the log, or a helper brings it.
def State.Has (s : State) (o : Nat) : Prop :=
  s.Logged o ∨ ∃ h, (s.helpers h).brings = some (.object o)

theorem has_start (f : Thunk) (memory : Memory) (o : Nat) : ¬ (start f memory).Has o := by
  rintro (⟨_, _, here⟩ | ⟨_, brings⟩)
  · cases here
  · cases brings

theorem Has.put {phase : Phase} (moved : s'.helpers = Function.update s.helpers h phase)
    (logged : ∀ o, s'.Logged o → s.Has o)
    (brings : ∀ o, phase.brings = some (.object o) → s.Has o ∨ s.objects ≤ o ∧ o < s'.objects)
    (more : s.objects ≤ s'.objects) :
    s.objects ≤ s'.objects ∧ ∀ o, s'.Has o → s.Has o ∨ s.objects ≤ o ∧ o < s'.objects := by
  refine ⟨more, fun o has => ?_⟩
  rcases has with there | ⟨k, at_k⟩
  · exact .inl (logged o there)
  · rw [moved] at at_k
    by_cases own : k = h
    · rw [own, Function.update_self] at at_k
      exact brings o at_k
    · rw [Function.update_of_ne own] at at_k
      exact .inl (.inr ⟨k, at_k⟩)

/-- The new objects of a step are those that the pool hands out in it. -/
theorem advance_has (stepped : s.advance h = some s') : s.objects ≤ s'.objects ∧
    ∀ o, s'.Has o → s.Has o ∨ s.objects ≤ o ∧ o < s'.objects := by
  have keep {phase : Phase} {s' : State} (moved : s'.helpers = Function.update s.helpers h phase)
      (objects : s'.objects = s.objects) (entries : s'.entries = s.entries)
      (brings : ∀ o, phase.brings = some (.object o) → s.Has o) : s.objects ≤ s'.objects ∧
      ∀ o, s'.Has o → s.Has o ∨ s.objects ≤ o ∧ o < s'.objects := by
    refine Has.put moved (fun o there => .inl ?_) (fun o here => .inl (brings o here)) objects.ge
    unfold State.Logged at there
    rw [entries] at there
    exact there
  have mine {o : Nat} (here : (s.helpers h).brings = some (.object o)) : s.Has o := .inr ⟨h, here⟩
  unfold State.advance at stepped
  cases at_h : s.helpers h with
  | idle | finished result =>
      rw [at_h] at stepped
      cases stepped
  | ready log point =>
      rw [at_h] at stepped
      dsimp only at stepped
      split at stepped
      case h_1 =>
        cases stepped
        exact keep rfl rfl rfl fun _ here => by cases here
      case h_2 point entry objects _ proposed =>
        cases stepped
        have fresh : s.objects ≤ objects ∧ ∀ o, entry = .object o → s.objects ≤ o ∧
            o < objects := by
          unfold State.propose at proposed
          split at proposed <;> cases proposed
          case h_5 => exact ⟨Nat.le_succ _, fun o same => by cases same; omega⟩
          all_goals exact ⟨le_rfl, nofun⟩
        refine Has.put rfl (fun _ => .inl) (fun o here => ?_) fresh.1
        exact .inr (fresh.2 o (Option.some.inj here))
      case h_3 => cases stepped
  | holding log point entry =>
      rw [at_h] at stepped
      have carried {o : Nat} (here : some entry = some (.object o)) : s.Has o :=
        mine (by rw [at_h]; exact here)
      dsimp only at stepped
      split at stepped
      · split at stepped <;> cases stepped <;> exact keep rfl rfl rfl fun o => carried
      · cases stepped
        exact keep rfl rfl rfl fun o => carried
  | linking log point entry array =>
      rw [at_h] at stepped
      have carried {o : Nat} (here : some entry = some (.object o)) : s.Has o :=
        mine (by rw [at_h]; exact here)
      dsimp only at stepped
      split at stepped <;> cases stepped <;> exact keep rfl rfl rfl fun o => carried
  | reading log point entry =>
      rw [at_h] at stepped
      have carried {o : Nat} (here : some entry = some (.object o)) : s.Has o :=
        mine (by rw [at_h]; exact here)
      dsimp only at stepped
      split at stepped <;> cases stepped
      · exact keep rfl rfl rfl fun _ here => by cases here
      · exact keep rfl rfl rfl fun _ here => by cases here
      · exact keep rfl rfl rfl fun o => carried
  | deciding log point entry =>
      rw [at_h] at stepped
      dsimp only at stepped
      split at stepped <;> cases stepped
      · exact keep rfl rfl rfl fun _ here => by cases here
      · refine Has.put rfl (fun o there => ?_) (fun _ here => by cases here) le_rfl
        rcases logged_of_set there with old | new
        · exact .inl old
        · exact mine (by rw [at_h]; exact congrArg some new)
  | swapping log l old v rest =>
      rw [at_h] at stepped
      cases stepped
      exact keep rfl rfl rfl fun _ here => by cases here
  | marking log l old v rest =>
      rw [at_h] at stepped
      cases stepped
      refine Has.put rfl (fun o there => ?_) (fun _ here => by cases here) le_rfl
      exact .inl ((logged_of_set there).resolve_right Entry.noConfusion)

-- Every object that is committed is in the log.
theorem Agreed.logged (agreed : Agreed thunk memory s chain committed now) :
    ∀ o ∈ objectsIn committed, s.Logged o := by
  intro o member
  obtain ⟨entry, listed, inside⟩ := List.mem_flatMap.mp member
  have same : entry = .object o := by
    cases entry with
    | object q => rw [List.mem_singleton.mp inside]
    | word w => cases inside
    | done => cases inside
  subst same
  obtain ⟨p, at_p⟩ := List.mem_iff_getElem?.mp listed
  have below := (List.getElem?_eq_some_iff.mp at_p).1
  have room := agreed.spine.room
  have split := Nat.div_add_mod p logLen
  have less := Nat.mod_lt p (show 0 < logLen by decide)
  have array : p / logLen < chain.length := by
    refine Nat.div_lt_of_lt_mul (below.trans_le room)
  obtain ⟨a, at_a⟩ : ∃ a, chain[p / logLen]? = some a := ⟨_, List.getElem?_eq_getElem array⟩
  refine ⟨a, p % logLen, ?_⟩
  rw [agreed.spine.holds _ a _ at_a less, split]
  exact at_p

def allocate : Thunk := .newObj fun o => .store 0 o (.ret o)

-- Both helpers take an object; helper 1 is first in the log.
def racingAllocations : List Event :=
  [.help 0, .help 1, .step 0, .step 0, .step 0, .step 1, .step 1, .step 1, .step 1, .step 0]

theorem racing_allocations_kept :
    ∃ last, Run step Locked (start allocate fun _ => ⟨0, 1⟩) racingAllocations last ∧
    last.destructed 0 = 1 ∧ last.entries 0 0 = some (.object 1) ∧ last.destructed 1 = 0 := by
  have replayed : (replay step Locked racingAllocations (start allocate fun _ => ⟨0, 1⟩)).map
    (fun s => (s.destructed 0, s.entries 0 0)) =
      some (1, some (.object 1)) := by
    decide +kernel
  obtain ⟨last, same, facts⟩ := Option.map_eq_some_iff.mp replayed
  obtain ⟨returned, logged⟩ := Prod.mk.inj facts
  have run := run_of_replay racingAllocations same
  exact ⟨last, run, returned, logged, (objects_kept run 1).2.1 ⟨0, 0, logged⟩⟩

end SetBench.Flock
