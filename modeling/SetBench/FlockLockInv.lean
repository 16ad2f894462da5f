import Mathlib
import SetBench.FlockLock
import SetBench.FlockObjects

/-! What the threads of a lock-free lock keep: the descriptors that took the lock have run one
after the other, all but the last are done, and helpers that come late to one that is done
change nothing. -/
namespace SetBench.FlockLock

open Flock Transition

section Helpers

variable {log after : Flock.State} {h : Nat} {thunk : Thunk} {begin : Memory}
    {outside : List (Nat × Nat)}

/-- What one step of helper `h` changes. -/
structure Advanced (log after : Flock.State) (h : Nat) : Prop where
  others : ∀ k, k ≠ h → after.helpers k = log.helpers k
  running : ∀ result, log.helpers h ≠ .finished result
  finished : ∀ result, after.helpers h = .finished result → after.done = true
  unfinished : (∀ result, after.helpers h ≠ .finished result) → after.done = log.done
  done : log.done = true → after.done = true
  memory : after.memory = log.memory ∨ ∃ cursor l old v rest, log.helpers h = .swapping cursor l old
    v rest ∧ log.memory l = old ∧
    after.memory = log.memory.write l v

theorem advanced_put {phase : Phase} (moved : after.helpers = Function.update log.helpers h phase)
    (open_ : ∀ result, phase ≠ .finished result)
    (running : ∀ result, log.helpers h ≠ .finished result) (done : after.done = log.done)
    (memory : after.memory = log.memory) :
    Advanced log after h where
  others k other := by rw [moved, Function.update_of_ne other]
  running := running
  finished result at_h := by
    rw [moved, Function.update_self] at at_h
    exact absurd at_h (open_ result)
  unfinished _ := done
  done := fun yes => done.trans yes
  memory := .inl memory

theorem advance_spec (stepped : log.advance h = some after) : Advanced log after h := by
  unfold Flock.State.advance at stepped
  cases at_h : log.helpers h with
  | idle | finished result =>
      rw [at_h] at stepped
      cases stepped
  | ready cursor point =>
      rw [at_h] at stepped
      have running (result : Nat) : log.helpers h ≠ .finished result := at_h ▸ Phase.noConfusion
      dsimp only at stepped
      split at stepped
      case h_1 =>
        cases stepped
        constructor
        case others => exact fun k other => Function.update_of_ne other ..
        case running => exact running
        case finished => exact fun _ _ => rfl
        case unfinished => exact fun open_ => absurd (Function.update_self ..) (open_ _)
        case done => exact fun _ => rfl
        case memory => exact .inl rfl
      case h_2 =>
        cases stepped
        exact advanced_put rfl (fun _ => Phase.noConfusion) running rfl rfl
      case h_3 => cases stepped
  | holding cursor point entry =>
      rw [at_h] at stepped
      have running (result : Nat) : log.helpers h ≠ .finished result := at_h ▸ Phase.noConfusion
      dsimp only at stepped
      split at stepped
      · split at stepped <;> cases stepped <;> exact advanced_put rfl (fun _ => Phase.noConfusion)
          running rfl rfl
      · cases stepped
        exact advanced_put rfl (fun _ => Phase.noConfusion) running rfl rfl
  | linking cursor point entry array =>
      rw [at_h] at stepped
      have running (result : Nat) : log.helpers h ≠ .finished result := at_h ▸ Phase.noConfusion
      dsimp only at stepped
      split at stepped <;> cases stepped <;> exact advanced_put rfl (fun _ => Phase.noConfusion)
        running rfl rfl
  | reading cursor point entry =>
      rw [at_h] at stepped
      have running (result : Nat) : log.helpers h ≠ .finished result := at_h ▸ Phase.noConfusion
      dsimp only at stepped
      split at stepped <;> cases stepped <;> exact advanced_put rfl (fun _ => Phase.noConfusion)
        running rfl rfl
  | deciding cursor point entry =>
      rw [at_h] at stepped
      have running (result : Nat) : log.helpers h ≠ .finished result := at_h ▸ Phase.noConfusion
      dsimp only at stepped
      split at stepped <;> cases stepped <;> exact advanced_put rfl (fun _ => Phase.noConfusion)
        running rfl rfl
  | swapping cursor l old v rest =>
      rw [at_h] at stepped
      have running (result : Nat) : log.helpers h ≠ .finished result := at_h ▸ Phase.noConfusion
      cases stepped
      have put : Advanced log (log.put h (.marking cursor l old v rest)) h :=
        advanced_put rfl (fun _ => Phase.noConfusion) running rfl rfl
      refine ⟨put.others, running, put.finished, put.unfinished, put.done, ?_⟩
      by_cases same : log.memory l = old
      · refine .inr ⟨cursor, l, old, v, rest, at_h, same, ?_⟩
        refine (if_pos same).trans ?_
        rw [Memory.write, same]
      · exact .inl (if_neg same)
  | marking cursor l old v rest =>
      rw [at_h] at stepped
      have running (result : Nat) : log.helpers h ≠ .finished result := at_h ▸ Phase.noConfusion
      cases stepped
      exact advanced_put rfl (fun _ => Phase.noConfusion) running rfl rfl

-- The history of other writes is not read.
theorem advance_outside (log : Flock.State) (h : Nat) (outside : List (Nat × Nat)) :
    ({ log with outside := outside } : Flock.State).advance h = (log.advance h).map fun after =>
    { after with outside := outside } := by
  unfold Flock.State.advance
  cases at_h : log.helpers h with
  | idle | finished result => rfl
  | ready cursor point =>
      cases point with
      | op body => cases body <;> rfl
      | mark l old v rest => rfl
  | holding cursor point entry =>
      dsimp only
      split
      · cases log.next cursor.vals <;> rfl
      · rfl
  | linking cursor point entry array =>
      dsimp only
      cases log.next cursor.vals <;> rfl
  | reading cursor point entry =>
      dsimp only
      unfold Flock.State.current
      cases log.entries cursor.vals (cursor.count - 1) with
      | none => cases point <;> rfl
      | some found => rfl
  | deciding cursor point entry =>
      dsimp only
      unfold Flock.State.current
      cases log.entries cursor.vals (cursor.count - 1) <;> rfl
  | swapping cursor l old v rest => rfl
  | marking cursor l old v rest => rfl

variable {chain : List Nat} {committed : List Entry} {now : Config}

/-- A helper that is late, as the thunk is done, changes no word. -/
theorem late_memory (agreed : Agreed thunk begin log chain committed now) (done : log.done = true)
    (advanced : Advanced log after h) :
    after.memory = log.memory := by
  rcases advanced.memory with same | ⟨cursor, l, old, v, rest, at_h, word, _⟩
  · exact same
  · have standing := agreed.helpers h
    rw [at_h] at standing
    obtain ⟨p, _, stands⟩ := standing
    have behind : p ≠ committed.length := by
      rintro rfl
      obtain ⟨result, ended⟩ := agreed.coherent.ended done
      exact absurd ((stands.at_end agreed.path).symm.trans ended) Point.noConfusion
    have passed := stands.passed agreed.path behind
    have current := agreed.coherent.tag_le agreed.fresh l
    rw [word] at current
    omega

/-- The helpers of a descriptor agree, over a memory of which others have written `outside`. -/
def Held (log : Flock.State) (memory begin : Memory) (outside : List (Nat × Nat)) : Prop :=
  ∃ chain committed now, Agreed log.thunk begin { log with memory := memory, outside := outside }
    chain committed now

theorem recount (agreed : Agreed thunk begin log chain committed now) (objects : Nat) :
    Agreed thunk begin { log with objects := objects } chain committed now where
  same := agreed.same
  root := agreed.root
  known := agreed.known
  spine := agreed.spine
  path := agreed.path
  coherent := ⟨agreed.coherent.ended, agreed.coherent.quiet, agreed.coherent.memory⟩
  helpers k := (agreed.helpers k).frame rfl
  links := agreed.links

theorem Held.advance {memory : Memory} {objects : Nat} (held : Held log memory begin outside)
    (stepped : ({ log with memory := memory, objects := objects } : Flock.State).advance h =
      some after) :
    after.thunk = log.thunk ∧ Held after after.memory begin outside := by
  obtain ⟨chain, committed, now, agreed⟩ := held
  have lifted := advance_outside { log with memory := memory, objects := objects } h outside
  rw [stepped] at lifted
  obtain ⟨chain', committed', now', agreed'⟩ := (recount agreed objects).advance lifted
  have same : after.thunk = log.thunk := agreed'.same
  have kept : Agreed log.thunk begin { after with outside := outside } chain' committed' now' :=
    agreed'
  rw [← same] at kept
  exact ⟨same, chain', committed', now', kept⟩

theorem Held.enter {memory : Memory} (held : Held log memory begin outside) (h : Nat) :
    Held (log.put h (.ready ⟨0, 0⟩ (.op log.thunk))) memory begin outside := by
  obtain ⟨chain, committed, now, agreed⟩ := held
  refine ⟨chain, committed, now, ?_⟩
  have standing : Standing { log with memory := memory, outside := outside } chain
    ⟨.op log.thunk, begin⟩ committed now
      (.ready ⟨0, 0⟩ (.op log.thunk)) :=
    ⟨0, ⟨0, agreed.root, Nat.zero_le _, rfl⟩, Nat.zero_le _, begin, .refl _⟩
  exact agreed.put (h := h) _ standing (fun _ _ _ _ => Phase.noConfusion) log.objects log.destructed

theorem Held.write {memory : Memory} (held : Held log memory begin outside)
    (done : log.done = true) (l v : Nat) :
    Held log (memory.write l v) begin (outside ++ [(l, v)]) := by
  obtain ⟨chain, committed, now, agreed⟩ := held
  exact ⟨chain, committed, now, agreed.outside done l v⟩

-- Two helpers at the end have one result.
theorem Held.same_result {memory : Memory} (held : Held log memory begin outside) {k r q : Nat}
    (one : log.helpers h = .finished r) (two : log.helpers k = .finished q) : r = q := by
  obtain ⟨chain, committed, now, agreed⟩ := held
  have first := agreed.helpers h
  have second := agreed.helpers k
  dsimp only at first second
  rw [one] at first
  rw [two] at second
  exact Thunk.ret.inj (Point.op.inj (first.symm.trans second))

-- A thunk whose helper is at its end, while nobody else has written: it ran from `begin` to here.
theorem Held.ran {memory : Memory} (held : Held log memory begin []) {result : Nat}
    (at_h : log.helpers h = .finished result) :
    ∃ objects, log.thunk.run begin objects = some (result, memory) ∧
      ∀ o ∈ objects, log.Logged o := by
  obtain ⟨chain, committed, now, agreed⟩ := held
  have here := agreed.helpers h
  dsimp only at here
  rw [at_h] at here
  have point : now.point = .op (.ret result) := here
  have settled : memory = now.memory := agreed.coherent.settled point
  have whole : now = ⟨.op (.ret result), memory⟩ := by
    cases now
    cases point
    rw [settled]
  exact ⟨objectsIn committed, Follows.ran (whole ▸ agreed.path), agreed.logged⟩

/-- The memory of a thunk on its way: of a run of it alone that is cut short, the write at a mark
being there already or not. -/
def PartWay (thunk : Thunk) (begin memory : Memory) : Prop :=
  ∃ committed now, Follows ⟨.op thunk, begin⟩ committed now ∧
    (memory = now.memory ∨ ∃ l old v rest, now.point = .mark l old v rest ∧
      memory = Function.update now.memory l (old.next v))

theorem Held.partWay {memory : Memory} (held : Held log memory begin []) :
    PartWay log.thunk begin memory := by
  obtain ⟨chain, committed, now, agreed⟩ := held
  exact ⟨committed, now, agreed.path, agreed.coherent.memory⟩

end Helpers

variable {init : Memory} {s s' : State} {t d : Nat}

theorem Serial.congr {thunk thunk' : Nat → Thunk} {sections : List (Nat × Nat)}
    {used : List Nat} {memory last : Memory} (serial : Serial thunk memory sections used last)
    (same : ∀ d r, (d, r) ∈ sections → thunk' d = thunk d) :
    Serial thunk' memory sections used last := by
  induction serial with
  | nil => exact .nil
  | @snoc sections used objects before after d result earlier ran fresh ih =>
      have ran' : (thunk' d).run before objects = some (result, after) := by
        rw [same d result (List.mem_append_right _ (List.mem_singleton_self _))]
        exact ran
      exact .snoc (ih fun d r member => same d r (List.mem_append_left _ member)) ran' fresh

/-- Every object that a thunk has was handed out to its descriptor, those of the sections to
theirs. -/
structure Owned (descriptor : Nat → Flock.State) (objects : Nat) (sections : List (Nat × Nat))
    (owner : Nat → Nat) (used : List Nat) : Prop where
  has : ∀ d o, (descriptor d).Has o → o < objects ∧ owner o = d
  used : ∀ o ∈ used, o < objects ∧ owner o ∈ sections.map Prod.fst

section Owned

variable {descriptor : Nat → Flock.State} {objects more : Nat} {sections : List (Nat × Nat)}
    {owner : Nat → Nat} {used : List Nat} {log : Flock.State}

-- The thunk of `d` takes what the pool hands out.
theorem Owned.change (owned : Owned descriptor objects sections owner used)
    (le : objects ≤ more)
    (has : ∀ o, log.Has o → (descriptor d).Has o ∨ objects ≤ o ∧ o < more) :
    Owned (Function.update descriptor d log) more sections
      (fun o => if objects ≤ o then d else owner o) used := by
  constructor
  case has =>
    intro q o here
    by_cases own : q = d
    · subst own
      rw [Function.update_self] at here
      rcases has o here with old | ⟨low, high⟩
      · obtain ⟨below, mine⟩ := owned.has q o old
        exact ⟨by omega, by rw [if_neg (by omega)]; exact mine⟩
      · exact ⟨high, if_pos low⟩
    · rw [Function.update_of_ne own] at here
      obtain ⟨below, theirs⟩ := owned.has q o here
      exact ⟨by omega, by rw [if_neg (by omega)]; exact theirs⟩
  case used =>
    intro o member
    obtain ⟨below, theirs⟩ := owned.used o member
    exact ⟨by omega, by rw [if_neg (by omega)]; exact theirs⟩

-- What a thunk has taken at its end is new to the sections before it.
theorem Owned.finish (owned : Owned descriptor objects sections owner used)
    (unlisted : d ∉ sections.map Prod.fst) {taken : List Nat}
    (logged : ∀ o ∈ taken, (descriptor d).Logged o) (result : Nat) :
    (∀ o ∈ taken, o ∉ used) ∧
      Owned descriptor objects (sections ++ [(d, result)]) owner (used ++ taken) := by
  refine ⟨fun o member old => ?_, owned.has, fun o member => ?_⟩
  · have mine := (owned.has d o (.inl (logged o member))).2
    have theirs := (owned.used o old).2
    rw [mine] at theirs
    exact unlisted theirs
  · rw [List.map_append, List.mem_append]
    rcases List.mem_append.mp member with old | new
    · exact ⟨(owned.used o old).1, .inl (owned.used o old).2⟩
    · obtain ⟨below, mine⟩ := owned.has d o (.inl (logged o new))
      exact ⟨below, .inr (List.mem_singleton.mpr mine)⟩

end Owned

/-- A descriptor that is done. -/
structure Ended (log : Flock.State) (memory : Memory) (runs result : Nat) : Prop where
  done : log.done = true
  helper : ∃ h < runs, log.helpers h = .finished result
  held : ∃ begin outside, Held log memory begin outside

/-- Where the memory stands: behind all sections, or in the one of the descriptor in the lock. -/
def Now (s : State) (final : Memory) : Prop :=
  (s.taken = s.sections.map Prod.fst ∧ s.memory = final) ∨
    ∃ d, s.taken = s.sections.map Prod.fst ++ [d] ∧ s.lck = .held d ∧ (s.descriptor d).done =
      false ∧ Held (s.descriptor d) s.memory final []

-- The descriptor that a thread has allocated for its call.
def Pc.mine : Pc → Option Nat
  | .idle | .loading _ | .inside _ => none
  | .checking mine _ | .installing mine _ | .rereading mine | .asking mine _ | .helping mine
    _ | .acquired mine _ | .running mine _ _
  | .clearing mine _ _ | .freeing mine _ _ => some mine

def PcOk (s : State) : Pc → Prop
  | .idle | .loading _ | .rereading _ => True
  | .inside _ => False
  | .checking mine _ | .installing mine _ => mine ∉ s.taken
  | .asking mine current =>
      (mine ∈ s.taken → current = .held mine ∨ (s.descriptor mine).done = true) ∧
      (current = .held mine → mine ∈ s.taken)
  | .helping mine d | .acquired mine d => mine ∉ s.taken ∧ d ∈ s.taken
  | .running mine d h => d ∈ s.taken ∧ (mine ≠ d → mine ∉ s.taken) ∧ h < s.runs
  | .clearing mine d result | .freeing mine d result =>
      (d, result) ∈ s.sections ∧ (mine ≠ d → mine ∉ s.taken)

structure Inv (init : Memory) (s : State) : Prop where
  serial : ∃ final used owner, Serial (fun d => (s.descriptor d).thunk) init s.sections used final ∧
    Now s final ∧ Owned s.descriptor s.objects s.sections owner used
  ended : ∀ d r, (d, r) ∈ s.sections → Ended (s.descriptor d) s.memory s.runs r
  unstarted : ∀ d, d ∉ s.taken → ∃ f memory, s.descriptor d = Flock.start f memory
  known : ∀ d ∈ s.taken, d < s.descriptors
  once : s.taken.Nodup
  held : ∀ d, s.lck = .held d → d ∈ s.taken ∧ (s.pc (s.owner d)).mine = some d
  owns : ∀ t d, (s.pc t).mine = some d → s.owner d = t ∧ d < s.descriptors
  place : ∀ t, PcOk s (s.pc t)
  returned : ∀ d a, (d, a) ∈ s.returned →
    d < s.descriptors ∧ (∀ t, (s.pc t).mine ≠ some d) ∧ (a = none → d ∉ s.taken) ∧ ∀ r, a = some r →
      (d, r) ∈ s.sections

structure Later (s s' : State) : Prop where
  taken : ∀ d ∈ s.taken, d ∈ s'.taken
  sections : ∀ x ∈ s.sections, x ∈ s'.sections
  runs : s.runs ≤ s'.runs
  done : ∀ d ∈ s.taken, (s.descriptor d).done = true → (s'.descriptor d).done = true

theorem PcOk.later (later : Later s s') {pc : Pc}
    (own : ∀ d, pc.mine = some d → d ∈ s'.taken → d ∈ s.taken) (ok : PcOk s pc) : PcOk s' pc := by
  cases pc with
  | idle | loading f | rereading mine => trivial
  | inside f => exact ok
  | checking mine counter | installing mine counter => exact fun member => ok (own mine rfl member)
  | asking mine current =>
      refine ⟨fun member => ?_, fun same => later.taken _ (ok.2 same)⟩
      have before := own mine rfl member
      exact (ok.1 before).imp_right (later.done mine before)
  | helping mine d | acquired mine d =>
      exact ⟨fun member => ok.1 (own mine rfl member), later.taken _ ok.2⟩
  | running mine d h =>
      exact ⟨later.taken _ ok.1, fun other member => ok.2.1 other (own mine rfl member),
        Nat.lt_of_lt_of_le ok.2.2 later.runs⟩
  | clearing mine d result | freeing mine d result =>
      exact ⟨later.sections _ ok.1, fun other member => ok.2 other (own mine rfl member)⟩

theorem Inv.section_of (inv : Inv init s) (member : d ∈ s.taken)
    (done : (s.descriptor d).done = true) : ∃ r, (d, r) ∈ s.sections := by
  obtain ⟨final, _, _, _, at_end, _⟩ := inv.serial
  have listed : d ∈ s.sections.map Prod.fst := by
    rcases at_end with ⟨all, _⟩ | ⟨last, all, _, open_, _⟩
    · exact all ▸ member
    · rcases List.mem_append.mp (all ▸ member) with earlier | here
      · exact earlier
      · rw [List.mem_singleton.mp here, open_] at done
        cases done
  obtain ⟨⟨_, r⟩, inside, rfl⟩ := List.mem_map.mp listed
  exact ⟨r, inside⟩

theorem Inv.done_taken (inv : Inv init s) (done : (s.descriptor d).done = true) : d ∈ s.taken := by
  by_contra absent
  obtain ⟨f, memory, same⟩ := inv.unstarted d absent
  rw [same] at done
  cases done

theorem Inv.initial (memory : Memory) : Inv memory (start memory) where
  serial := ⟨memory, [], fun _ => 0, .nil, .inl ⟨rfl, rfl⟩,
    fun _ o has => absurd has (has_start _ _ o), fun _ member => absurd member List.not_mem_nil⟩
  ended _ _ member := absurd member List.not_mem_nil
  unstarted _ _ := ⟨_, _, rfl⟩
  known _ member := absurd member List.not_mem_nil
  once := List.nodup_nil
  held _ same := LockEntry.noConfusion same
  owns _ _ none_ := absurd none_.symm (Option.some_ne_none _)
  place _ := trivial
  returned _ _ member := absurd member List.not_mem_nil

end SetBench.FlockLock
