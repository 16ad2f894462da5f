import Mathlib
import SetBench.FlockAgree

/-! What each atomic step of a helper keeps, and the whole runs of a thunk's helpers. -/
namespace SetBench.Flock

open Transition LinkedLog

variable {thunk : Thunk} {memory : Memory} {s s' : State} {chain : List Nat}
    {committed : List Entry} {now : Config} {h : Nat}

theorem Agreed.fresh (agreed : Agreed thunk memory s chain committed now) : now.Fresh :=
  agreed.path.fresh trivial

-- A helper moves on and no shared word changes.
theorem Agreed.put (agreed : Agreed thunk memory s chain committed now) (phase : Phase)
    (standing : Standing s chain ⟨.op thunk, memory⟩ committed now phase)
    (unlinked : ∀ log point entry array, phase ≠ .linking log point entry array) (objects : Nat)
    (destructed : Nat → Nat) :
    Agreed thunk memory { s with
      objects := objects
      destructed := destructed
      helpers := Function.update s.helpers h phase }
      chain committed now where
  same := agreed.same
  root := agreed.root
  known := agreed.known
  spine := agreed.spine
  path := agreed.path
  coherent := ⟨agreed.coherent.ended, agreed.coherent.quiet, agreed.coherent.memory⟩
  helpers := by
    intro k
    dsimp only
    by_cases own : k = h
    · rw [own, Function.update_self]
      exact standing.frame rfl
    · rw [Function.update_of_ne own]
      exact (agreed.helpers k).frame rfl
  links := agreed.links.put h unlinked

theorem Agreed.proposes (agreed : Agreed thunk memory s chain committed now) {p : Nat}
    {point : Point} {entry : Entry} {objects : Nat}
    (stands : Stands ⟨.op thunk, memory⟩ committed p point)
    (proposed : s.propose point = some (entry, objects)) :
    Offers committed now p entry := by
  intro last
  subst last
  have here := stands.at_end agreed.path
  have current (running : ∀ result, point ≠ .op (.ret result)) {t : Thunk} (op : point = .op t) :
    s.memory = now.memory := by
    rw [agreed.coherent.settled (here.trans op), agreed.coherent.unwritten (here ▸ running)]
    rfl
  unfold Config.Fits
  rw [here]
  unfold State.propose at proposed
  split at proposed
  case h_1 => cases proposed
  case h_2 l rest =>
      cases proposed
      rw [current (fun _ => nofun) rfl]
  case h_3 l v rest =>
      cases proposed
      rw [current (fun _ => nofun) rfl]
  case h_4 l old new rest =>
      cases proposed
      rw [current (fun _ => nofun) rfl]
  case h_5 rest =>
      cases proposed
      exact ⟨_, rfl⟩
  case h_6 l old v rest =>
      cases proposed
      rfl

theorem Agreed.finish (agreed : Agreed thunk memory s chain committed now) {p result : Nat}
    (stands : Stands ⟨.op thunk, memory⟩ committed p (.op (.ret result))) :
    now.point = .op (.ret result) := by
  obtain ⟨m, _, ahead⟩ := stands.ahead agreed.path
  rw [(Follows.ended rfl ahead).2]

theorem Agreed.done (agreed : Agreed thunk memory s chain committed now) {result : Nat}
    (here : now.point = .op (.ret result)) :
    Agreed thunk memory
      { s with done := true, helpers := Function.update s.helpers h (.finished result) } chain
      committed now := by
  have moved := agreed.put (h := h) (.finished result) here (fun _ _ _ _ => nofun) s.objects
    s.destructed
  exact { moved with
    coherent := ⟨fun _ => ⟨result, here⟩,
      fun running => absurd running.symm Bool.false_ne_true, agreed.coherent.memory⟩ }

-- next_entry takes a new array.
theorem Agreed.allocate (agreed : Agreed thunk memory s chain committed now) {log : Log}
    {point : Point} {entry : Entry}
    (standing : Standing s chain ⟨.op thunk, memory⟩ committed now (.holding log point entry))
    (full : log.count = logLen) :
    Agreed thunk memory { s with
      arrays := s.arrays + 1
      helpers := Function.update s.helpers h (.linking log point entry s.arrays) }
      chain committed now where
  same := agreed.same
  root := agreed.root
  known := fun a member => Nat.lt_succ_of_lt (agreed.known a member)
  spine := agreed.spine
  path := agreed.path
  coherent := ⟨agreed.coherent.ended, agreed.coherent.quiet, agreed.coherent.memory⟩
  helpers := by
    intro k
    dsimp only
    by_cases own : k = h
    · rw [own, Function.update_self]
      exact ⟨standing, full, fun member => Nat.lt_irrefl _ (agreed.known _ member)⟩
    · rw [Function.update_of_ne own]
      exact (agreed.helpers k).frame rfl
  links := agreed.links.take h log point entry

-- The new array is linked: first the chain grows, then the helper moves on.
theorem Agreed.link (agreed : Agreed thunk memory s chain committed now) {log : Log}
    {point : Point} {entry : Entry} {array : Nat}
    (at_h : s.helpers h = .linking log point entry array) (unlinked : s.next log.vals = none) :
    Agreed thunk memory { s with
      next := Function.update s.next log.vals (some array)
      helpers := Function.update s.helpers h (.reading ⟨array, 1⟩ point entry) }
      (chain ++ [array]) committed now := by
  have standing := agreed.helpers h
  rw [at_h] at standing
  obtain ⟨⟨p, place, stands, offers⟩, full, absent⟩ := standing
  rw [full] at place
  obtain ⟨spine, place'⟩ := agreed.spine.link place unlinked absent (by decide)
  have inside : array < s.arrays := agreed.links.taken _ _ _ _ _ at_h
  constructor
  case same => exact agreed.same
  case root =>
    exact (List.getElem?_append_left (List.getElem?_eq_some_iff.mp agreed.root).1).trans agreed.root
  case known =>
    intro a member
    rcases List.mem_append.mp member with old | new
    · exact agreed.known a old
    · rwa [List.mem_singleton.mp new]
  case spine => exact spine
  case path => exact agreed.path
  case coherent => exact ⟨agreed.coherent.ended, agreed.coherent.quiet, agreed.coherent.memory⟩
  case helpers =>
    intro k
    dsimp only
    by_cases own : k = h
    · rw [own, Function.update_self]
      exact ⟨p, ⟨place', Nat.one_pos⟩, stands, offers⟩
    · rw [Function.update_of_ne own]
      refine Standing.frame (s := s) ?_ rfl
      apply (agreed.helpers k).grow
      rintro log' point' entry' array' at_k rfl
      exact own (agreed.links.apart _ _ _ _ _ _ _ _ _ at_k at_h)
  case links => exact agreed.links.put h fun _ _ _ _ => nofun

/-- The first value committed at the end of the log is the one all take. -/
theorem Agreed.commit (agreed : Agreed thunk memory s chain committed now) {log : Log}
    {entry : Entry} (moved : Moved chain log committed.length) (fits : now.Fits entry)
    (kept : s.memory = written (now.after entry).memory s.outside) :
    Agreed thunk memory (s.setCurrent log entry) chain (committed ++ [entry]) (now.after entry)
      where
  same := agreed.same
  root := agreed.root
  known := agreed.known
  spine := agreed.spine.write moved.1 moved.2 entry
  path := agreed.path.snoc fits
  coherent := by
    refine ⟨fun done => ?_, agreed.coherent.quiet, .inl kept⟩
    obtain ⟨result, here⟩ := agreed.coherent.ended done
    unfold Config.Fits at fits
    rw [here] at fits
    exact fits.elim
  helpers := fun k => ((agreed.helpers k).commit fits).frame rfl
  links := agreed.links

-- The compare-and-swap of a write, at the end of the log or by a helper that comes late.
theorem Agreed.swap (agreed : Agreed thunk memory s chain committed now) {p l v : Nat}
    {old : Word} {rest : Thunk}
    (stands : Stands ⟨.op thunk, memory⟩ committed p (.mark l old v rest)) :
    Agreed thunk memory { s with
      memory := if s.memory l = old then Function.update s.memory l (old.next v) else s.memory }
        chain committed now ∧
      (p = committed.length →
        (if s.memory l = old then Function.update s.memory l (old.next v) else s.memory) =
        Function.update now.memory l (old.next v)) := by
  by_cases last : p = committed.length
  · subst last
    have here := stands.at_end agreed.path
    have fresh := agreed.fresh
    unfold Config.Fresh at fresh
    rw [here] at fresh
    have outside := agreed.coherent.unwritten (fun result => here ▸ nofun)
    have result : (if s.memory l = old then Function.update s.memory l (old.next v) else s.memory) =
        Function.update now.memory l (old.next v) := by
      rcases agreed.coherent.memory with same | ⟨l', old', v', rest', point, same⟩
      · rw [outside] at same
        rw [same]
        exact if_pos fresh
      · cases here.symm.trans point
        rw [same, Function.update_self, if_neg fun clash => absurd (congrArg Word.tag clash)
          (Nat.succ_ne_self _)]
    rw [result]
    refine ⟨⟨agreed.same, agreed.root, agreed.known, agreed.spine, agreed.path, ?_, ?_,
      agreed.links⟩, fun _ => rfl⟩
    · exact ⟨agreed.coherent.ended, agreed.coherent.quiet, .inr ⟨l, old, v, rest, here, rfl⟩⟩
    · intro k
      have standing := agreed.helpers k
      cases at_k : s.helpers k with
      | marking log l' old' v' rest' =>
          rw [at_k] at standing
          obtain ⟨q, moved, stands', _⟩ := standing
          refine ⟨q, moved, stands', ?_⟩
          rintro rfl
          cases here.symm.trans (stands'.at_end agreed.path)
          rfl
      | _ =>
          rw [at_k] at standing
          exact standing
  · have passed := stands.passed agreed.path last
    have current := agreed.coherent.tag_le agreed.fresh l
    have late : s.memory l ≠ old := by
      intro clash
      rw [clash] at current
      omega
    rw [if_neg late]
    exact ⟨agreed, fun end_ => absurd end_ last⟩

theorem Agreed.outside (agreed : Agreed thunk memory s chain committed now) (done : s.done = true)
    (l v : Nat) :
    Agreed thunk memory { s with memory := s.memory.write l v, outside := s.outside ++ [(l, v)] }
      chain committed now := by
  obtain ⟨result, here⟩ := agreed.coherent.ended done
  refine ⟨agreed.same, agreed.root, agreed.known, agreed.spine, agreed.path, ?_, ?_, agreed.links⟩
  · refine ⟨agreed.coherent.ended, fun running => absurd (running.symm.trans done)
      Bool.false_ne_true, .inl ?_⟩
    rw [agreed.coherent.settled here]
    simp only [written, List.foldl_append, List.foldl_cons, List.foldl_nil]
  · intro k
    have standing := agreed.helpers k
    cases at_k : s.helpers k with
    | marking log l' old' v' rest' =>
        rw [at_k] at standing
        obtain ⟨q, moved, stands', _⟩ := standing
        refine ⟨q, moved, stands', ?_⟩
        rintro rfl
        exact absurd (here.symm.trans (stands'.at_end agreed.path)) (by nofun)
    | _ =>
        rw [at_k] at standing
        exact standing

-- The helper takes what it found in the log and goes on.
theorem Agreed.adopt (agreed : Agreed thunk memory s chain committed now) {p : Nat} {log : Log}
    {point : Point} {found : Entry} (moved : Moved chain log p)
    (stands : Stands ⟨.op thunk, memory⟩ committed p point) (present : committed[p]? = some found)
    (mine : Entry) : Agreed thunk memory (s.adopt h log point mine found) chain committed now :=
  agreed.put (.ready log (point.after found)) ⟨p + 1, moved.1, stands.after agreed.path present⟩
    (fun _ _ _ _ => nofun) s.objects (mine.lose s.destructed)

theorem Agreed.reads (agreed : Agreed thunk memory s chain committed now) {p : Nat} {log : Log}
    (moved : Moved chain log p) :
    s.current log = committed[p]? := agreed.spine.read moved.1 moved.2

theorem Agreed.mark (agreed : Agreed thunk memory s chain committed now) {log : Log} {l v : Nat}
    {old : Word} {rest : Thunk} (at_h : s.helpers h = .marking log l old v rest) :
    ∃ committed' now', Agreed thunk memory ((s.setCurrent log .done).put h (.ready log (.op rest)))
      chain committed' now' := by
  have standing := agreed.helpers h
  rw [at_h] at standing
  obtain ⟨p, moved, stands, swapped⟩ := standing
  by_cases last : p = committed.length
  · subst last
    have here := stands.at_end agreed.path
    have fits : now.Fits .done := by
      unfold Config.Fits
      rw [here]
    have marked : (now.after .done).memory = Function.update now.memory l (old.next v) := by
      unfold Config.after
      rw [here]
    have kept : s.memory = written (now.after .done).memory s.outside := by
      rw [agreed.coherent.unwritten (fun _ => here ▸ nofun), marked, swapped rfl]
      rfl
    have longer := agreed.commit moved fits kept
    refine ⟨_, _, longer.put (.ready log (.op rest)) ?_ (fun _ _ _ _ => nofun) s.objects
      s.destructed⟩
    refine ⟨committed.length + 1, moved.1, ?_⟩
    exact (stands.snoc .done).after longer.path List.getElem?_concat_length
  · have inside : p < committed.length := Nat.lt_of_le_of_ne stands.1 last
    obtain ⟨m, _, ahead⟩ := stands.ahead agreed.path
    rw [List.drop_eq_getElem_cons inside] at ahead
    have there : committed[p]? = some .done := by
      cases ahead with
      | next fits _ => exact (List.getElem?_eq_getElem inside).trans (congrArg some fits)
    refine ⟨committed, now, ?_⟩
    have same : s.setCurrent log .done = s := by
      unfold State.setCurrent
      rw [agreed.spine.rewrite moved.1 moved.2 there]
    rw [same]
    exact agreed.put (.ready log (.op rest)) ⟨p + 1, moved.1, stands.after agreed.path there⟩
      (fun _ _ _ _ => nofun) s.objects s.destructed

theorem Agreed.decide (agreed : Agreed thunk memory s chain committed now) {log : Log}
    {point : Point} {entry : Entry} (at_h : s.helpers h = .deciding log point entry)
    (absent : s.current log = none) :
    ∃ committed' now', Agreed thunk memory
      ((s.setCurrent log entry).put h (.ready log (point.after entry))) chain committed' now' := by
  have standing := agreed.helpers h
  rw [at_h] at standing
  obtain ⟨p, body, op, moved, stands, offers⟩ := standing
  rw [agreed.reads moved, List.getElem?_eq_none_iff] at absent
  have last : p = committed.length := Nat.le_antisymm stands.1 absent
  subst last
  have here := stands.at_end agreed.path
  have kept : s.memory = written (now.after entry).memory s.outside := by
    have same : (now.after entry).memory = now.memory := by
      unfold Config.after
      rw [here, op]
    rw [same]
    exact agreed.coherent.settled (here.trans op)
  have longer := agreed.commit moved (offers rfl) kept
  refine ⟨_, _, longer.put (.ready log (point.after entry)) ?_ (fun _ _ _ _ => nofun) s.objects
    s.destructed⟩
  refine ⟨committed.length + 1, moved.1, ?_⟩
  exact (stands.snoc entry).after longer.path List.getElem?_concat_length

theorem Agreed.advance (agreed : Agreed thunk memory s chain committed now)
    (stepped : s.advance h = some s') :
    ∃ chain' committed' now', Agreed thunk memory s' chain' committed' now' := by
  have standing := agreed.helpers h
  unfold State.advance at stepped
  cases at_h : s.helpers h with
  | idle | finished result =>
      rw [at_h] at stepped
      cases stepped
  | ready log point =>
      rw [at_h] at stepped standing
      dsimp only at stepped
      obtain ⟨p, place, stands⟩ := standing
      split at stepped
      case h_1 result _ =>
        cases stepped
        exact ⟨chain, committed, now, agreed.done (agreed.finish stands)⟩
      case h_2 entry objects _ proposed =>
        cases stepped
        have offers := agreed.proposes stands proposed
        exact ⟨chain, committed, now, agreed.put (.holding log _ entry) ⟨p, place, stands, offers⟩
          (fun _ _ _ _ => nofun) objects s.destructed⟩
      case h_3 => cases stepped
  | holding log point entry =>
      rw [at_h] at stepped standing
      dsimp only at stepped
      have hold := standing
      obtain ⟨p, place, stands, offers⟩ := standing
      by_cases full : log.count = logLen
      · rw [if_pos full] at stepped
        cases link : s.next log.vals with
        | some array =>
            rw [link] at stepped
            cases stepped
            rw [full] at place
            have moved : Moved chain ⟨array, 1⟩ p :=
              ⟨place.follow agreed.spine link (by decide), Nat.one_pos⟩
            exact ⟨chain, committed, now, agreed.put (.reading _ point entry)
              ⟨p, moved, stands, offers⟩ (fun _ _ _ _ => nofun) s.objects s.destructed⟩
        | none =>
            rw [link] at stepped
            cases stepped
            exact ⟨chain, committed, now, agreed.allocate hold full⟩
      · rw [if_neg full] at stepped
        cases stepped
        have moved : Moved chain ⟨log.vals, log.count + 1⟩ p := ⟨place.forward full, Nat.succ_pos _⟩
        exact ⟨chain, committed, now, agreed.put (.reading _ point entry) ⟨p, moved, stands, offers⟩
          (fun _ _ _ _ => nofun) s.objects s.destructed⟩
  | linking log point entry array =>
      rw [at_h] at stepped standing
      dsimp only at stepped
      obtain ⟨⟨p, place, stands, offers⟩, full, _⟩ := standing
      cases link : s.next log.vals with
      | some other =>
          rw [link] at stepped
          cases stepped
          rw [full] at place
          have moved : Moved chain ⟨other, 1⟩ p :=
            ⟨place.follow agreed.spine link (by decide), Nat.one_pos⟩
          exact ⟨chain, committed, now, agreed.put (.reading _ point entry)
            ⟨p, moved, stands, offers⟩ (fun _ _ _ _ => nofun) s.objects s.destructed⟩
      | none =>
          rw [link] at stepped
          cases stepped
          exact ⟨_, committed, now, agreed.link at_h link⟩
  | reading log point entry =>
      rw [at_h] at stepped standing
      dsimp only at stepped
      obtain ⟨p, moved, stands, offers⟩ := standing
      rw [agreed.reads moved] at stepped
      split at stepped
      case h_1 found present =>
        cases stepped
        exact ⟨chain, committed, now, agreed.adopt moved stands present entry⟩
      case h_2 l old v rest absent =>
        cases stepped
        exact ⟨chain, committed, now, agreed.put (.swapping log l old v rest) ⟨p, moved, stands⟩
          (fun _ _ _ _ => nofun) s.objects s.destructed⟩
      case h_3 body absent =>
        cases stepped
        refine ⟨chain, committed, now, agreed.put (.deciding log (.op body) entry) ?_
          (fun _ _ _ _ => nofun) s.objects s.destructed⟩
        exact ⟨p, body, rfl, moved, stands, offers⟩
  | deciding log point entry =>
      rw [at_h] at stepped standing
      dsimp only at stepped
      obtain ⟨p, body, op, moved, stands, offers⟩ := standing
      cases present : s.current log with
      | some found =>
          rw [present] at stepped
          cases stepped
          exact ⟨chain, committed, now,
            agreed.adopt moved stands ((agreed.reads moved).symm.trans present) entry⟩
      | none =>
          rw [present] at stepped
          cases stepped
          obtain ⟨committed', now', kept⟩ := agreed.decide at_h present
          exact ⟨chain, committed', now', kept⟩
  | swapping log l old v rest =>
      rw [at_h] at stepped standing
      cases stepped
      obtain ⟨p, moved, stands⟩ := standing
      obtain ⟨swapped, result⟩ := agreed.swap stands
      exact ⟨chain, committed, now, swapped.put (.marking log l old v rest)
        ⟨p, moved, stands, result⟩ (fun _ _ _ _ => nofun) s.objects s.destructed⟩
  | marking log l old v rest =>
      rw [at_h] at stepped
      cases stepped
      obtain ⟨committed', now', kept⟩ := agreed.mark at_h
      exact ⟨chain, committed', now', kept⟩

theorem Agreed.step (agreed : Agreed thunk memory s chain committed now) {event : Event}
    (locked : Locked s event) (stepped : step s event = some s') :
    ∃ chain' committed' now', Agreed thunk memory s' chain' committed' now' := by
  cases event with
  | help h =>
      simp only [Flock.step] at stepped
      cases at_h : s.helpers h with
      | idle =>
          rw [at_h] at stepped
          cases stepped
          refine ⟨chain, committed, now, agreed.put (.ready ⟨0, 0⟩ (.op s.thunk)) ?_
            (fun _ _ _ _ => nofun) s.objects s.destructed⟩
          rw [agreed.same]
          exact ⟨0, ⟨0, agreed.root, Nat.zero_le _, rfl⟩, Nat.zero_le _, memory, .refl _⟩
      | _ =>
          rw [at_h] at stepped
          cases stepped
  | step h => exact agreed.advance stepped
  | write l v =>
      cases stepped
      exact ⟨chain, committed, now, agreed.outside locked l v⟩

theorem agreed_initial (thunk : Thunk) (memory : Memory) :
    Agreed thunk memory (start thunk memory) [0] [] ⟨.op thunk, memory⟩ where
  same := rfl
  root := rfl
  known := fun a member => by
    rw [List.mem_singleton.mp member]
    exact Nat.one_pos
  spine := spine_initial
  path := .refl _
  coherent := ⟨nofun, fun _ => rfl, .inl rfl⟩
  helpers := fun _ => trivial
  links := ⟨nofun, nofun⟩

theorem agreed_run {events : List Event} {last : State}
    (run : Run step Locked (start thunk memory) events last) :
    ∃ chain committed now, Agreed thunk memory last chain committed now :=
  run_invariant (fun s => ∃ chain committed now, Agreed thunk memory s chain committed now)
    ⟨_, _, _, agreed_initial thunk memory⟩
    (fun _ _ _ ⟨_, _, _, agreed⟩ locked stepped => agreed.step locked stepped) run

/-- However many helpers run a thunk, and however their steps mix with each other and with the
later holders of the lock: every helper that finishes has the result of one run of the thunk alone,
and the memory is what that run left with the later writes on it. -/
theorem helpers_agree {events : List Event} {last : State}
    (run : Run step Locked (start thunk memory) events last) (done : last.done = true) :
    ∃ objects result after, thunk.run memory objects = some (result, after) ∧
      last.memory = written after last.outside ∧
      ∀ h other, last.helpers h = .finished other → other = result := by
  obtain ⟨chain, committed, now, agreed⟩ := agreed_run run
  obtain ⟨result, here⟩ := agreed.coherent.ended done
  have whole : now = ⟨.op (.ret result), now.memory⟩ := by
    cases now
    cases here
    rfl
  refine ⟨objectsIn committed, result, now.memory, ?_, agreed.coherent.settled here, ?_⟩
  · exact Follows.ran (whole ▸ agreed.path)
  · intro h other at_h
    have standing := agreed.helpers h
    rw [at_h] at standing
    exact Thunk.ret.inj (Point.op.inj (standing.symm.trans here))

def increment : Thunk := .load 0 fun x => .store 0 (x + 1) (.ret x)

-- Helper 0 stops before its compare-and-swap; helper 1 ends the thunk; another holder writes;
-- helper 0 goes on.
def lateHelper : List Event :=
  .help 0 :: .help 1 :: List.replicate 11 (.step 0) ++ List.replicate 12 (.step 1) ++ .write 0
    9 :: List.replicate 3 (.step 0)

theorem late_helper_agrees :
    ∃ last, Run step Locked (start increment fun _ => ⟨5, 1⟩) lateHelper last ∧ last.memory 0 =
      ⟨9, 3⟩ ∧
    last.outside = [(0, 9)] ∧ ∃ objects result after, increment.run (fun _ => ⟨5, 1⟩) objects =
      some (result, after) ∧
      last.memory = written after last.outside ∧ ∀ h other, last.helpers h = .finished other →
        other = result := by
  have replayed : (replay step Locked lateHelper (start increment fun _ => ⟨5, 1⟩)).map
    (fun s => (s.done, s.memory 0, s.outside)) =
      some (true, ⟨9, 3⟩, [(0, 9)]) := by
    decide +kernel
  obtain ⟨last, same, facts⟩ := Option.map_eq_some_iff.mp replayed
  obtain ⟨done, rest⟩ := Prod.mk.inj facts
  obtain ⟨word, outside⟩ := Prod.mk.inj rest
  have run := run_of_replay lateHelper same
  exact ⟨last, run, word, outside, helpers_agree run done⟩

end SetBench.Flock
