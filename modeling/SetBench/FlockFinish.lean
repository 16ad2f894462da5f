import Mathlib
import SetBench.FlockObjects

/-! A helper that runs alone comes to the end of the thunk, wherever the others have stopped. -/
namespace SetBench.Flock

open Transition LinkedLog

variable {thunk : Thunk} {memory : Memory} {s s' : State} {h : Nat}

def Sound (thunk : Thunk) (memory : Memory) (s : State) : Prop :=
  ∃ chain committed now, Agreed thunk memory s chain committed now

def Finished (h : Nat) (s : State) : Prop := ∃ result, s.helpers h = .finished result

abbrev Alone (h : Nat) : State → Prop := Inevitable step (· = .step h) (Finished h)

theorem Sound.advance (sound : Sound thunk memory s) (stepped : s.advance h = some s') :
    Sound thunk memory s' := by
  obtain ⟨chain, committed, now, agreed⟩ := sound
  exact agreed.advance stepped

theorem alone_step (stepped : s.advance h = some s') (rest : Alone h s') : Alone h s := by
  refine .later ⟨.step h, s', rfl, stepped⟩ ?_
  rintro event after rfl moved
  cases stepped.symm.trans moved
  exact rest

@[simp] theorem put_helper (s : State) (h : Nat) (phase : Phase) :
    (s.put h phase).helpers h = phase := Function.update_self ..

-- What the helper comes to after the operation at `point`.
def Onward (thunk : Thunk) (memory : Memory) (h : Nat) (point : Point) : Prop :=
  ∀ s log e m, Sound thunk memory s → Config.Fits ⟨point, m⟩ e → s.helpers h =
    .ready log (point.after e) → Alone h s

theorem from_deciding {point : Point} (onward : Onward thunk memory h point)
    (sound : Sound thunk memory s) {log : Log} {entry : Entry}
    (at_h : s.helpers h = .deciding log point entry) : Alone h s := by
  obtain ⟨chain, committed, now, agreed⟩ := sound
  have standing := agreed.helpers h
  rw [at_h] at standing
  obtain ⟨p, body, op, moved, stands, offers⟩ := standing
  cases present : s.current log with
  | some found =>
      have stepped : s.advance h = some (s.adopt h log point entry found) := by
        simp only [State.advance, at_h, present]
      apply alone_step stepped
      have there := (agreed.reads moved).symm.trans present
      obtain ⟨inside, same⟩ := List.getElem?_eq_some_iff.mp there
      obtain ⟨m, _, ahead⟩ := stands.ahead agreed.path
      rw [List.drop_eq_getElem_cons inside, same] at ahead
      cases ahead with
      | next fits _ => exact onward _ log found m (agreed.advance stepped) fits (put_helper _ _ _)
  | none =>
      have stepped : s.advance h =
        some ((s.setCurrent log entry).put h (.ready log (point.after entry))) := by
        simp only [State.advance, at_h, present]
      apply alone_step stepped
      have last := present
      rw [agreed.reads moved, List.getElem?_eq_none_iff] at last
      have at_end : p = committed.length := Nat.le_antisymm stands.1 last
      subst at_end
      have fits := offers rfl
      have whole : now = ⟨point, now.memory⟩ := by
        rw [← stands.at_end agreed.path]
      rw [whole] at fits
      exact onward _ log entry now.memory (agreed.advance stepped) fits (put_helper _ _ _)

theorem from_marking {l v : Nat} {old : Word} {rest : Thunk}
    (onward : Onward thunk memory h (.mark l old v rest)) (sound : Sound thunk memory s)
    {log : Log} (at_h : s.helpers h = .marking log l old v rest) : Alone h s := by
  have stepped : s.advance h = some ((s.setCurrent log .done).put h (.ready log (.op rest))) := by
    simp only [State.advance, at_h]
  exact alone_step stepped (onward _ log .done memory (sound.advance stepped) rfl
    (put_helper _ _ _))

theorem from_reading {point : Point} (onward : Onward thunk memory h point)
    (sound : Sound thunk memory s) {log : Log} {entry : Entry}
    (at_h : s.helpers h = .reading log point entry) : Alone h s := by
  cases present : s.current log with
  | some found =>
      have stepped : s.advance h = some (s.adopt h log point entry found) := by
        simp only [State.advance, at_h, present]
      apply alone_step stepped
      have kept := sound.advance stepped
      obtain ⟨chain, committed, now, agreed⟩ := sound
      have standing := agreed.helpers h
      rw [at_h] at standing
      obtain ⟨p, moved, stands, _⟩ := standing
      have there := (agreed.reads moved).symm.trans present
      obtain ⟨inside, same⟩ := List.getElem?_eq_some_iff.mp there
      obtain ⟨m, _, ahead⟩ := stands.ahead agreed.path
      rw [List.drop_eq_getElem_cons inside, same] at ahead
      cases ahead with
      | next fits _ => exact onward _ log found m kept fits (put_helper _ _ _)
  | none =>
      cases point with
      | op body =>
          have stepped : s.advance h = some (s.put h (.deciding log (.op body) entry)) := by
            simp only [State.advance, at_h, present]
          exact alone_step stepped (from_deciding onward (sound.advance stepped) (put_helper _ _ _))
      | mark l old v rest =>
          have stepped : s.advance h = some (s.put h (.swapping log l old v rest)) := by
            simp only [State.advance, at_h, present]
          refine alone_step stepped ?_
          have kept := sound.advance stepped
          have next : (s.put h (.swapping log l old v rest)).advance h =
              some (({ s.put h (.swapping log l old v rest) with
                memory := if s.memory l = old then Function.update s.memory l (old.next v)
                  else s.memory }).put h (.marking log l old v rest)) := by
            simp only [State.advance, put_helper]
            rfl
          exact alone_step next (from_marking onward (kept.advance next) (put_helper _ _ _))

theorem from_holding {point : Point} (onward : Onward thunk memory h point)
    (sound : Sound thunk memory s) {log : Log} {entry : Entry}
    (at_h : s.helpers h = .holding log point entry) : Alone h s := by
  by_cases full : log.count = logLen
  · cases link : s.next log.vals with
    | some array =>
        have stepped : s.advance h = some (s.put h (.reading ⟨array, 1⟩ point entry)) := by
          simp only [State.advance, at_h, if_pos full, link]
        exact alone_step stepped (from_reading onward (sound.advance stepped) (put_helper _ _ _))
    | none =>
        have stepped : s.advance h =
          some { s.put h (.linking log point entry s.arrays) with arrays := s.arrays + 1 } := by
          simp only [State.advance, at_h, if_pos full, link]
        refine alone_step stepped ?_
        have kept := sound.advance stepped
        have next : State.advance
          { s.put h (.linking log point entry s.arrays) with arrays := s.arrays + 1 } h =
            some { ({ s.put h (.linking log point entry s.arrays) with
              arrays := s.arrays + 1 } : State).put h (.reading ⟨s.arrays, 1⟩ point entry) with
              next := Function.update s.next log.vals (some s.arrays) } := by
          simp only [State.advance, put_helper]
          rw [show (s.put h (.linking log point entry s.arrays)).next log.vals = none from link]
          rfl
        exact alone_step next (from_reading onward (kept.advance next) (put_helper _ _ _))
  · have stepped : s.advance h =
      some (s.put h (.reading ⟨log.vals, log.count + 1⟩ point entry)) := by
      simp only [State.advance, at_h, if_neg full]
    exact alone_step stepped (from_reading onward (sound.advance stepped) (put_helper _ _ _))

theorem from_ready {point : Point} (running : ∀ result, point ≠ .op (.ret result))
    (onward : Onward thunk memory h point) (sound : Sound thunk memory s) {log : Log}
    (at_h : s.helpers h = .ready log point) : Alone h s := by
  have proposes : ∃ proposed, s.propose point = some proposed := by
    unfold State.propose
    split
    · exact absurd rfl (running _)
    all_goals exact ⟨_, rfl⟩
  obtain ⟨⟨entry, objects⟩, proposed⟩ := proposes
  have stepped : s.advance h =
    some { s.put h (.holding log point entry) with objects := objects } := by
    simp only [State.advance, at_h]
    split
    case h_1 same => exact absurd rfl (running _)
    case h_2 same =>
      rw [proposed] at same
      cases same
      rfl
    case h_3 same =>
      rw [proposed] at same
      cases same
  exact alone_step stepped (from_holding onward (sound.advance stepped) (put_helper _ _ _))

theorem from_mark {l v : Nat} {old : Word} {rest : Thunk}
    (ih : ∀ s log, Sound thunk memory s → s.helpers h = .ready log (.op rest) → Alone h s)
    (sound : Sound thunk memory s) {log : Log}
    (at_h : s.helpers h = .ready log (.mark l old v rest)) : Alone h s := by
  refine from_ready ?_ ?_ sound at_h
  · exact fun _ => nofun
  intro s log e m sound fits at_h
  cases (show e = .done from fits)
  exact ih s log sound at_h

-- The induction is on the body that is left.
theorem from_op (body : Thunk) :
    ∀ s log, Sound thunk memory s → s.helpers h = .ready log (.op body) → Alone h s := by
  induction body with
  | ret result =>
      intro s log sound at_h
      have stepped : s.advance h = some { s.put h (.finished result) with done := true } := by
        simp only [State.advance, at_h]
      exact alone_step stepped (.here ⟨result, put_helper _ _ _⟩)
  | load l rest ih =>
      intro s log sound at_h
      refine from_ready ?_ ?_ sound at_h
      · exact fun _ same => Thunk.noConfusion (Point.op.inj same)
      intro s log e m sound fits at_h
      cases (show e = .word (m l) from fits)
      exact ih _ s log sound at_h
  | store l v rest ih =>
      intro s log sound at_h
      refine from_ready ?_ ?_ sound at_h
      · exact fun _ same => Thunk.noConfusion (Point.op.inj same)
      intro s log e m sound fits at_h
      cases (show e = .word (m l) from fits)
      exact from_mark ih sound at_h
  | cam l old new rest ih =>
      intro s log sound at_h
      refine from_ready ?_ ?_ sound at_h
      · exact fun _ same => Thunk.noConfusion (Point.op.inj same)
      intro s log e m sound fits at_h
      cases (show e = .word (m l) from fits)
      by_cases same : (m l).value = old
      · rw [Point.after, if_pos same] at at_h
        exact from_mark ih sound at_h
      · rw [Point.after, if_neg same] at at_h
        exact ih s log sound at_h
  | newObj rest ih =>
      intro s log sound at_h
      refine from_ready ?_ ?_ sound at_h
      · exact fun _ same => Thunk.noConfusion (Point.op.inj same)
      intro s log e m sound fits at_h
      obtain ⟨o, rfl⟩ := fits
      exact ih o s log sound at_h

theorem onward (point : Point) : Onward thunk memory h point := by
  intro s log e m sound fits at_h
  cases point' : point.after e with
  | op body => exact from_op body s log sound (point' ▸ at_h)
  | mark l old v rest => exact from_mark (from_op rest) sound (point' ▸ at_h)

/-- No helper waits for another: from every state of every run, a helper whose turn alone comes
finishes. -/
theorem helper_alone_finishes {events : List Event} {last : State}
    (run : Run step Locked (start thunk memory) events last) (joined : last.helpers h ≠ .idle) :
    Alone h last := by
  have sound : Sound thunk memory last := agreed_run run
  cases at_h : last.helpers h with
  | idle => exact absurd at_h joined
  | finished result => exact .here ⟨result, at_h⟩
  | ready log point =>
      cases point with
      | op body => exact from_op body last log sound at_h
      | mark l old v rest => exact from_mark (from_op rest) sound at_h
  | holding log point entry => exact from_holding (onward point) sound at_h
  | reading log point entry => exact from_reading (onward point) sound at_h
  | deciding log point entry => exact from_deciding (onward point) sound at_h
  | marking log l old v rest => exact from_marking (onward _) sound at_h
  | linking log point entry array =>
      cases link : last.next log.vals with
      | some other =>
          have stepped : last.advance h = some (last.put h (.reading ⟨other, 1⟩ point entry)) := by
            simp only [State.advance, at_h, link]
          exact alone_step stepped (from_reading (onward point) (sound.advance stepped)
            (put_helper _ _ _))
      | none =>
          have stepped : last.advance h = some { last.put h (.reading ⟨array, 1⟩ point entry) with
              next := Function.update last.next log.vals (some array) } := by
            simp only [State.advance, at_h, link]
          exact alone_step stepped (from_reading (onward point) (sound.advance stepped)
            (put_helper _ _ _))
  | swapping log l old v rest =>
      have stepped : last.advance h =
        some (({ last with
          memory := if last.memory l = old then Function.update last.memory l (old.next v)
            else last.memory }).put h (.marking log l old v rest)) := by
        simp only [State.advance, at_h]
      exact alone_step stepped (from_marking (onward _) (sound.advance stepped) (put_helper _ _ _))

-- Helper 1 has put its object into the log and stopped; helper 0 still has its own in hand.
def stoppedInLog : List Event := [.help 0, .help 1, .step 0, .step 1, .step 1, .step 1, .step 1]

theorem stopped_in_log_finishes :
    ∃ last, Run step Locked (start allocate fun _ => ⟨0, 1⟩) stoppedInLog last ∧
    (last.helpers 0).brings = some (.object 0) ∧ last.entries 0 0 = some (.object 1) ∧
    Alone 0 last := by
  have replayed : (replay step Locked stoppedInLog (start allocate fun _ => ⟨0, 1⟩)).map
      (fun s => ((s.helpers 0).brings, s.entries 0 0)) =
      some (some (.object 0), some (.object 1)) := by
    decide +kernel
  obtain ⟨last, same, facts⟩ := Option.map_eq_some_iff.mp replayed
  obtain ⟨brings, logged⟩ := Prod.mk.inj facts
  have run := run_of_replay stoppedInLog same
  have joined : last.helpers 0 ≠ .idle := by
    intro idle
    rw [idle] at brings
    cases brings
  exact ⟨last, run, brings, logged, helper_alone_finishes run joined⟩

end SetBench.Flock
