import Mathlib
import SetBench.FlockLog
import SetBench.LinkedLog

/-! The thunk as a sequence of log entries: what each entry does to where the thunk stands and to
the memory, and that following the entries to the end is the thunk's own run. -/
namespace SetBench.Flock

structure Config where
  point : Point
  memory : Memory

def Config.after (c : Config) (e : Entry) : Config :=
  match c.point with
  | .mark l old v _ => ⟨c.point.after e, Function.update c.memory l (old.next v)⟩
  | .op _ => ⟨c.point.after e, c.memory⟩

/-- What may be committed where the thunk stands. -/
def Config.Fits (c : Config) (e : Entry) : Prop :=
  match c.point with
  | .op (.ret _) => False
  | .op (.load l _) | .op (.store l _ _) | .op (.cam l _ _ _) => e = .word (c.memory l)
  | .op (.newObj _) => ∃ o, e = .object o
  | .mark _ _ _ _ => e = .done

-- The word that a mark is about is still there.
def Config.Fresh (c : Config) : Prop :=
  match c.point with
  | .mark l old _ _ => c.memory l = old
  | .op _ => True

inductive Follows : Config → List Entry → Config → Prop where
  | refl (c : Config) : Follows c [] c
  | next {c last : Config} {e : Entry} {rest : List Entry} (fits : c.Fits e)
    (tail : Follows (c.after e) rest last) :
      Follows c (e :: rest) last

variable {c d m : Config} {e : Entry} {xs ys : List Entry}

theorem Follows.trans (first : Follows c xs m) (second : Follows m ys d) :
    Follows c (xs ++ ys) d := by
  induction first with
  | refl => exact second
  | next fits _ ih => exact .next fits (ih second)

theorem Follows.snoc (path : Follows c xs d) (fits : d.Fits e) :
    Follows c (xs ++ [e]) (d.after e) :=
  path.trans (.next fits (.refl _))

theorem Follows.unique (path : Follows c xs d) (other : Follows c xs m) : d = m := by
  induction path with
  | refl => cases other; rfl
  | next _ _ ih =>
      cases other with
      | next _ tail => exact ih tail

theorem Follows.split (path : Follows c (xs ++ ys) d) : ∃ m, Follows c xs m ∧ Follows m ys d := by
  induction xs generalizing c with
  | nil => exact ⟨c, .refl c, path⟩
  | cons x rest ih =>
      cases path with
      | next fits tail =>
          obtain ⟨m, before, after⟩ := ih tail
          exact ⟨m, .next fits before, after⟩

theorem Fits.fresh (fits : c.Fits e) : (c.after e).Fresh := by
  unfold Config.Fits at fits
  unfold Config.after
  split at fits
  case h_1 => exact fits.elim
  case h_2 l rest at_point => rw [at_point, fits]; trivial
  case h_3 l v rest at_point => rw [at_point, fits]; rfl
  case h_4 l old new rest at_point =>
      rw [at_point, fits]
      by_cases same : (c.memory l).value = old
      · simp only [Point.after, if_pos same]
        rfl
      · simp only [Point.after, if_neg same]
        trivial
  case h_5 rest at_point =>
      obtain ⟨o, rfl⟩ := fits
      rw [at_point]
      trivial
  case h_6 l old v rest at_point => rw [at_point, fits]; trivial

theorem Follows.fresh (path : Follows c xs d) (fresh : c.Fresh) : d.Fresh := by
  induction path with
  | refl => exact fresh
  | next fits _ ih => exact ih (Fits.fresh fits)

theorem Config.after_tag (fresh : c.Fresh) (e : Entry) (l : Nat) :
    (c.memory l).tag ≤ ((c.after e).memory l).tag := by
  unfold Config.after
  split
  case h_1 k old v rest at_point =>
      unfold Config.Fresh at fresh
      rw [at_point] at fresh
      dsimp only at fresh ⊢
      by_cases same : l = k
      · rw [same, Function.update_self, ← fresh]
        exact Nat.le_succ _
      · rw [Function.update_of_ne same]
  case h_2 => exact Nat.le_refl _

theorem Follows.tag_le (path : Follows c xs d) (fresh : c.Fresh) (l : Nat) :
    (c.memory l).tag ≤ (d.memory l).tag := by
  induction path with
  | refl => exact Nat.le_refl _
  | next fits _ ih => exact (Config.after_tag fresh _ l).trans (ih (Fits.fresh fits))

/-- Once the mark is passed, the word's tag is beyond the one the mark is about. -/
theorem Follows.passed {l : Nat} {old : Word} {v : Nat} {rest : Thunk} {memory : Memory}
    (path : Follows ⟨.mark l old v rest, memory⟩ (e :: xs) d) : old.tag < (d.memory l).tag := by
  cases path with
  | next fits tail =>
      have later := tail.tag_le (Fits.fresh fits) l
      have written : (Config.after ⟨.mark l old v rest, memory⟩ e).memory l = old.next v :=
        Function.update_self ..
      rw [written] at later
      exact later

def Entry.objects : Entry → List Nat
  | .object o => [o]
  | _ => []

def objectsIn (entries : List Entry) : List Nat := entries.flatMap Entry.objects

def Config.run (c : Config) (objects : List Nat) : Option (Nat × Memory) :=
  match c.point with
  | .op thunk => thunk.run c.memory objects
  | .mark l old v rest => rest.run (Function.update c.memory l (old.next v)) objects

theorem Fits.run (fits : c.Fits e) (objects : List Nat) :
    c.run (e.objects ++ objects) = (c.after e).run objects := by
  unfold Config.Fits at fits
  unfold Config.run Config.after
  split at fits
  case h_1 => exact fits.elim
  case h_2 l rest at_point => rw [at_point, fits]; rfl
  case h_3 l v rest at_point => rw [at_point, fits]; rfl
  case h_4 l old new rest at_point =>
      rw [at_point, fits]
      by_cases same : (c.memory l).value = old
      · simp only [Point.after, if_pos same, Thunk.run, Entry.objects, List.nil_append]
        rfl
      · simp only [Point.after, if_neg same, Thunk.run, Entry.objects, List.nil_append]
  case h_5 rest at_point =>
      obtain ⟨o, rfl⟩ := fits
      rw [at_point]
      rfl
  case h_6 l old v rest at_point => rw [at_point, fits]; rfl

theorem Follows.run (path : Follows c xs d) (objects : List Nat) :
    c.run (objectsIn xs ++ objects) = d.run objects := by
  induction path with
  | refl => rfl
  | next fits _ ih =>
      rw [objectsIn, List.flatMap_cons, List.append_assoc, Fits.run fits]
      exact ih

/-- A thunk followed to its end has run alone. -/
theorem Follows.ran {thunk : Thunk} {memory last : Memory} {result : Nat}
    (path : Follows ⟨.op thunk, memory⟩ xs ⟨.op (.ret result), last⟩) :
    thunk.run memory (objectsIn xs) = some (result, last) := by
  have whole := path.run []
  rw [List.append_nil] at whole
  exact whole

-- Nothing follows the result.
theorem Follows.ended {result : Nat} (here : c.point = .op (.ret result))
    (path : Follows c xs d) : xs = [] ∧ d = c := by
  cases path with
  | refl => exact ⟨rfl, rfl⟩
  | next fits _ =>
      unfold Config.Fits at fits
      rw [here] at fits
      exact fits.elim

end SetBench.Flock
