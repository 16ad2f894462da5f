import SetBench.LinkedBlocks
import SetBench.Transition

/-! lfbstack of common/recordmgr/lockfreeblockstack.h: a stack of blocks under a bare head
pointer. One step is one read or write of the head, of a next field or of a nextCount
field, or one compare-and-swap of the head. -/
namespace SetBench.BlockStack

open Transition LinkedBlocks

inductive Pc (B : Type) where
  | idle
  | getLoad
  | getNext (exp : B)
  | getCas (exp : B) (next : Option B)
  | getClear (exp : B)
  | addLoad (b : B)
  | addStore (b : B) (head : Option B)
  | addTest (b : B)
  | addNext (b : B)
  | addRead (b : B) (next : B)
  | addCount (b : B) (sz : Nat)
  | addExpected (b : B) (sz : Nat)
  | addCas (b : B) (sz : Nat) (exp : Option B)
  deriving DecidableEq, Repr

variable {B T : Type} [DecidableEq B] [DecidableEq T]

/-- `outside` and `history` are what the callers see: the blocks that the threads own, and
the calls of addBlock and the returns of getBlock in their order. -/
structure World (B T : Type) where
  head : Option B
  next : B → Option B
  nextCount : B → Nat
  pc : T → Pc B
  outside : B → Bool
  history : List (Act B)

inductive Event (B T : Type) where
  | getBlock (t : T)
  | addBlock (t : T) (b : B)
  -- The owner of a block uses its next field.
  | write (b : B) (next : Option B)
  | move (t : T)

def initial (next : B → Option B) : World B T :=
  ⟨none, next, fun _ => 0, fun _ => .idle, fun _ => true, []⟩

def World.goto (w : World B T) (t : T) (pc : Pc B) : World B T :=
  { w with pc := Function.update w.pc t pc }

def World.store (w : World B T) (b : B) (next : Option B) : World B T :=
  { w with next := Function.update w.next b next }

def World.swap (w : World B T) (head : Option B) : World B T := { w with head := head }

def World.take (w : World B T) (b : B) : World B T :=
  { w with outside := Function.update w.outside b false, history := w.history ++ [.added b] }

def World.give (w : World B T) (b : B) : World B T :=
  { w with outside := Function.update w.outside b true, history := w.history ++ [.returned b] }

def World.count (w : World B T) (b : B) (sz : Nat) : World B T :=
  { w with nextCount := Function.update w.nextCount b sz }

def move (w : World B T) (t : T) : Option (World B T) :=
  match w.pc t with
  | .idle => none
  | .getLoad =>
      match w.head with
      | none => some (w.goto t .idle)
      | some exp => some (w.goto t (.getNext exp))
  | .getNext exp => some (w.goto t (.getCas exp (w.next exp)))
  | .getCas exp next =>
      if w.head = some exp then some ((w.swap next).goto t (.getClear exp))
      else some (w.goto t .getLoad)
  | .getClear exp => some (((w.store exp none).give exp).goto t .idle)
  | .addLoad b => some (w.goto t (.addStore b w.head))
  | .addStore b head => some ((w.store b head).goto t (.addTest b))
  | .addTest b => some (w.goto t (if w.next b = none then .addCount b 0 else .addNext b))
  -- A null pointer is not followed.
  | .addNext b => (w.next b).map fun next => w.goto t (.addRead b next)
  | .addRead b next => some (w.goto t (.addCount b (w.nextCount next + 1)))
  | .addCount b sz => some ((w.count b sz).goto t (.addExpected b sz))
  | .addExpected b sz => some (w.goto t (.addCas b sz (w.next b)))
  | .addCas b _ exp =>
      if w.head = exp then some ((w.swap (some b)).goto t .idle) else some (w.goto t (.addLoad b))

def step (w : World B T) : Event B T → Option (World B T)
  | .getBlock t => if w.pc t = .idle then some (w.goto t .getLoad) else none
  | .addBlock t b =>
      if w.pc t = .idle ∧ w.outside b = true then some ((w.take b).goto t (.addLoad b)) else none
  | .write b next => if w.outside b = true then some (w.store b next) else none
  | .move t => move w t

-- The compare-and-swap of a getBlock does not meet its block again as the head of another chain.
def Pc.Fresh (pc : Pc B) (w : World B T) : Prop :=
  match pc with
  | .getCas exp next => w.head = some exp → w.next exp = next
  | _ => True

def Fresh (w : World B T) : Event B T → Prop
  | .move t => (w.pc t).Fresh w
  | _ => True

/-! The invariant. -/

def Pc.holds : Pc B → Option B
  | .getClear b | .addLoad b | .addStore b _ | .addTest b | .addNext b | .addRead b _ | .addCount b
    _ | .addExpected b _
    | .addCas b _ _ => some b
  | _ => none

def Pc.Linked (pc : Pc B) (w : World B T) : Prop :=
  match pc with
  | .addCas b _ exp => w.next b = exp
  | _ => True

structure Inv (w : World B T) : Prop where
  custody : ∃ blocks, Custody w.next w.head w.outside (fun t => (w.pc t).holds) blocks
  linked : ∀ t, (w.pc t).Linked w
  balanced : Balanced w.history w.outside

omit [DecidableEq B] in
theorem holds_goto (w : World B T) (t : T) (pc : Pc B) :
    (fun s => ((w.goto t pc).pc s).holds) = Function.update (fun s => (w.pc s).holds) t pc.holds :=
  Function.comp_update Pc.holds w.pc t pc

omit [DecidableEq B] in
theorem linked_goto {w : World B T} {t : T} {pc : Pc B} (mine : pc.Linked w)
    (others : ∀ s, s ≠ t → (w.pc s).Linked w) (s : T) :
    ((w.goto t pc).pc s).Linked (w.goto t pc) := by
  have same (place : Pc B) (now : place.Linked w) : place.Linked (w.goto t pc) := now
  apply same
  show (Function.update w.pc t pc s).Linked w
  by_cases self : s = t
  · rw [self, Function.update_self]
    exact mine
  · rw [Function.update_of_ne self]
    exact others s self

-- The call goes on with the same block, or with none.
theorem Inv.goto {w : World B T} (inv : Inv w) {t : T} {pc : Pc B}
    (same : pc.holds = (w.pc t).holds) (mine : pc.Linked w) :
    Inv (w.goto t pc) := by
  obtain ⟨blocks, custody⟩ := inv.custody
  refine ⟨⟨blocks, ?_⟩, linked_goto mine fun s _ => inv.linked s, inv.balanced⟩
  rw [holds_goto, same, Function.update_eq_self]
  exact custody

omit [DecidableEq T] in
theorem Linked.store {w : World B T} {b : B} {next : Option B} {pc : Pc B} (now : pc.Linked w)
    (other : pc.holds ≠ some b) :
    pc.Linked (w.store b next) := by
  cases pc with
  | addCas c sz exp =>
      have apart : c ≠ b := by
        rintro rfl
        exact other rfl
      exact (Function.update_of_ne apart next w.next).trans now
  | idle | getLoad | getNext | getCas | getClear | addLoad | addStore | addTest
  | addNext | addRead | addCount | addExpected => trivial

omit [DecidableEq B] [DecidableEq T] in
theorem Linked.swap {w : World B T} {head : Option B} {pc : Pc B} (now : pc.Linked w) :
    pc.Linked (w.swap head) := now

omit [DecidableEq T] in
theorem others_apart {w : World B T} (inv : Inv w) {t s : T} {b : B}
    (held : (w.pc t).holds = some b) (apart : s ≠ t) :
    (w.pc s).holds ≠ some b := by
  obtain ⟨blocks, custody⟩ := inv.custody
  exact fun owned => apart (custody.unique s t b owned held)

theorem move_inv {w after : World B T} (inv : Inv w) {t : T} (fresh : (w.pc t).Fresh w)
    (moved : move w t = some after) : Inv after := by
  have mine := inv.linked t
  obtain ⟨blocks, custody⟩ := inv.custody
  unfold move at moved
  split at moved
  · cases moved
  · rename_i place
    split at moved <;> cases moved
    · exact inv.goto (by rw [place]; rfl) trivial
    · exact inv.goto (by rw [place]; rfl) trivial
  · rename_i exp place
    cases moved
    exact inv.goto (by rw [place]; rfl) trivial
  · rename_i exp next place
    split at moved <;> cases moved
    · rename_i top
      rw [place] at fresh
      have field : w.next exp = next := fresh top
      obtain ⟨rest, _, popped⟩ := custody.pop (t := t) (by rw [place]; rfl) top
      refine ⟨⟨rest, ?_⟩, linked_goto trivial fun s _ => Linked.swap (inv.linked s), inv.balanced⟩
      rw [holds_goto]
      rw [field] at popped
      exact popped
    · exact inv.goto (by rw [place]; rfl) trivial
  · rename_i b place
    cases moved
    have held : (w.pc t).holds = some b := by rw [place]; rfl
    refine ⟨⟨blocks, ?_⟩, linked_goto trivial fun s apart => ?_,
      inv.balanced.return (custody.taken t b held)⟩
    · rw [holds_goto]
      exact (custody.write (custody.held_absent held)).give held
    · exact Linked.store (inv.linked s) (others_apart inv held apart)
  · rename_i b place
    cases moved
    exact inv.goto (by rw [place]; rfl) trivial
  · rename_i b head place
    cases moved
    have held : (w.pc t).holds = some b := by rw [place]; rfl
    refine ⟨⟨blocks, ?_⟩, linked_goto trivial fun s apart => ?_, inv.balanced⟩
    · rw [holds_goto]
      refine (custody.write (custody.held_absent held)).congr fun s => ?_
      by_cases self : s = t
      · rw [self, Function.update_self]
        exact held.symm
      · rw [Function.update_of_ne self]
        rfl
    · exact Linked.store (inv.linked s) (others_apart inv held apart)
  · rename_i b place
    cases moved
    split
    · exact inv.goto (by rw [place]; rfl) trivial
    · exact inv.goto (by rw [place]; rfl) trivial
  · rename_i b place
    obtain ⟨next, _, rfl⟩ := Option.map_eq_some_iff.mp moved
    exact inv.goto (by rw [place]; rfl) trivial
  · rename_i b next place
    cases moved
    exact inv.goto (by rw [place]; rfl) trivial
  · rename_i b sz place
    cases moved
    have counted : Inv (w.count b sz) := ⟨inv.custody, inv.linked, inv.balanced⟩
    exact counted.goto (by show _ = (w.pc t).holds; rw [place]; rfl) trivial
  · rename_i b sz place
    cases moved
    exact inv.goto (by rw [place]; rfl) rfl
  · rename_i b sz exp place
    split at moved <;> cases moved
    · rename_i top
      have held : (w.pc t).holds = some b := by rw [place]; rfl
      have field : w.next b = exp := by
        rw [place] at mine
        exact mine
      refine ⟨⟨b :: blocks, ?_⟩, linked_goto trivial fun s _ => Linked.swap (inv.linked s),
        inv.balanced⟩
      rw [holds_goto]
      exact custody.push held (field.trans top.symm)
    · exact inv.goto (by rw [place]; rfl) trivial

theorem step_inv (before : World B T) (event : Event B T) (after : World B T) (inv : Inv before)
    (fresh : Fresh before event) (stepped : step before event = some after) : Inv after := by
  cases event with
  | getBlock t =>
      obtain ⟨idle, ⟨⟩⟩ := Option.ite_none_right_eq_some.mp stepped
      exact inv.goto (by rw [idle]; rfl) trivial
  | addBlock t b =>
      obtain ⟨⟨idle, out⟩, ⟨⟩⟩ := Option.ite_none_right_eq_some.mp stepped
      obtain ⟨blocks, custody⟩ := inv.custody
      refine ⟨⟨blocks, ?_⟩, linked_goto trivial fun s _ => inv.linked s, inv.balanced.add out⟩
      rw [holds_goto]
      exact custody.take out (by rw [idle]; rfl)
  | write b next =>
      obtain ⟨out, ⟨⟩⟩ := Option.ite_none_right_eq_some.mp stepped
      obtain ⟨blocks, custody⟩ := inv.custody
      refine ⟨⟨blocks, custody.write (custody.outside_absent out)⟩, fun s => ?_, inv.balanced⟩
      refine Linked.store (inv.linked s) fun held => ?_
      rw [custody.taken s b held] at out
      cases out
  | move t => exact move_inv inv fresh stepped

omit [DecidableEq T] in
theorem initial_inv (next : B → Option B) : Inv (initial next : World B T) :=
  ⟨⟨[], custody_initial⟩, fun _ => trivial, balanced_initial⟩

/-- While no getBlock swaps the head of a chain that is not the one it read, no block is
returned more often than it was added, and when no call is in progress the chain from the
head consists of the blocks that were added and not yet returned. -/
theorem stack_keeps_blocks {next : B → Option B} {events : List (Event B T)} {w : World B T}
    (run : Run step Fresh (initial next) events w) :
    (∀ b, w.history.count (.returned b) ≤ w.history.count (.added b))
      ∧ ((∀ t, w.pc t = .idle) → ∃ blocks, Chain w.next w.head blocks ∧ blocks.Nodup
        ∧ ∀ b, b ∈ blocks ↔ w.history.count (.returned b) < w.history.count (.added b)) := by
  have inv : Inv w := run_invariant Inv (initial_inv next) step_inv run
  refine ⟨inv.balanced.at_most_once, fun idle => ?_⟩
  obtain ⟨blocks, custody⟩ := inv.custody
  have quiet : ∀ t, (w.pc t).holds = none := by
    intro t
    rw [idle t]
    rfl
  refine ⟨blocks, custody.chain, custody.nodup, fun b => ?_⟩
  rw [← inv.balanced.inside_iff b]
  exact custody.settled quiet b

instance (pc : Pc B) (w : World B T) : Decidable (pc.Fresh w) :=
  match pc with
  | .getCas exp next => inferInstanceAs (Decidable (w.head = some exp → w.next exp = next))
  | .idle | .getLoad | .getNext _ | .getClear _ | .addLoad _ | .addStore _ _ | .addTest _ | .addNext
    _ | .addRead _ _
  | .addCount _ _ | .addExpected _ _ | .addCas _ _ _ => .isTrue trivial

instance (w : World B T) (event : Event B T) : Decidable (Fresh w event) :=
  match event with
  | .move t => inferInstanceAs (Decidable ((w.pc t).Fresh w))
  | .getBlock _ | .addBlock _ _ | .write _ _ => .isTrue trivial

def moves (t : Fin 2) (steps : Nat) : List (Event Bool (Fin 2)) := List.replicate steps (.move t)

def addTwo : List (Event Bool (Fin 2)) :=
  [[.addBlock 1 true], moves 1 6, [.addBlock 1 false], moves 1 8].flatten

theorem one_block_left :
    ∃ w, Run step Fresh (initial fun _ => none) (addTwo ++ .getBlock 0 :: moves 0 4) w
    ∧ w.history.count (.returned false) = 1 ∧ ∃ blocks, Chain w.next w.head blocks ∧
      true ∈ blocks := by
  have replayed : (replay step Fresh (addTwo ++ .getBlock 0 :: moves 0 4)
    (initial fun _ => none)).map
      (fun w => (decide (w.pc 0 = .idle ∧ w.pc 1 = .idle), w.history)) =
      some (true, [.added true, .added false, .returned false]) := by
    decide +kernel
  obtain ⟨w, same, values⟩ := Option.map_eq_some_iff.mp replayed
  simp only [Prod.mk.injEq, decide_eq_true_eq] at values
  obtain ⟨idle, history⟩ := values
  have run := run_of_replay _ same
  have quiet : ∀ t, w.pc t = .idle := Fin.forall_fin_two.mpr idle
  obtain ⟨blocks, chain, _, exactly⟩ := (stack_keeps_blocks run).2 quiet
  refine ⟨w, run, ?_, blocks, chain, ?_⟩
  · rw [history]
    decide
  · rw [exactly, history]
    decide

-- Thread 0 reads the head and its next field, thread 1 takes both blocks out and adds the
-- first again; thread 0 then swaps in a block that thread 1 owns, and returns it as well.
def reusedHead : List (Event Bool (Fin 2)) :=
  [addTwo, [.getBlock 0], moves 0 2, [.getBlock 1], moves 1 4, [.getBlock 1], moves 1 4,
    [.addBlock 1 false], moves 1 6, moves 0 2,
    [.getBlock 0], moves 0 4].flatten

theorem reused_head_returns_twice :
    ¬ ∀ (events : List (Event Bool (Fin 2))) (w : World Bool (Fin 2)),
    Run step free (initial fun _ => none) events w →
      ∀ b, w.history.count (.returned b) ≤ w.history.count (.added b) := by
  intro always
  have replayed : (replay step free reusedHead (initial fun _ => none)).map
      (fun w => (w.history.count (.returned true), w.history.count (.added true))) =
      some (2, 1) := by
    decide +kernel
  obtain ⟨w, same, values⟩ := Option.map_eq_some_iff.mp replayed
  simp only [Prod.mk.injEq] at values
  have bound := always reusedHead w (run_of_replay reusedHead same) true
  omega

end SetBench.BlockStack
