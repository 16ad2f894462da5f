import SetBench.LinkedBlocks
import SetBench.Transition

/-! lockfreeblockbag of common/recordmgr/lockfreeblockbag.h: a stack of blocks under a
tagged head. One step is one load of the head, one access to a next field, or the
double-width compare-and-exchange, which may also fail for no reason. The tag does not
wrap. -/
namespace SetBench.BlockBag

open Transition LinkedBlocks

inductive Pc (B : Type) where
  | idle
  | getLoad
  | getNext (ptr : B) (tag : Nat)
  | getExchange (ptr : B) (tag : Nat) (next : Option B)
  | getClear (result : B)
  | addLoad (b : B)
  | addStore (b : B) (ptr : Option B) (tag : Nat)
  | addExchange (b : B) (ptr : Option B) (tag : Nat)
  deriving DecidableEq, Repr

variable {B T : Type} [DecidableEq B] [DecidableEq T]

/-- `outside` and `history` are what the callers see: the blocks that the threads own, and
the calls of addBlock and the returns of getBlock in their order. -/
structure World (B T : Type) where
  head : Option B
  tag : Nat
  next : B → Option B
  pc : T → Pc B
  outside : B → Bool
  history : List (Act B)

inductive Event (B T : Type) where
  | getBlock (t : T)
  | addBlock (t : T) (b : B)
  -- The owner of a block uses its next field.
  | write (b : B) (next : Option B)
  | move (t : T) (spurious : Bool)

def initial (next : B → Option B) : World B T := ⟨none, 0, next, fun _ => .idle, fun _ => true, []⟩

def World.goto (w : World B T) (t : T) (pc : Pc B) : World B T :=
  { w with pc := Function.update w.pc t pc }

def World.store (w : World B T) (b : B) (next : Option B) : World B T :=
  { w with next := Function.update w.next b next }

def World.exchange (w : World B T) (head : Option B) : World B T :=
  { w with head := head, tag := w.tag + 1 }

def World.take (w : World B T) (b : B) : World B T :=
  { w with outside := Function.update w.outside b false, history := w.history ++ [.added b] }

def World.give (w : World B T) (b : B) : World B T :=
  { w with outside := Function.update w.outside b true, history := w.history ++ [.returned b] }

def move (w : World B T) (t : T) (spurious : Bool) : Option (World B T) :=
  match w.pc t with
  | .idle => none
  | .getLoad =>
      match w.head with
      | none => some (w.goto t .idle)
      | some ptr => some (w.goto t (.getNext ptr w.tag))
  | .getNext ptr tag => some (w.goto t (.getExchange ptr tag (w.next ptr)))
  | .getExchange ptr tag next =>
      if spurious = false ∧ w.head = some ptr ∧
        w.tag = tag then some ((w.exchange next).goto t (.getClear ptr))
      else some (w.goto t .getLoad)
  | .getClear result => some (((w.store result none).give result).goto t .idle)
  | .addLoad b => some (w.goto t (.addStore b w.head w.tag))
  | .addStore b ptr tag => some ((w.store b ptr).goto t (.addExchange b ptr tag))
  | .addExchange b ptr tag =>
      if spurious = false ∧ w.head = ptr ∧
        w.tag = tag then some ((w.exchange (some b)).goto t .idle)
      else some (w.goto t (.addLoad b))

def step (w : World B T) : Event B T → Option (World B T)
  | .getBlock t => if w.pc t = .idle then some (w.goto t .getLoad) else none
  | .addBlock t b =>
      if w.pc t = .idle ∧ w.outside b = true then some ((w.take b).goto t (.addLoad b)) else none
  | .write b next => if w.outside b = true then some (w.store b next) else none
  | .move t spurious => move w t spurious

/-! The invariant. -/

def Pc.holds : Pc B → Option B
  | .getClear b | .addLoad b | .addStore b _ _ | .addExchange b _ _ => some b
  | _ => none

-- What a call read under a tag is still so while the tag is.
def Pc.Current (pc : Pc B) (w : World B T) : Prop :=
  match pc with
  | .getNext ptr tag => tag ≤ w.tag ∧ (tag = w.tag → w.head = some ptr)
  | .getExchange ptr tag next => tag ≤ w.tag ∧ (tag = w.tag → w.head = some ptr ∧ w.next ptr = next)
  | .addExchange b ptr _ => w.next b = ptr
  | _ => True

structure Inv (w : World B T) : Prop where
  custody : ∃ blocks, Custody w.next w.head w.outside (fun t => (w.pc t).holds) blocks
  current : ∀ t, (w.pc t).Current w
  balanced : Balanced w.history w.outside

omit [DecidableEq B] in
theorem holds_goto (w : World B T) (t : T) (pc : Pc B) :
    (fun s => ((w.goto t pc).pc s).holds) = Function.update (fun s => (w.pc s).holds) t pc.holds :=
  Function.comp_update Pc.holds w.pc t pc

omit [DecidableEq B] in
theorem current_goto {w : World B T} {t : T} {pc : Pc B} (mine : pc.Current w)
    (others : ∀ s, s ≠ t → (w.pc s).Current w) (s : T) :
    ((w.goto t pc).pc s).Current (w.goto t pc) := by
  have same (place : Pc B) (now : place.Current w) : place.Current (w.goto t pc) := now
  apply same
  show (Function.update w.pc t pc s).Current w
  by_cases self : s = t
  · rw [self, Function.update_self]
    exact mine
  · rw [Function.update_of_ne self]
    exact others s self

-- The call goes on with the same block, or with none.
theorem Inv.goto {w : World B T} (inv : Inv w) {t : T} {pc : Pc B}
    (same : pc.holds = (w.pc t).holds) (mine : pc.Current w) :
    Inv (w.goto t pc) := by
  obtain ⟨blocks, custody⟩ := inv.custody
  refine ⟨⟨blocks, ?_⟩, current_goto mine fun s _ => inv.current s, inv.balanced⟩
  rw [holds_goto, same, Function.update_eq_self]
  exact custody

omit [DecidableEq T] in
-- A block that is in no chain and in no other call gets a new next field.
theorem Current.store {w : World B T} {b : B} {next : Option B} {pc : Pc B} (now : pc.Current w)
    (other : pc.holds ≠ some b) (top : w.head ≠ some b) : pc.Current (w.store b next) := by
  cases pc with
  | getExchange ptr tag read =>
      refine ⟨now.1, fun same => ?_⟩
      obtain ⟨head, field⟩ := now.2 same
      refine ⟨head, ?_⟩
      have apart : ptr ≠ b := by
        rintro rfl
        exact top head
      exact (Function.update_of_ne apart next w.next).trans field
  | addExchange c ptr tag =>
      have apart : c ≠ b := by
        rintro rfl
        exact other rfl
      exact (Function.update_of_ne apart next w.next).trans now
  | idle | getLoad | getNext | getClear | addLoad | addStore => exact now

omit [DecidableEq B] [DecidableEq T] in
-- After an exchange what was read under the old tag is of no use.
theorem Current.exchange {w : World B T} {head : Option B} {pc : Pc B} (now : pc.Current w) :
    pc.Current (w.exchange head) := by
  cases pc with
  | getNext ptr tag =>
      have old : tag ≤ w.tag := now.1
      refine ⟨Nat.le_succ_of_le old, fun same => ?_⟩
      have new : tag = w.tag + 1 := same
      omega
  | getExchange ptr tag read =>
      have old : tag ≤ w.tag := now.1
      refine ⟨Nat.le_succ_of_le old, fun same => ?_⟩
      have new : tag = w.tag + 1 := same
      omega
  | addExchange => exact now
  | idle | getLoad | getClear | addLoad | addStore => trivial

omit [DecidableEq T] in
theorem head_not_held {w : World B T} (inv : Inv w) {t : T} {b : B}
    (held : (w.pc t).holds = some b) : w.head ≠ some b := by
  intro top
  obtain ⟨blocks, custody⟩ := inv.custody
  obtain ⟨rest, rfl, _⟩ := Chain.some (top ▸ custody.chain)
  exact custody.held_absent held List.mem_cons_self

omit [DecidableEq T] in
theorem others_apart {w : World B T} (inv : Inv w) {t s : T} {b : B}
    (held : (w.pc t).holds = some b) (apart : s ≠ t) :
    (w.pc s).holds ≠ some b := by
  obtain ⟨blocks, custody⟩ := inv.custody
  exact fun owned => apart (custody.unique s t b owned held)

theorem move_inv {w after : World B T} (inv : Inv w) {t : T} {spurious : Bool}
    (moved : move w t spurious = some after) : Inv after := by
  have mine := inv.current t
  obtain ⟨blocks, custody⟩ := inv.custody
  unfold move at moved
  split at moved
  · cases moved
  · rename_i place
    split at moved <;> cases moved
    · exact inv.goto (by rw [place]; rfl) trivial
    · rename_i top
      exact inv.goto (by rw [place]; rfl) ⟨Nat.le_refl _, fun _ => top⟩
  · rename_i ptr tag place
    cases moved
    rw [place] at mine
    exact inv.goto (by rw [place]; rfl) ⟨mine.1, fun same => ⟨mine.2 same, rfl⟩⟩
  · rename_i ptr tag next place
    split at moved <;> cases moved
    · rename_i won
      rw [place] at mine
      obtain ⟨_, field⟩ := mine.2 won.2.2.symm
      obtain ⟨rest, _, popped⟩ := custody.pop (t := t) (by rw [place]; rfl) won.2.1
      refine ⟨⟨rest, ?_⟩, current_goto trivial fun s _ => Current.exchange (inv.current s),
        inv.balanced⟩
      rw [holds_goto]
      rw [field] at popped
      exact popped
    · exact inv.goto (by rw [place]; rfl) trivial
  · rename_i b place
    cases moved
    have held : (w.pc t).holds = some b := by rw [place]; rfl
    refine ⟨⟨blocks, ?_⟩, current_goto trivial fun s apart => ?_,
      inv.balanced.return (custody.taken t b held)⟩
    · rw [holds_goto]
      exact (custody.write (custody.held_absent held)).give held
    · exact Current.store (inv.current s) (others_apart inv held apart) (head_not_held inv held)
  · rename_i b place
    cases moved
    exact inv.goto (by rw [place]; rfl) trivial
  · rename_i b ptr tag place
    cases moved
    have held : (w.pc t).holds = some b := by rw [place]; rfl
    have written : (Pc.addExchange b ptr tag).Current (w.store b ptr) := by
      show Function.update w.next b ptr b = ptr
      rw [Function.update_self]
    refine ⟨⟨blocks, ?_⟩, current_goto written fun s apart => ?_, inv.balanced⟩
    · rw [holds_goto]
      refine (custody.write (custody.held_absent held)).congr fun s => ?_
      by_cases self : s = t
      · rw [self, Function.update_self]
        exact held.symm
      · rw [Function.update_of_ne self]
        rfl
    · exact Current.store (inv.current s) (others_apart inv held apart) (head_not_held inv held)
  · rename_i b ptr tag place
    split at moved <;> cases moved
    · rename_i won
      have held : (w.pc t).holds = some b := by rw [place]; rfl
      have linked : w.next b = ptr := by
        rw [place] at mine
        exact mine
      refine ⟨⟨b :: blocks, ?_⟩, current_goto trivial fun s _ => Current.exchange (inv.current s),
        inv.balanced⟩
      rw [holds_goto]
      exact custody.push held (linked.trans won.2.1.symm)
    · exact inv.goto (by rw [place]; rfl) trivial

theorem step_inv (before : World B T) (event : Event B T) (after : World B T) (inv : Inv before)
    (_ : free before event) (stepped : step before event = some after) : Inv after := by
  cases event with
  | getBlock t =>
      obtain ⟨idle, ⟨⟩⟩ := Option.ite_none_right_eq_some.mp stepped
      exact inv.goto (by rw [idle]; rfl) trivial
  | addBlock t b =>
      obtain ⟨⟨idle, out⟩, ⟨⟩⟩ := Option.ite_none_right_eq_some.mp stepped
      obtain ⟨blocks, custody⟩ := inv.custody
      refine ⟨⟨blocks, ?_⟩, current_goto trivial fun s _ => inv.current s, inv.balanced.add out⟩
      rw [holds_goto]
      exact custody.take out (by rw [idle]; rfl)
  | write b next =>
      obtain ⟨out, ⟨⟩⟩ := Option.ite_none_right_eq_some.mp stepped
      obtain ⟨blocks, custody⟩ := inv.custody
      have absent := custody.outside_absent out
      refine ⟨⟨blocks, custody.write absent⟩, fun s => ?_, inv.balanced⟩
      refine Current.store (inv.current s) (fun held => ?_) fun top => ?_
      · rw [custody.taken s b held] at out
        cases out
      · obtain ⟨rest, rfl, _⟩ := Chain.some (top ▸ custody.chain)
        exact absent List.mem_cons_self
  | move t spurious => exact move_inv inv stepped

omit [DecidableEq T] in
theorem initial_inv (next : B → Option B) : Inv (initial next : World B T) :=
  ⟨⟨[], custody_initial⟩, fun _ => trivial, balanced_initial⟩

/-- In every state of every run no block was returned more often than it was added, and
when no call is in progress the chain from the head consists of the blocks that were added
and not yet returned. -/
theorem bag_keeps_blocks {next : B → Option B} {events : List (Event B T)} {w : World B T}
    (run : Run step free (initial next) events w) :
    (∀ b, w.history.count (.returned b) ≤ w.history.count (.added b))
      ∧ ((∀ t, w.pc t = .idle) → ∃ blocks, Chain w.next w.head blocks ∧ blocks.Nodup
        ∧ ∀ b, b ∈ blocks ↔ w.history.count (.returned b) < w.history.count (.added b)) := by
  have inv : Inv w := run_invariant Inv (initial_inv next) step_inv run
  refine ⟨inv.balanced.at_most_once, fun idle => ?_⟩
  obtain ⟨blocks, custody⟩ := inv.custody
  have quiet : ∀ t, (w.pc t).holds = none := by
    intro t
    rw [idle t]
    rfl
  refine ⟨blocks, custody.chain, custody.nodup, fun b => ?_⟩
  rw [← inv.balanced.inside_iff b]
  exact custody.settled quiet b

-- Thread 0 reads the head and its next field, thread 1 takes both blocks out and adds the first
-- again.
def poppedAndPushed : List (Event Bool (Fin 2)) :=
  [.addBlock 1 true, .move 1 false, .move 1 false, .move 1 false, .addBlock 1 false, .move 1 false,
    .move 1 false, .move 1 false,
    .getBlock 0, .move 0 false, .move 0 false, .getBlock 1, .move 1 false, .move 1 false,
      .move 1 false, .move 1 false,
    .getBlock 1, .move 1 false, .move 1 false, .move 1 false, .move 1 false, .addBlock 1 false,
      .move 1 false, .move 1 false, .move 1 false,
    .move 0 false, .move 0 false, .move 0 false, .move 0 false, .move 0 false]

theorem popped_and_pushed_kept :
    ∃ w, Run step free (initial fun _ => none) poppedAndPushed w ∧ w.head = none
    ∧ w.history.count (.returned false) = 2 ∧ w.history.count (.added false) = 2 ∧
      w.history.count (.returned true) ≤ 1 := by
  have replayed : (replay step free poppedAndPushed (initial fun _ => none)).map
      (fun w => (w.head, w.history.count (.returned false), w.history.count (.added false),
        w.history.count (.added true))) = some (none, 2, 2, 1) := by
    decide +kernel
  obtain ⟨w, same, values⟩ := Option.map_eq_some_iff.mp replayed
  simp only [Prod.mk.injEq] at values
  have run := run_of_replay poppedAndPushed same
  have bound := (bag_keeps_blocks run).1 true
  rw [values.2.2.2] at bound
  exact ⟨w, run, values.1, values.2.1, values.2.2.1, bound⟩

end SetBench.BlockBag
