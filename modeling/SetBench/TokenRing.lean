import SetBench.LimboBag
import SetBench.Transition

/-! reclaimer_token1 of common/recordmgr/reclaimer_token1.h in its four variants: vtoken1
rotates its bags before it passes the token, vtoken2 afterwards, vtoken3 also frees what the
rotation left over and passes the token again meanwhile, and vtoken4 frees one object in each
startOp. One step is one read or write of a token, together with what the thread does to its
own bags. `threads` is NUM_PROCESSES and `size` BLOCK_SIZE; tokens are 0 or 1. -/
namespace SetBench.TokenRing

open Transition LimboBag

variable {Object : Type}

inductive Variant where
  | vtoken1
  | vtoken2
  | vtoken3
  | vtoken4
  deriving DecidableEq, Repr

/-- A retired object. `serial` numbers the retire calls of its thread, `during` are the
operations that were in progress at its retirement, `looked` and `taken` say how often each
thread had looked for the token and found it. -/
structure Item (Object : Type) where
  object : Object
  serial : Nat
  during : Nat → Option Nat
  looked : Nat → Nat
  taken : Nat → Nat

inductive Pc where
  | idle
  | check
  -- vtoken1 rotates while it holds the token, the others no longer do.
  | rotateFirst
  | clear (rotated : Bool)
  | give (rotated : Bool)
  | rotate
  | drain (regularTokenCheck : Nat)
  | drainCheck
  | drainClear
  | drainGive
  | finish
  deriving DecidableEq, Repr

/-- The fields of ThreadData but the token. `op` counts the calls of startOp: an operation
lasts from the return of one to the call of the next one. `looks` counts how often the thread
has looked for the token, in a startOp of vtoken3 more than once, `taken` the looks that found
it, and `pooled` are the objects handed to the pool. -/
structure Thread (Object : Type) where
  tokenCount : Nat
  curr : Bag (Item Object)
  last : Bag (Item Object)
  deamortizedFreeables : Bag (Item Object)
  pc : Pc
  op : Nat
  looks : Nat
  taken : Nat
  retired : Nat
  pooled : List (Item Object)

structure World (Object : Type) where
  token : Nat → Bool
  thread : Nat → Thread Object

structure Config where
  variant : Variant
  threads : Nat
  size : Nat

inductive Event (Object : Type) where
  | startOp (tid : Nat)
  | retire (tid : Nat) (object : Object)
  | move (tid : Nat)

def initThread : Thread Object := ⟨0, .empty, .empty, .empty, .idle, 0, 0, 0, 0, []⟩

-- The first thread starts with the token.
def initial : World Object := ⟨fun tid => decide (tid = 0), fun _ => initThread⟩

def World.set (w : World Object) (tid : Nat) (thread : Thread Object) : World Object :=
  { w with thread := Function.update w.thread tid thread }

def World.pass (w : World Object) (tid : Nat) (token : Bool) : World Object :=
  { w with token := Function.update w.token tid token }

def Thread.goto (thread : Thread Object) (pc : Pc) : Thread Object := { thread with pc := pc }

-- addMoveFullBlocks hands the full blocks of the last bag to the pool.
def Thread.freeBlocks (thread : Thread Object) : Thread Object :=
  { thread with pooled := thread.pooled ++ thread.last.moved, last := thread.last.rest }

def Thread.deferBlocks (thread : Thread Object) : Thread Object :=
  { thread with
    deamortizedFreeables := thread.deamortizedFreeables.append thread.last
    last := thread.last.rest }

def Thread.swap (thread : Thread Object) : Thread Object :=
  { thread with last := thread.curr, curr := thread.last }

def Thread.look (thread : Thread Object) (token : Bool) (found missed : Pc) : Thread Object :=
  if token then { thread with looks := thread.looks + 1, taken := thread.taken + 1, pc := found }
  else { thread with looks := thread.looks + 1, pc := missed }

def Thread.drainStep (thread : Thread Object) (regularTokenCheck : Nat) : Thread Object :=
  match thread.last.remove with
  | none => thread.swap.goto .finish
  | some (ptr, rest) =>
      if 100 < regularTokenCheck then thread.goto .drainCheck
      else { thread with
        last := rest
        pooled := thread.pooled ++ [ptr]
        pc := .drain (regularTokenCheck + 1) }

def Thread.freeOne (thread : Thread Object) : Thread Object :=
  match thread.deamortizedFreeables.remove with
  | none => thread
  | some (ptr, rest) =>
      { thread with deamortizedFreeables := rest, pooled := thread.pooled ++ [ptr] }

-- The operation that a thread is in, between two calls of startOp.
def Thread.during (thread : Thread Object) : Option Nat :=
  if thread.pc = .idle then some thread.op else none

def Thread.retire (thread : Thread Object) (size : Nat) (item : Item Object) : Thread Object :=
  { thread with curr := thread.curr.add size item, retired := thread.retired + 1 }

def move (config : Config) (w : World Object) (tid : Nat) : Option (World Object) :=
  let thread := w.thread tid
  let next := (tid + 1) % config.threads
  match thread.pc with
  | .idle => none
  | .check =>
      some (w.set tid (thread.look (w.token tid) (if config.variant = .vtoken1 then .rotateFirst
        else .clear false) .finish))
  | .rotateFirst => some (w.set tid (thread.freeBlocks.swap.goto (.clear true)))
  | .clear rotated =>
      some ((w.pass tid false).set tid
        { thread with tokenCount := thread.tokenCount + 1, pc := .give rotated })
  | .give rotated =>
      some ((w.pass next true).set tid (thread.goto (if rotated then .finish else .rotate)))
  | .rotate =>
      match config.variant with
      | .vtoken1 | .vtoken2 => some (w.set tid (thread.freeBlocks.swap.goto .finish))
      | .vtoken3 => some (w.set tid (thread.freeBlocks.goto (.drain 0)))
      | .vtoken4 => some (w.set tid (thread.deferBlocks.swap.goto .finish))
  | .drain regularTokenCheck => some (w.set tid (thread.drainStep regularTokenCheck))
  | .drainCheck => some (w.set tid (thread.look (w.token tid) .drainClear (.drain 0)))
  | .drainClear =>
      some ((w.pass tid false).set tid
        { thread with tokenCount := thread.tokenCount + 1, pc := .drainGive })
  | .drainGive => some ((w.pass next true).set tid (thread.goto (.drain 0)))
  | .finish =>
      some (w.set tid ((if config.variant = .vtoken4 then thread.freeOne else thread).goto .idle))

def step (config : Config) (w : World Object) : Event Object → Option (World Object)
  | .startOp tid =>
      if tid < config.threads ∧ (w.thread tid).pc = .idle then
        some (w.set tid { w.thread tid with op := (w.thread tid).op + 1, pc := .check })
      else none
  | .retire tid object =>
      if tid < config.threads ∧ (w.thread tid).pc = .idle then
        some (w.set tid ((w.thread tid).retire config.size
          ⟨object, (w.thread tid).retired, fun other => (w.thread other).during,
            fun other => (w.thread other).looks, fun other => (w.thread other).taken⟩))
      else none
  | .move tid => move config w tid

/-! The invariant. -/

-- Between finding the token and passing it on.
def Pc.passing : Pc → Bool
  | .rotateFirst | .clear _ | .give _ | .drainClear | .drainGive => true
  | _ => false

-- The token is cleared and not yet passed on.
def Pc.giving : Pc → Bool
  | .give _ | .drainGive => true
  | _ => false

-- The token was found and the bags are not yet rotated.
def Pc.owing : Pc → Nat
  | .rotateFirst | .rotate | .drain _ | .drainCheck | .drainClear | .drainGive => 1
  | .clear rotated | .give rotated => if rotated then 0 else 1
  | .idle | .check | .finish => 0

def count (number : Nat) (thread : Thread Object) : Nat :=
  tally Item.serial number thread.pooled + thread.deamortizedFreeables.total
    (marks Item.serial number)
    + thread.curr.total (marks Item.serial number) + thread.last.total (marks Item.serial number)

structure ThreadOk (tid : Nat) (thread : Thread Object) : Prop where
  current : ∀ x ∈ thread.curr.items, x.taken tid + thread.pc.owing ≤ thread.taken
  old : ∀ x ∈ thread.last.items, x.taken tid + 1 + thread.pc.owing ≤ thread.taken
  freeable : ∀ x ∈ thread.deamortizedFreeables.items, x.taken tid + 2 ≤ thread.taken
  once : ∀ number, count number thread ≤ if number < thread.retired then 1 else 0

-- The token has gone as often past every thread, or once more past the first ones.
def Staircase (threads : Nat) (taken : Nat → Nat) : Prop :=
  ∀ u v, u ≤ v → v < threads → taken v ≤ taken u ∧ taken u ≤ taken v + 1

def Thread.Holds (thread : Thread Object) (x : Item Object) : Prop :=
  x ∈ thread.curr.items ∨ x ∈ thread.last.items ∨ x ∈ thread.deamortizedFreeables.items

structure Known (threads : Nat) (thread : Nat → Thread Object) (x : Item Object) : Prop where
  stairs : Staircase threads x.taken
  looked : ∀ tid, x.looked tid + (thread tid).taken ≤ x.taken tid + (thread tid).looks
  -- An operation that goes on has not looked since.
  going : ∀ tid op, x.during tid = some op → op < (thread tid).op ∨
    op = (thread tid).op ∧ (thread tid).pc = .idle ∧ (thread tid).looks = x.looked tid

/-- A thread begins its next operation, or it is inside startOp, or it stays in the one it is
in. -/
def Thread.Began (old new : Thread Object) : Prop :=
  old.op < new.op ∨ new.op = old.op ∧ (old.pc = .idle → new.pc = .idle ∧ new.looks = old.looks)

theorem Thread.Began.inside {old new : Thread Object} (moving : old.pc ≠ .idle)
    (op : new.op = old.op) : old.Began new :=
  .inr ⟨op, fun idle => absurd idle moving⟩

def World.Active (w : World Object) (tid : Nat) : Prop :=
  w.token tid = true ∨ (w.thread tid).pc.passing = true

structure Inv (config : Config) (w : World Object) : Prop where
  ok : ∀ tid, ThreadOk tid (w.thread tid)
  outside : ∀ tid, config.threads ≤ tid → (w.thread tid).pc = .idle ∧ ∀ x, ¬ (w.thread tid).Holds x
  stairs : Staircase config.threads fun tid => (w.thread tid).taken
  one : ∀ u v, u < config.threads → v < config.threads → w.Active u → w.Active v → u = v
  given : ∀ tid, (w.thread tid).pc.giving = true → w.token tid = false
  -- A thread that has not yet found the token is the first of those it has passed less often.
  waiting : ∀ tid, tid < config.threads → w.token tid = true → (w.thread tid).pc.passing = false →
    (∀ u, u < tid → (w.thread u).taken = (w.thread tid).taken + 1)
      ∧ ∀ v, tid ≤ v → v < config.threads → (w.thread v).taken = (w.thread tid).taken
  -- One that has found it is the last of those it has passed more often.
  passing : ∀ tid, tid < config.threads → (w.thread tid).pc.passing = true →
    (∀ u, u ≤ tid → (w.thread u).taken = (w.thread tid).taken)
      ∧ ∀ v, tid < v → v < config.threads → (w.thread v).taken + 1 = (w.thread tid).taken
  known : ∀ tid x, (w.thread tid).Holds x → Known config.threads w.thread x

-- Two looks that found the token have each thread look once in between.
theorem Staircase.all_later {threads : Nat} {before after : Nat → Nat}
    (first : Staircase threads before) (second : Staircase threads after) {tid : Nat}
    (active : tid < threads) (twice : before tid + 2 ≤ after tid) (other : Nat)
    (below : other < threads) :
    before other + 1 ≤ after other := by
  rcases Nat.le_total other tid with left | right
  · have start := first other tid left active
    have now := second other tid left active
    omega
  · have start := first tid other right below
    have now := second tid other right below
    omega

section Set

variable {w : World Object} {tid : Nat} {thread : Thread Object}

theorem set_self : (w.set tid thread).thread tid = thread := by
  simp only [World.set, Function.update_self]

theorem set_other {other : Nat} (apart : other ≠ tid) :
    (w.set tid thread).thread other = w.thread other := by
  simp only [World.set]
  rw [Function.update_of_ne apart]

theorem pass_self {token : Bool} : (w.pass tid token).token tid = token := by
  simp only [World.pass, Function.update_self]

theorem pass_other {token : Bool} {other : Nat} (apart : other ≠ tid) :
    (w.pass tid token).token other = w.token other := by
  simp only [World.pass]
  rw [Function.update_of_ne apart]

theorem set_taken (same : thread.taken = (w.thread tid).taken) (other : Nat) :
    ((w.set tid thread).thread other).taken = (w.thread other).taken := by
  by_cases self : other = tid
  · rw [self, set_self, same]
  · rw [set_other self]

theorem set_passing (same : thread.pc.passing = (w.thread tid).pc.passing) (other : Nat) :
    ((w.set tid thread).thread other).pc.passing = (w.thread other).pc.passing := by
  by_cases self : other = tid
  · rw [self, set_self, same]
  · rw [set_other self]

-- The looks of a thread that found the token are among its looks.
theorem Known.set {threads : Nat} {x : Item Object} (known : Known threads w.thread x)
    (later : thread.taken + (w.thread tid).looks ≤ (w.thread tid).taken + thread.looks)
    (began : (w.thread tid).Began thread) :
    Known threads (w.set tid thread).thread x := by
  refine ⟨known.stairs, fun other => ?_, fun other op during => ?_⟩
  · have before := known.looked other
    by_cases self : other = tid
    · subst self
      rw [set_self]
      omega
    · rw [set_other self]
      exact before
  · have before := known.going other op during
    by_cases self : other = tid
    · subst self
      rw [set_self]
      rcases began with next | ⟨same, stays⟩
      · omega
      · rcases before with ended | ⟨here, idle, looks⟩
        · omega
        · obtain ⟨idle', looks'⟩ := stays idle
          exact .inr ⟨here.trans same.symm, idle', looks'.trans looks⟩
    · rw [set_other self]
      exact before

end Set

theorem passing_of_giving {pc : Pc} (giving : pc.giving = true) : pc.passing = true := by
  cases pc with
  | give | drainGive => rfl
  | idle | check | rotateFirst | clear | rotate | drain | drainCheck | drainClear
  | finish => cases giving

theorem not_idle {pc : Pc} (busy : pc.passing = true) : pc ≠ .idle := by
  rintro rfl
  cases busy

section Steps

variable {config : Config} {w : World Object} (inv : Inv config w) {tid : Nat}
    (active : tid < config.threads)

include inv

theorem Inv.active_of {tid : Nat} (moving : (w.thread tid).pc ≠ .idle) : tid < config.threads := by
  by_contra above
  exact moving (inv.outside tid (by omega)).1

theorem Inv.known_set {thread : Thread Object}
    (later : thread.taken + (w.thread tid).looks ≤ (w.thread tid).taken + thread.looks)
    (began : (w.thread tid).Began thread)
    (known : ∀ x, thread.Holds x → Known config.threads w.thread x) (other : Nat)
    (x : Item Object) (held : ((w.set tid thread).thread other).Holds x) :
    Known config.threads (w.set tid thread).thread x := by
  by_cases self : other = tid
  · rw [self, set_self] at held
    exact (known x held).set later began
  · rw [set_other self] at held
    exact (inv.known other x held).set later began

theorem Inv.ok_set {thread : Thread Object} (ok : ThreadOk tid thread) (other : Nat) :
    ThreadOk other ((w.set tid thread).thread other) := by
  by_cases self : other = tid
  · rw [self, set_self]
    exact ok
  · rw [set_other self]
    exact inv.ok other

include active

theorem Inv.outside_set {thread : Thread Object} (other : Nat) (above : config.threads ≤ other) :
    ((w.set tid thread).thread other).pc = .idle ∧ ∀ x, ¬ ((w.set tid thread).thread other).Holds
    x := by
  rw [set_other (by omega)]
  exact inv.outside other above

-- A step that leaves the token and the way it went.
theorem Inv.quiet {thread : Thread Object} (began : (w.thread tid).Began thread)
    (ok : ThreadOk tid thread) (taken : thread.taken = (w.thread tid).taken)
    (looks : (w.thread tid).looks ≤ thread.looks)
    (passing : thread.pc.passing = (w.thread tid).pc.passing) (given : thread.pc.giving = false)
    (known : ∀ x, thread.Holds x → Known config.threads w.thread x) :
    Inv config (w.set tid thread) := by
  have sameTaken := set_taken taken
  have samePassing := set_passing passing
  refine ⟨inv.ok_set ok, inv.outside_set active, ?_, fun u v below below' first second => ?_,
    fun other place => ?_, fun other below token free => ?_, fun other below busy => ?_,
    inv.known_set (by omega) began known⟩
  · simp only [sameTaken]
    exact inv.stairs
  · simp only [World.Active, samePassing] at first second
    exact inv.one u v below below' first second
  · by_cases self : other = tid
    · rw [self, set_self, given] at place
      cases place
    · rw [set_other self] at place
      exact inv.given other place
  · rw [samePassing] at free
    simp only [sameTaken]
    exact inv.waiting other below token free
  · rw [samePassing] at busy
    simp only [sameTaken]
    exact inv.passing other below busy

-- The thread finds the token.
theorem Inv.found {thread : Thread Object} (began : (w.thread tid).Began thread)
    (token : w.token tid = true) (free : (w.thread tid).pc.passing = false)
    (ok : ThreadOk tid thread) (taken : thread.taken = (w.thread tid).taken + 1)
    (looks : thread.looks = (w.thread tid).looks + 1) (passing : thread.pc.passing = true)
    (given : thread.pc.giving = false) (held : ∀ x, thread.Holds x → (w.thread tid).Holds x) :
    Inv config (w.set tid thread) := by
  obtain ⟨left, right⟩ := inv.waiting tid active token free
  have only (other : Nat) (below : other < config.threads) (busy : w.Active other) : other = tid :=
    inv.one other tid below active busy (.inl token)
  have still (other : Nat) (busy : (w.set tid thread).Active other) : w.Active other := by
    by_cases self : other = tid
    · rw [self]
      exact .inl token
    · rw [World.Active, set_other self] at busy
      exact busy
  refine ⟨inv.ok_set ok, inv.outside_set active, fun u v ordered below => ?_,
    fun u v below below' first second => ?_, fun other place => ?_,
    fun other below token' idle => ?_, fun other below busy =>
      ?_, inv.known_set (by omega) began fun x inside => inv.known tid x (held x inside)⟩
  · have before := inv.stairs u v ordered below
    show ((w.set tid thread).thread v).taken ≤ ((w.set tid thread).thread u).taken
      ∧ ((w.set tid thread).thread u).taken ≤ ((w.set tid thread).thread v).taken + 1
    dsimp only at before
    by_cases first : u = tid
    · subst first
      by_cases second : v = u
      · subst second
        rw [set_self]
        omega
      · have level := right v ordered below
        rw [set_self, set_other second]
        omega
    · by_cases second : v = tid
      · subst second
        have level := left u (by omega)
        rw [set_self, set_other first]
        omega
      · rw [set_other first, set_other second]
        exact before
  · exact inv.one u v below below' (still u first) (still v second)
  · by_cases self : other = tid
    · rw [self, set_self, given] at place
      cases place
    · rw [set_other self] at place
      exact inv.given other place
  · have self := only other below (.inl token')
    subst self
    rw [set_self, passing] at idle
    cases idle
  · have self := only other below (still other (.inr busy))
    subst self
    rw [set_self]
    refine ⟨fun u ordered => ?_, fun v later below' => ?_⟩
    · by_cases same : u = other
      · rw [same, set_self]
      · rw [set_other same, taken]
        exact left u (by omega)
    · rw [set_other (by omega), taken]
      have level := right v (by omega) below'
      omega

-- The thread clears its token.
theorem Inv.clear {thread : Thread Object} (busy : (w.thread tid).pc.passing = true)
    (ok : ThreadOk tid thread) (taken : thread.taken = (w.thread tid).taken)
    (op : thread.op = (w.thread tid).op) (looks : thread.looks = (w.thread tid).looks)
    (passing : thread.pc.passing = true) (held : ∀ x, thread.Holds x → (w.thread tid).Holds x) :
    Inv config ((w.pass tid false).set tid thread) := by
  have began : (w.thread tid).Began thread := .inside (not_idle busy) op
  have sameTaken : ∀ other, (((w.pass tid false).set tid thread).thread other).taken =
    (w.thread other).taken :=
    set_taken taken
  have samePassing : ∀ other, (((w.pass tid false).set tid thread).thread other).pc.passing =
    (w.thread other).pc.passing :=
    set_passing (passing.trans busy.symm)
  have fewer (other : Nat) (token : (w.pass tid false).token other = true) :
    w.token other = true := by
    by_cases self : other = tid
    · rw [self, pass_self] at token
      cases token
    · rw [pass_other self] at token
      exact token
  have still (other : Nat) (active' : ((w.pass tid false).set tid thread).Active other) :
    w.Active other := by
    rcases active' with token | busy'
    · exact .inl (fewer other token)
    · rw [samePassing] at busy'
      exact .inr busy'
  refine ⟨inv.ok_set ok, inv.outside_set active, ?_, fun u v below below' first second => ?_,
    fun other place => ?_,
    fun other below token free => ?_, fun other below busy' =>
      ?_, inv.known_set (by omega) began fun x inside => inv.known tid x (held x inside)⟩
  · simp only [sameTaken]
    exact inv.stairs
  · exact inv.one u v below below' (still u first) (still v second)
  · by_cases self : other = tid
    · rw [self]
      exact pass_self
    · have before : (w.thread other).pc.giving = true := by
        rw [set_other self] at place
        exact place
      exact (pass_other self).trans (inv.given other before)
  · rw [samePassing] at free
    simp only [sameTaken]
    exact inv.waiting other below (fewer other token) free
  · rw [samePassing] at busy'
    simp only [sameTaken]
    exact inv.passing other below busy'

-- The thread gives the token to the next one.
theorem Inv.give {thread : Thread Object} (place : (w.thread tid).pc.giving = true)
    (ok : ThreadOk tid thread) (taken : thread.taken = (w.thread tid).taken)
    (op : thread.op = (w.thread tid).op) (looks : thread.looks = (w.thread tid).looks)
    (passing : thread.pc.passing = false) (held : ∀ x, thread.Holds x → (w.thread tid).Holds x) :
    Inv config ((w.pass ((tid + 1) % config.threads) true).set tid thread) := by
  have busy : (w.thread tid).pc.passing = true := passing_of_giving place
  have began : (w.thread tid).Began thread := .inside (not_idle busy) op
  have bound : (tid + 1) % config.threads < config.threads := Nat.mod_lt _ (by omega)
  have only (other : Nat) (below : other < config.threads) (there : w.Active other) : other = tid :=
    inv.one other tid below active there (.inr busy)
  have calm (other : Nat) :
    (((w.pass ((tid + 1) % config.threads) true).set tid thread).thread other).pc.passing =
    false := by
    by_cases self : other = tid
    · rw [self, set_self]
      exact passing
    · rw [set_other self]
      by_contra there
      have moving : (w.thread other).pc ≠ .idle := by
        intro idle
        apply there
        show (w.thread other).pc.passing = false
        rw [idle]
        rfl
      exact self (only other (inv.active_of moving) (.inr (Bool.not_eq_false _ ▸ there)))
  have holder (other : Nat) (below : other < config.threads)
      (token : ((w.pass ((tid + 1) % config.threads) true).set tid thread).token other = true) :
      other = (tid + 1) % config.threads := by
    by_contra apart
    have before : w.token other = true := (pass_other apart).symm.trans token
    have self := only other below (.inl before)
    rw [self, inv.given tid place] at before
    cases before
  have sameTaken : ∀ other, (((w.pass ((tid + 1) % config.threads) true).set tid thread).thread
    other).taken = (w.thread other).taken :=
    set_taken taken
  refine ⟨inv.ok_set ok, inv.outside_set active, ?_, fun u v below below' first second => ?_,
    fun other here => ?_,
    fun other below token _ => ?_, fun other _ busy' =>
      ?_, inv.known_set (by omega) began fun x inside =>
      inv.known tid x (held x inside)⟩
  · simp only [sameTaken]
    exact inv.stairs
  · have left : u = (tid + 1) % config.threads := by
      rcases first with token | busy'
      · exact holder u below token
      · rw [calm] at busy'
        cases busy'
    rcases second with token | busy'
    · rw [left, holder v below' token]
    · rw [calm] at busy'
      cases busy'
  · have quiet := calm other
    rw [passing_of_giving here] at quiet
    cases quiet
  · obtain ⟨left, right⟩ := inv.passing tid active busy
    rw [holder other below token]
    simp only [sameTaken]
    by_cases wraps : tid + 1 = config.threads
    · rw [wraps, Nat.mod_self]
      refine ⟨fun u low => absurd low (Nat.not_lt_zero u), fun v _ below' => ?_⟩
      rw [left v (by omega), left 0 (by omega)]
    · rw [Nat.mod_eq_of_lt (by omega)]
      have level := right (tid + 1) (by omega) (by omega)
      refine ⟨fun u low => ?_, fun v high below' => ?_⟩
      · rw [left u (by omega), level]
      · have same := right v (by omega) below'
        omega
  · rw [calm] at busy'
    cases busy'

end Steps

/-! A thread and its bags. -/

section Bags

variable {tid : Nat} {thread : Thread Object} (ok : ThreadOk tid thread)

include ok

theorem ThreadOk.moved {next : Thread Object}
    (later : next.pc.owing + thread.taken ≤ thread.pc.owing + next.taken)
    (more : thread.taken ≤ next.taken) (curr : next.curr = thread.curr)
    (last : next.last = thread.last)
    (freeables : next.deamortizedFreeables = thread.deamortizedFreeables)
    (pooled : next.pooled = thread.pooled) (retired : next.retired = thread.retired) :
    ThreadOk tid next := by
  refine ⟨fun x member => ?_, fun x member => ?_, fun x member => ?_, fun number => ?_⟩
  · rw [curr] at member
    have before := ok.current x member
    omega
  · rw [last] at member
    have before := ok.old x member
    omega
  · rw [freeables] at member
    have before := ok.freeable x member
    omega
  · rw [count, curr, last, freeables, pooled, retired]
    exact ok.once number

theorem ThreadOk.goto {pc : Pc} (owing : pc.owing ≤ thread.pc.owing) :
    ThreadOk tid (thread.goto pc) :=
  ok.moved (Nat.add_le_add_right owing thread.taken) (Nat.le_refl _) rfl rfl rfl rfl rfl

theorem ThreadOk.freeBlocks : ThreadOk tid thread.freeBlocks := by
  refine ⟨ok.current, fun x member => ok.old x (Bag.mem_rest member), ok.freeable, fun number => ?_⟩
  have before := ok.once number
  have parts := Bag.total_rest (marks Item.serial number) thread.last
  have joined := tally_append Item.serial number thread.pooled thread.last.moved
  have same : tally Item.serial number thread.last.moved =
    (thread.last.moved.map (marks Item.serial number)).sum := rfl
  have next : count number thread.freeBlocks = count number thread := by
    simp only [count, Thread.freeBlocks]
    omega
  rw [next]
  exact before

theorem ThreadOk.deferBlocks (owing : thread.pc.owing = 1) : ThreadOk tid thread.deferBlocks := by
  refine ⟨ok.current, fun x member => ok.old x (Bag.mem_rest member), fun x member => ?_,
    fun number => ?_⟩
  · rcases Bag.mem_append.mp member with earlier | now
    · exact ok.freeable x earlier
    · have before := ok.old x (Bag.mem_moved now)
      rw [owing] at before
      exact before
  · have before := ok.once number
    have parts := Bag.total_rest (marks Item.serial number) thread.last
    have joined := Bag.total_append (marks Item.serial number) thread.deamortizedFreeables
      thread.last
    have next : count number thread.deferBlocks = count number thread := by
      simp only [count, Thread.deferBlocks]
      omega
    rw [next]
    exact before

theorem ThreadOk.swap {pc : Pc} (owing : thread.pc.owing = 1) (done : pc.owing = 0) :
    ThreadOk tid (thread.swap.goto pc) := by
  refine ⟨fun x member => ?_, fun x member => ?_, ok.freeable, fun number => ?_⟩
  · have before := ok.old x member
    show x.taken tid + pc.owing ≤ thread.taken
    omega
  · have before := ok.current x member
    show x.taken tid + 1 + pc.owing ≤ thread.taken
    omega
  · have before := ok.once number
    have next : count number (thread.swap.goto pc) = count number thread := by
      simp only [count, Thread.swap, Thread.goto]
      omega
    rw [next]
    exact before

theorem ThreadOk.drainStep {regularTokenCheck : Nat}
    (place : thread.pc = .drain regularTokenCheck) :
    ThreadOk tid (thread.drainStep regularTokenCheck) := by
  have owing : thread.pc.owing = 1 := by
    rw [place]
    rfl
  unfold Thread.drainStep
  split
  · exact ok.swap owing rfl
  · rename_i ptr rest removed
    have items := Bag.remove_items removed
    split
    · exact ok.goto (Nat.le_of_eq owing.symm)
    · refine ⟨fun x member => ?_, fun x member => ?_, ok.freeable, fun number => ?_⟩
      · have before := ok.current x member
        rw [owing] at before
        exact before
      · have before := ok.old x (by rw [items]; exact List.mem_cons_of_mem ptr member)
        rw [owing] at before
        exact before
      · have before := ok.once number
        have parts := Bag.total_remove (marks Item.serial number) removed
        have joined := tally_append Item.serial number thread.pooled [ptr]
        have single : tally Item.serial number [ptr] = marks Item.serial number ptr :=
          Nat.add_zero _
        simp only [count] at before ⊢
        omega

theorem ThreadOk.freeOne : ThreadOk tid thread.freeOne := by
  unfold Thread.freeOne
  split
  · exact ok
  · rename_i ptr rest removed
    have items := Bag.remove_items removed
    refine ⟨ok.current, ok.old,
      fun x member => ok.freeable x (by rw [items]; exact List.mem_cons_of_mem ptr member),
      fun number => ?_⟩
    have before := ok.once number
    have parts := Bag.total_remove (marks Item.serial number) removed
    have joined := tally_append Item.serial number thread.pooled [ptr]
    have single : tally Item.serial number [ptr] = marks Item.serial number ptr := Nat.add_zero _
    simp only [count] at before ⊢
    omega

theorem ThreadOk.retire {size : Nat} {item : Item Object} (place : thread.pc = .idle)
    (now : item.taken tid = thread.taken) (serial : item.serial = thread.retired) :
    ThreadOk tid (thread.retire size item) := by
  have owing : thread.pc.owing = 0 := by
    rw [place]
    rfl
  refine ⟨fun x member => ?_, ok.old, ok.freeable, fun number => ?_⟩
  · show x.taken tid + thread.pc.owing ≤ thread.taken
    rcases Bag.mem_add.mp member with rfl | old
    · omega
    · exact ok.current x old
  · have before := ok.once number
    have added := Bag.total_add (marks Item.serial number) size thread.curr item
    have mark : marks Item.serial number item = if thread.retired = number then 1 else 0 := by
      rw [marks, serial]
    have next : count number (thread.retire size item) = count number thread + marks Item.serial
      number item := by
      simp only [count, Thread.retire]
      omega
    show count number (thread.retire size item) ≤ if number < thread.retired + 1 then 1 else 0
    rw [next, mark]
    exact once_more before

omit ok

theorem freeBlocks_holds {x : Item Object} (held : thread.freeBlocks.Holds x) : thread.Holds x := by
  rcases held with curr | last | free
  · exact .inl curr
  · exact .inr (.inl (Bag.mem_rest last))
  · exact .inr (.inr free)

theorem deferBlocks_holds {x : Item Object} (held : thread.deferBlocks.Holds x) :
    thread.Holds x := by
  rcases held with curr | last | free
  · exact .inl curr
  · exact .inr (.inl (Bag.mem_rest last))
  · rcases Bag.mem_append.mp free with old | new
    · exact .inr (.inr old)
    · exact .inr (.inl (Bag.mem_moved new))

theorem swap_holds {x : Item Object} {pc : Pc} (held : (thread.swap.goto pc).Holds x) :
    thread.Holds x := by
  rcases held with curr | last | free
  · exact .inr (.inl curr)
  · exact .inl last
  · exact .inr (.inr free)

theorem freeOne_holds {x : Item Object} (held : thread.freeOne.Holds x) : thread.Holds x := by
  unfold Thread.freeOne at held
  split at held
  · exact held
  · rename_i ptr rest removed
    rcases held with curr | last | free
    · exact .inl curr
    · exact .inr (.inl last)
    · refine .inr (.inr ?_)
      rw [Bag.remove_items removed]
      exact List.mem_cons_of_mem ptr free

theorem drainStep_fields (thread : Thread Object) (regularTokenCheck : Nat) :
    (thread.drainStep regularTokenCheck).taken = thread.taken ∧
    (thread.drainStep regularTokenCheck).op = thread.op ∧
    (thread.drainStep regularTokenCheck).looks = thread.looks
      ∧ (thread.drainStep regularTokenCheck).pc.passing = false ∧
        (thread.drainStep regularTokenCheck).pc.giving = false := by
  unfold Thread.drainStep
  split
  · exact ⟨rfl, rfl, rfl, rfl, rfl⟩
  · split <;> exact ⟨rfl, rfl, rfl, rfl, rfl⟩

theorem freeOne_fields (thread : Thread Object) :
    thread.freeOne.taken = thread.taken ∧ thread.freeOne.op = thread.op ∧
    thread.freeOne.looks = thread.looks := by
  unfold Thread.freeOne
  split <;> exact ⟨rfl, rfl, rfl⟩

theorem drainStep_holds {x : Item Object} {regularTokenCheck : Nat}
    (held : (thread.drainStep regularTokenCheck).Holds x) : thread.Holds x := by
  unfold Thread.drainStep at held
  split at held
  · exact swap_holds held
  · rename_i ptr rest removed
    split at held
    · exact held
    · rcases held with curr | last | free
      · exact .inl curr
      · refine .inr (.inl ?_)
        rw [Bag.remove_items removed]
        exact List.mem_cons_of_mem ptr last
      · exact .inr (.inr free)

theorem retire_holds {size : Nat} {item x : Item Object}
    (held : (thread.retire size item).Holds x) : x = item ∨ thread.Holds x := by
  rcases held with curr | last | free
  · rcases Bag.mem_add.mp curr with same | old
    · exact .inl same
    · exact .inr (.inl old)
  · exact .inr (.inr (.inl last))
  · exact .inr (.inr (.inr free))

end Bags

/-! The steps. -/

section Move

variable {config : Config} {w : World Object} (inv : Inv config w)

include inv

theorem Inv.look {tid : Nat} (active : tid < config.threads) {found missed : Pc}
    (moving : (w.thread tid).pc ≠ .idle) (free : (w.thread tid).pc.passing = false)
    (busy : found.passing = true) (given : found.giving = false) (calm : missed.passing = false)
    (more : found.owing ≤ (w.thread tid).pc.owing + 1)
    (same : missed.owing ≤ (w.thread tid).pc.owing) :
    Inv config (w.set tid ((w.thread tid).look (w.token tid) found missed)) := by
  have ok := inv.ok tid
  unfold Thread.look
  split
  · rename_i token
    refine inv.found active (.inside moving rfl) token free
      (ok.moved ?_ (Nat.le_succ _) rfl rfl rfl rfl rfl) rfl rfl busy given fun x held => held
    show found.owing + (w.thread tid).taken ≤ (w.thread tid).pc.owing + ((w.thread tid).taken + 1)
    omega
  · refine inv.quiet active (.inside moving rfl)
      (ok.moved ?_ (Nat.le_refl _) rfl rfl rfl rfl rfl) rfl (Nat.le_succ _)
      (calm.trans free.symm) ?_
      fun x held => inv.known tid x held
    · exact Nat.add_le_add_right same _
    · by_contra giving
      have wrong := passing_of_giving (Bool.not_eq_false _ ▸ giving)
      rw [calm] at wrong
      cases wrong

theorem move_inv {tid : Nat} {after : World Object} (moved : move config w tid = some after) :
    Inv config after := by
  have ok := inv.ok tid
  by_cases idle : (w.thread tid).pc = .idle
  · rw [move, idle] at moved
    cases moved
  have active : tid < config.threads := inv.active_of idle
  unfold move at moved
  dsimp only at moved
  split at moved
  · cases moved
  · rename_i place
    cases moved
    refine inv.look active idle (by rw [place]; rfl) ?_ ?_ rfl ?_ (Nat.zero_le _)
    · split <;> rfl
    · split <;> rfl
    · rw [place]
      split <;> exact Nat.le_refl 1
  · rename_i place
    cases moved
    have owing : (w.thread tid).freeBlocks.pc.owing = 1 := by
      show (w.thread tid).pc.owing = 1
      rw [place]
      rfl
    exact inv.quiet active (.inside idle rfl) (ok.freeBlocks.swap owing rfl) rfl
      (Nat.le_refl _) (by rw [place]; rfl) rfl
      fun x held => inv.known tid x (freeBlocks_holds (swap_holds held))
  · rename_i rotated place
    cases moved
    refine inv.clear active (by rw [place]; rfl)
      (ok.moved ?_ (Nat.le_refl _) rfl rfl rfl rfl rfl) rfl rfl rfl rfl
      fun x held => held
    rw [place]
    exact Nat.le_refl _
  · rename_i rotated place
    cases moved
    refine inv.give active (by rw [place]; rfl) (ok.goto ?_) rfl rfl rfl ?_
      fun x held => held
    · rw [place]
      cases rotated <;> exact Nat.le_refl _
    · cases rotated <;> rfl
  · rename_i place
    have owing : (w.thread tid).pc.owing = 1 := by
      rw [place]
      rfl
    split at moved <;> cases moved
    · exact inv.quiet active (.inside idle rfl) (ok.freeBlocks.swap owing rfl) rfl (Nat.le_refl _)
        (by rw [place]; rfl) rfl
        fun x held => inv.known tid x (freeBlocks_holds (swap_holds held))
    · exact inv.quiet active (.inside idle rfl) (ok.freeBlocks.swap owing rfl) rfl (Nat.le_refl _)
        (by rw [place]; rfl) rfl
        fun x held => inv.known tid x (freeBlocks_holds (swap_holds held))
    · exact inv.quiet active (.inside idle rfl) (ok.freeBlocks.goto (Nat.le_of_eq owing.symm)) rfl
        (Nat.le_refl _)
        (by rw [place]; rfl) rfl
        fun x held => inv.known tid x (freeBlocks_holds held)
    · exact inv.quiet active (.inside idle rfl) ((ok.deferBlocks owing).swap owing rfl) rfl
        (Nat.le_refl _)
        (by rw [place]; rfl) rfl
        fun x held => inv.known tid x (deferBlocks_holds (swap_holds held))
  · rename_i regularTokenCheck place
    cases moved
    obtain ⟨taken, op, looks, passing, giving⟩ := drainStep_fields (w.thread tid) regularTokenCheck
    exact inv.quiet active (.inside idle op) (ok.drainStep place) taken
      (Nat.le_of_eq looks.symm)
      (by rw [place, passing]; rfl) giving
      fun x held => inv.known tid x (drainStep_holds held)
  · rename_i place
    cases moved
    refine inv.look active idle (by rw [place]; rfl) rfl rfl rfl ?_ ?_
    · exact Nat.le_add_left 1 _
    · rw [place]
      exact Nat.le_refl 1
  · rename_i place
    cases moved
    refine inv.clear active (by rw [place]; rfl)
      (ok.moved ?_ (Nat.le_refl _) rfl rfl rfl rfl rfl) rfl rfl rfl rfl
      fun x held => held
    rw [place]
    exact Nat.le_refl _
  · rename_i place
    cases moved
    refine inv.give active (by rw [place]; rfl) (ok.goto ?_) rfl rfl rfl rfl
      fun x held => held
    rw [place]
    exact Nat.le_refl _
  · rename_i place
    cases moved
    split
    · obtain ⟨taken, op, looks⟩ := freeOne_fields (w.thread tid)
      exact inv.quiet active (.inside idle op) (ok.freeOne.goto (Nat.zero_le _)) taken
        (Nat.le_of_eq looks.symm)
        (by rw [place]; rfl) rfl
        fun x held => inv.known tid x (freeOne_holds held)
    · exact inv.quiet active (.inside idle rfl) (ok.goto (Nat.zero_le _)) rfl (Nat.le_refl _)
        (by rw [place]; rfl) rfl
        fun x held => inv.known tid x held

end Move

theorem step_inv (config : Config) (before : World Object) (event : Event Object)
    (after : World Object) (inv : Inv config before) (_ : free before event)
    (stepped : step config before event = some after) : Inv config after := by
  cases event with
  | startOp tid =>
      obtain ⟨⟨active, idle⟩, ⟨⟩⟩ := Option.ite_none_right_eq_some.mp stepped
      refine inv.quiet active (.inl (Nat.lt_succ_self _))
        ((inv.ok tid).moved ?_ (Nat.le_refl _) rfl rfl rfl rfl rfl) rfl (Nat.le_refl _)
        (by rw [idle]; rfl) rfl fun x held => inv.known tid x held
      rw [idle]
      exact Nat.le_refl _
  | retire tid object =>
      obtain ⟨⟨active, idle⟩, ⟨⟩⟩ := Option.ite_none_right_eq_some.mp stepped
      refine inv.quiet active (.inr ⟨rfl, fun idle => ⟨idle, rfl⟩⟩)
        ((inv.ok tid).retire idle rfl rfl) rfl (Nat.le_refl _) rfl ?_ fun x held => ?_
      · show (before.thread tid).pc.giving = false
        rw [idle]
        rfl
      · rcases retire_holds held with rfl | old
        · refine ⟨inv.stairs, fun other => Nat.le_of_eq (Nat.add_comm _ _),
            fun other op during => ?_⟩
          obtain ⟨still, same⟩ := Option.ite_none_right_eq_some.mp during
          exact .inr ⟨(Option.some.inj same).symm, still, rfl⟩
        · exact inv.known tid x old
  | move tid => exact move_inv inv stepped

theorem initial_inv (config : Config) : Inv config (initial : World Object) := by
  have first (tid : Nat) (active : (initial : World Object).Active tid) : tid = 0 := by
    rcases active with token | passing
    · exact of_decide_eq_true token
    · cases passing
  have empty (tid : Nat) (x : Item Object) : ¬ ((initial : World Object).thread tid).Holds x := by
    rintro (curr | last | free)
    · cases curr
    · cases last
    · cases free
  refine ⟨fun tid => ⟨nofun, nofun, nofun, fun number => Nat.zero_le _⟩,
    fun tid _ => ⟨rfl, empty tid⟩, fun _ _ _ _ => ⟨Nat.le_refl 0, Nat.zero_le _⟩,
    fun u v _ _ left right => ?_, nofun, fun tid _ token _ => ?_, nofun, fun tid x held =>
      absurd held (empty tid x)⟩
  · rw [first u left, first v right]
  · rw [first tid (.inl token)]
    exact ⟨nofun, fun _ _ _ => rfl⟩

-- What a step of a thread hands to the pool it held, and found the token twice since.
def Pools (tid : Nat) (old new : Thread Object) : Prop :=
  ∃ handed, new.pooled = old.pooled ++ handed ∧ ∀ x ∈ handed, old.Holds x ∧
    x.taken tid + 2 ≤ old.taken

theorem Pools.same {tid : Nat} {old new : Thread Object} (same : new.pooled = old.pooled) :
    Pools tid old new :=
  ⟨[], by rw [List.append_nil, same], nofun⟩

theorem freeBlocks_pools {tid : Nat} {thread : Thread Object} (ok : ThreadOk tid thread)
    (owing : thread.pc.owing = 1) {next : Thread Object}
    (pooled : next.pooled = thread.freeBlocks.pooled) : Pools tid thread next := by
  refine ⟨thread.last.moved, pooled, fun x member => ?_⟩
  have old := ok.old x (Bag.mem_moved member)
  exact ⟨.inr (.inl (Bag.mem_moved member)), by omega⟩

theorem drainStep_pools {tid : Nat} {thread : Thread Object} (ok : ThreadOk tid thread)
    {regularTokenCheck : Nat} (place : thread.pc = .drain regularTokenCheck) :
    Pools tid thread (thread.drainStep regularTokenCheck) := by
  unfold Thread.drainStep
  split
  · exact .same rfl
  · rename_i ptr rest removed
    split
    · exact .same rfl
    · refine ⟨[ptr], rfl, fun x member => ?_⟩
      have here : x ∈ thread.last.items := by
        rw [List.mem_singleton.mp member, Bag.remove_items removed]
        exact List.mem_cons_self
      have old := ok.old x here
      rw [place] at old
      exact ⟨.inr (.inl here), old⟩

theorem freeOne_pools {tid : Nat} {thread : Thread Object} (ok : ThreadOk tid thread) {pc : Pc} :
    Pools tid thread (thread.freeOne.goto pc) := by
  unfold Thread.freeOne
  split
  · exact .same rfl
  · rename_i ptr rest removed
    refine ⟨[ptr], rfl, fun x member => ?_⟩
    have here : x ∈ thread.deamortizedFreeables.items := by
      rw [List.mem_singleton.mp member, Bag.remove_items removed]
      exact List.mem_cons_self
    exact ⟨.inr (.inr here), ok.freeable x here⟩

theorem pools_set {w : World Object} {tid : Nat} {thread : Thread Object}
    (pools : Pools tid (w.thread tid) thread) (other : Nat) :
    Pools other (w.thread other) ((w.set tid thread).thread other) := by
  by_cases self : other = tid
  · rw [self, set_self]
    exact pools
  · rw [set_other self]
    exact .same rfl

theorem move_pools {config : Config} {w after : World Object} (inv : Inv config w) {tid : Nat}
    (moved : move config w tid = some after) (other : Nat) :
    Pools other (w.thread other) (after.thread other) := by
  have ok := inv.ok tid
  unfold move at moved
  dsimp only at moved
  split at moved
  · cases moved
  · cases moved
    refine pools_set (.same ?_) other
    unfold Thread.look
    split <;> rfl
  · rename_i place
    cases moved
    exact pools_set (freeBlocks_pools ok (by rw [place]; rfl) (by rfl)) other
  · cases moved
    exact pools_set (.same (by rfl)) other
  · cases moved
    exact pools_set (.same (by rfl)) other
  · rename_i place
    have owing : (w.thread tid).pc.owing = 1 := by
      rw [place]
      rfl
    split at moved <;> cases moved
    · exact pools_set (freeBlocks_pools ok owing (by rfl)) other
    · exact pools_set (freeBlocks_pools ok owing (by rfl)) other
    · exact pools_set (freeBlocks_pools ok owing (by rfl)) other
    · exact pools_set (.same (by rfl)) other
  · rename_i place
    cases moved
    exact pools_set (drainStep_pools ok place) other
  · cases moved
    refine pools_set (.same ?_) other
    unfold Thread.look
    split <;> rfl
  · cases moved
    exact pools_set (.same (by rfl)) other
  · cases moved
    exact pools_set (.same (by rfl)) other
  · cases moved
    refine pools_set ?_ other
    split
    · exact freeOne_pools ok
    · exact .same rfl

theorem step_pools {config : Config} {w after : World Object} (inv : Inv config w)
    {event : Event Object} (stepped : step config w event = some after) (other : Nat) :
    Pools other (w.thread other) (after.thread other) := by
  cases event with
  | startOp tid | retire tid object =>
      obtain ⟨_, ⟨⟩⟩ := Option.ite_none_right_eq_some.mp stepped
      exact pools_set (.same (by rfl)) other
  | move tid => exact move_pools inv stepped other

/-- In every variant one thread at most has the token; when a step hands objects to the pool,
every operation that was in progress when they were retired has ended, as its thread has called
startOp again, and every thread has looked for the token since; and the retire calls whose objects
were handed over are all different. -/
theorem token_ring_reclaims_safely {config : Config} {events : List (Event Object)}
    {w : World Object} (run : Run (step config) free initial events w) :
    (∀ u v, u < config.threads → v < config.threads → w.token u = true → w.token v = true → u = v)
      ∧ (∀ event after tid handed, step config w event = some after →
        (after.thread tid).pooled = (w.thread tid).pooled ++ handed →
        ∀ x ∈ handed, ∀ other, other < config.threads →
          (∀ op, x.during other = some op → op < (w.thread other).op) ∧
          x.looked other < (w.thread other).looks)
      ∧ ∀ tid, ((w.thread tid).pooled.map Item.serial).Nodup := by
  have inv : Inv config w := run_invariant (Inv config) (initial_inv config) (step_inv config) run
  refine ⟨fun u v below below' first second => inv.one u v below below' (.inl first) (.inl second),
    fun event after tid handed stepped pooled x member other below => ?_, fun tid => ?_⟩
  · obtain ⟨list, same, safe⟩ := step_pools inv stepped tid
    rw [pooled] at same
    obtain ⟨held, twice⟩ := safe x (List.append_cancel_left same ▸ member)
    have known := inv.known tid x held
    have active : tid < config.threads := by
      by_contra above
      exact (inv.outside tid (by omega)).2 x held
    have later := known.stairs.all_later inv.stairs active twice other below
    have looks := known.looked other
    have since : x.looked other < (w.thread other).looks := by omega
    refine ⟨fun op during => ?_, since⟩
    rcases known.going other op during with ended | ⟨_, _, same⟩
    · exact ended
    · omega
  · refine nodup_of_tally fun number => ?_
    have bound := (inv.ok tid).once number
    unfold count at bound
    split at bound <;> omega

-- Thread 1 is in its first operation at the retirement. The token goes from thread 0 to thread 1
-- and back; thread 0 passes it on and is about to rotate.
def retireAndPass : List (Event Unit) :=
  [.startOp 1, .move 1, .move 1, .retire 0 (), .startOp 0, .move 0, .move 0, .move 0, .move 0,
    .move 0, .startOp 1, .move 1, .move 1, .move 1, .move 1, .move 1,
    .startOp 0, .move 0, .move 0, .move 0]

theorem retired_object_passed_round :
    ∃ w after x, Run (step ⟨.vtoken2, 2, 1⟩) free initial retireAndPass w
    ∧ step ⟨.vtoken2, 2, 1⟩ w (.move 0) = some after ∧ (after.thread 0).pooled =
      (w.thread 0).pooled ++ [x] ∧ x.during 1 = some 1 ∧ 1 < (w.thread 1).op
    ∧ ((w.thread 0).pooled.map Item.serial).Nodup := by
  have replayed : (replay (step ⟨.vtoken2, 2, 1⟩) free retireAndPass initial).map (fun w =>
      ((step ⟨.vtoken2, 2, 1⟩ w (.move 0)).map fun after =>
        (after.thread 0).pooled.map fun x => x.during 1, (w.thread 0).pooled.length)) =
      some (some [some 1], 0) := by
    decide +kernel
  obtain ⟨w, same, values⟩ := Option.map_eq_some_iff.mp replayed
  simp only [Prod.mk.injEq] at values
  obtain ⟨after, stepped, handed⟩ := Option.map_eq_some_iff.mp values.1
  obtain ⟨x, pooled, during⟩ := List.map_eq_singleton_iff.mp handed
  have more : (after.thread 0).pooled = (w.thread 0).pooled ++ [x] := by
    rw [pooled, List.eq_nil_of_length_eq_zero values.2]
    rfl
  have run := run_of_replay retireAndPass same
  have safe := token_ring_reclaims_safely run
  have ended := (safe.2.1 _ after 0 [x] stepped more x List.mem_cons_self 1 (by decide)).1
  exact ⟨w, after, x, run, stepped, more, during, ended 1 during, safe.2.2 0⟩

end SetBench.TokenRing
