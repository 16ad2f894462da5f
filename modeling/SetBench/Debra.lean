import SetBench.LimboBag
import SetBench.Transition

/-! reclaimer_debra of common/recordmgr/reclaimer_debra.h with three epoch bags and freeing
spread over the operations. One step is one read, write or compare-and-swap of the epoch or
of an announcement, together with what the thread does to its own bags. `threads` is
NUM_PROCESSES, `size` BLOCK_SIZE and `period` MIN_OPS_BEFORE_READ. -/
namespace SetBench.Debra

open Transition LimboBag

variable {Object : Type}

/-- A retired object. `serial` numbers the retire calls of its thread, `epoch` is the epoch
at its retirement and `during` the operations that were then in progress. -/
structure Item (Object : Type) where
  object : Object
  serial : Nat
  epoch : Nat
  during : Nat → Option Nat

inductive Pc where
  | idle
  | reading
  | freeing (readEpoch : Nat)
  | announcing (readEpoch : Nat)
  | scanning (readEpoch : Nat)
  | advancing (readEpoch : Nat)
  deriving DecidableEq, Repr

/-- The fields of ThreadData. `op` numbers the operations of the thread, `inside` holds from
the announcement of one to its endOp and `began` is the epoch at that announcement; `pooled`
are the objects handed to the pool. -/
structure Thread (Object : Type) where
  announcedEpoch : Nat
  localEpoch : Nat
  epochbags : Fin 3 → Bag (Item Object)
  index : Fin 3
  deamortizedFreeables : Bag (Item Object)
  checked : Nat
  opsSinceRead : Nat
  pc : Pc
  op : Nat
  inside : Bool
  began : Nat
  retired : Nat
  pooled : List (Item Object)

structure World (Object : Type) where
  epoch : Nat
  thread : Nat → Thread Object

structure Config where
  threads : Nat
  size : Nat
  period : Nat

inductive Event (Object : Type) where
  | startOp (tid : Nat)
  | endOp (tid : Nat)
  | retire (tid : Nat) (object : Object)
  | move (tid : Nat)

def bitsEpoch (ann : Nat) : Nat := ann - ann % 2

def quiescent (ann : Nat) : Bool := ann % 2 = 1

def getWithQuiescent (ann : Nat) : Nat := ann ||| 1

def initThread : Thread Object :=
  ⟨getWithQuiescent 0, getWithQuiescent 0, fun _ => .empty, 0, .empty, 0, 0, .idle, 0, false, 0,
    0, []⟩

def initial : World Object := ⟨0, fun _ => initThread⟩

def World.set (w : World Object) (tid : Nat) (thread : Thread Object) : World Object :=
  { w with thread := Function.update w.thread tid thread }

def during (w : World Object) (tid : Nat) : Option Nat :=
  if (w.thread tid).inside then some (w.thread tid).op else none

-- The full blocks of the oldest bag become freeable, and that bag the current one.
def Thread.rotateEpochBags (thread : Thread Object) : Thread Object :=
  let nextIndex := thread.index + 1
  let freeable := thread.epochbags nextIndex
  { thread with
    deamortizedFreeables := thread.deamortizedFreeables.append freeable
    epochbags := Function.update thread.epochbags nextIndex freeable.rest
    index := nextIndex }

def Thread.read (thread : Thread Object) (readEpoch : Nat) : Thread Object :=
  let ann := thread.localEpoch
  let next := { thread with localEpoch := readEpoch, pc := .freeing readEpoch }
  if readEpoch ≠ ann then { next with checked := 0 }.rotateEpochBags else next

def Thread.free (thread : Thread Object) (readEpoch : Nat) : Thread Object :=
  match thread.deamortizedFreeables.remove with
  | some (item, rest) =>
      { thread with
        deamortizedFreeables := rest
        pooled := thread.pooled ++ [item]
        pc := .announcing readEpoch }
  | none => { thread with pc := .announcing readEpoch }

def Thread.announce (thread : Thread Object) (period epoch readEpoch : Nat) : Thread Object :=
  let next :=
    { thread with announcedEpoch := readEpoch, op := thread.op + 1, inside := true, began := epoch }
  if thread.opsSinceRead + 1 =
    period then { next with opsSinceRead := 0, pc := .scanning readEpoch }
  else { next with opsSinceRead := thread.opsSinceRead + 1, pc := .idle }

def Thread.scan (thread : Thread Object) (threads otherAnnounce readEpoch : Nat) : Thread Object :=
  if bitsEpoch otherAnnounce = readEpoch ∨ quiescent otherAnnounce = true then
    { thread with
      checked := thread.checked + 1
      pc := if threads ≤ thread.checked + 1 then .advancing readEpoch else .idle }
  else { thread with pc := .idle }

def Thread.retire (thread : Thread Object) (size : Nat) (item : Item Object) : Thread Object :=
  { thread with
    epochbags := Function.update thread.epochbags thread.index
      ((thread.epochbags thread.index).add size item)
    retired := thread.retired + 1 }

def move (config : Config) (w : World Object) (tid : Nat) : Option (World Object) :=
  let thread := w.thread tid
  match thread.pc with
  | .idle => none
  | .reading => some (w.set tid (thread.read w.epoch))
  | .freeing readEpoch => some (w.set tid (thread.free readEpoch))
  | .announcing readEpoch => some (w.set tid (thread.announce config.period w.epoch readEpoch))
  | .scanning readEpoch =>
      some (w.set tid (thread.scan config.threads (w.thread thread.checked).announcedEpoch
        readEpoch))
  | .advancing readEpoch =>
      let next := w.set tid { thread with pc := .idle }
      if w.epoch = readEpoch then some { next with epoch := readEpoch + 2 } else some next

def step (config : Config) (w : World Object) : Event Object → Option (World Object)
  | .startOp tid =>
      if tid < config.threads ∧ (w.thread tid).pc = .idle then
        some (w.set tid { w.thread tid with pc := .reading })
      else none
  | .endOp tid =>
      if tid < config.threads ∧ (w.thread tid).pc = .idle then
        some (w.set tid { w.thread tid with
          announcedEpoch := getWithQuiescent (w.thread tid).localEpoch
          inside := false })
      else none
  | .retire tid object =>
      if tid < config.threads ∧ (w.thread tid).pc = .idle then
        some (w.set tid ((w.thread tid).retire config.size ⟨object, (w.thread tid).retired, w.epoch,
          during w⟩))
      else none
  | .move tid => move config w tid

/-! The invariant. -/

def Pc.Ok (pc : Pc) (threads localEpoch checked : Nat) : Prop :=
  match pc with
  | .idle | .reading => True
  | .freeing readEpoch | .announcing readEpoch | .scanning readEpoch =>
      localEpoch = readEpoch ∧ readEpoch % 2 = 0
  | .advancing readEpoch => localEpoch = readEpoch ∧ readEpoch % 2 = 0 ∧ threads ≤ checked

def count (number : Nat) (thread : Thread Object) : Nat :=
  tally Item.serial number thread.pooled + thread.deamortizedFreeables.total
    (marks Item.serial number)
    + bagsTotal (marks Item.serial number) thread.epochbags

-- What the bags of a thread say about the epochs at which their objects were retired.
structure Aged (epoch : Nat) (thread : Thread Object) : Prop where
  current : ∀ x ∈ (thread.epochbags thread.index).items, x.epoch ≤ epoch
  middle : ∀ x ∈ (thread.epochbags (thread.index + 2)).items, x.epoch ≤ thread.localEpoch ∧
    thread.localEpoch % 2 = 0
  oldest : ∀ x ∈ (thread.epochbags (thread.index + 1)).items, x.epoch + 2 ≤ thread.localEpoch ∧
    thread.localEpoch % 2 = 0
  freeable : ∀ x ∈ thread.deamortizedFreeables.items, x.epoch + 4 ≤ thread.localEpoch ∧
    thread.localEpoch % 2 = 0

structure ThreadOk (threads epoch : Nat) (thread : Thread Object) : Prop where
  settled : thread.localEpoch % 2 = 0 → thread.localEpoch ≤ epoch
  fresh : thread.localEpoch % 2 = 1 → thread.checked = 0
  place : thread.pc.Ok threads thread.localEpoch thread.checked
  running : thread.inside = true → thread.announcedEpoch % 2 = 0 ∧
    thread.announcedEpoch ≤ thread.began ∧ thread.began ≤ epoch
    ∧ epoch ≤ thread.began + 2
  aged : Aged epoch thread
  once : ∀ number, count number thread ≤ if number < thread.retired then 1 else 0

def Thread.Holds (thread : Thread Object) (x : Item Object) : Prop :=
  x ∈ thread.deamortizedFreeables.items ∨ ∃ i, x ∈ (thread.epochbags i).items

-- An operation in progress when the object was retired began no later than that.
def Known (w : World Object) (x : Item Object) : Prop :=
  ∀ tid op, x.during tid = some op → op ≤ (w.thread tid).op
    ∧ ((w.thread tid).inside = true → (w.thread tid).op = op → (w.thread tid).began ≤ x.epoch)

structure Inv (threads : Nat) (w : World Object) : Prop where
  even : w.epoch % 2 = 0
  ok : ∀ tid, ThreadOk threads w.epoch (w.thread tid)
  outside : ∀ tid, threads ≤ tid → (w.thread tid).inside = false ∧ (w.thread tid).pc = .idle
  scanned : ∀ tid other, other < (w.thread tid).checked → (w.thread other).inside = true →
    (w.thread tid).localEpoch ≤ (w.thread other).began
  known : ∀ tid x, (w.thread tid).Holds x → Known w x

/-! A thread between its own steps. -/

section Thread

variable {threads epoch : Nat} {thread : Thread Object}

theorem Aged.rotate (aged : Aged epoch thread) {readEpoch : Nat} (most : epoch ≤ readEpoch)
    (later : thread.localEpoch % 2 = 0 → thread.localEpoch + 2 ≤ readEpoch)
    (even : readEpoch % 2 = 0) :
    Aged readEpoch ({ thread with localEpoch := readEpoch } : Thread Object).rotateEpochBags := by
  obtain ⟨back, on, apart, apart', _, _⟩ := fin_around thread.index
  refine ⟨fun x member => ?_, fun x member => ?_, fun x member => ?_, fun x member => ?_⟩
  · have old : x ∈ (thread.epochbags (thread.index + 1)).items := by
      simp only [Thread.rotateEpochBags, Function.update_self] at member
      exact Bag.mem_rest member
    have bound := aged.oldest x old
    have next := later bound.2
    omega
  · simp only [Thread.rotateEpochBags] at member ⊢
    rw [back, Function.update_of_ne apart] at member
    have bound := aged.current x member
    exact ⟨by omega, even⟩
  · simp only [Thread.rotateEpochBags] at member ⊢
    rw [on, Function.update_of_ne apart'] at member
    have bound := aged.middle x member
    have next := later bound.2
    exact ⟨by omega, even⟩
  · simp only [Thread.rotateEpochBags] at member ⊢
    rcases Bag.mem_append.mp member with old | new
    · have bound := aged.freeable x old
      have next := later bound.2
      exact ⟨by omega, even⟩
    · have bound := aged.oldest x (Bag.mem_moved new)
      have next := later bound.2
      exact ⟨by omega, even⟩

theorem count_rotate (number : Nat) (thread : Thread Object) :
    count number thread.rotateEpochBags = count number thread := by
  have sum := bagsTotal_update (marks Item.serial number) thread.epochbags (thread.index + 1)
    (thread.epochbags (thread.index + 1)).rest
  have parts := Bag.total_rest (marks Item.serial number) (thread.epochbags (thread.index + 1))
  have joined := Bag.total_append (marks Item.serial number) thread.deamortizedFreeables
    (thread.epochbags (thread.index + 1))
  simp only [count, Thread.rotateEpochBags]
  omega

theorem rotate_holds {x : Item Object} (held : thread.rotateEpochBags.Holds x) :
    thread.Holds x := by
  rcases held with free | ⟨i, member⟩
  · rcases Bag.mem_append.mp free with old | new
    · exact .inl old
    · exact .inr ⟨_, Bag.mem_moved new⟩
  · by_cases self : i = thread.index + 1
    · rw [self] at member
      simp only [Thread.rotateEpochBags, Function.update_self] at member
      exact .inr ⟨_, Bag.mem_rest member⟩
    · simp only [Thread.rotateEpochBags] at member
      rw [Function.update_of_ne self] at member
      exact .inr ⟨i, member⟩

variable (ok : ThreadOk threads epoch thread)

include ok

theorem ThreadOk.goto {pc : Pc} (place : pc.Ok threads thread.localEpoch thread.checked) :
    ThreadOk threads epoch { thread with pc := pc } :=
  ⟨ok.settled, ok.fresh, place, ok.running,
    ⟨ok.aged.current, ok.aged.middle, ok.aged.oldest, ok.aged.freeable⟩, ok.once⟩

theorem ThreadOk.read (even : epoch % 2 = 0) : ThreadOk threads epoch (thread.read epoch) := by
  unfold Thread.read
  dsimp only
  split
  · rename_i other
    have later : thread.localEpoch % 2 = 0 → thread.localEpoch + 2 ≤ epoch := by
      intro settled
      have most := ok.settled settled
      omega
    have turned := ok.aged.rotate (Nat.le_refl epoch) later even
    refine ⟨fun _ => Nat.le_refl epoch, fun _ => rfl, ⟨rfl, even⟩, ok.running, ?_, fun number => ?_⟩
    · exact ⟨turned.current, turned.middle, turned.oldest, turned.freeable⟩
    · rw [count_rotate]
      exact ok.once number
  · rename_i same
    rw [ne_eq, not_not] at same
    have aged := ok.aged
    have odd := ok.fresh
    rw [← same] at odd
    refine ⟨fun _ => Nat.le_refl epoch, odd, ⟨rfl, even⟩, ok.running, ?_, ok.once⟩
    refine ⟨aged.current, fun x member => ?_, fun x member => ?_, fun x member => ?_⟩
    · have bound := aged.middle x member
      rw [← same] at bound
      exact bound
    · have bound := aged.oldest x member
      rw [← same] at bound
      exact bound
    · have bound := aged.freeable x member
      rw [← same] at bound
      exact bound

theorem ThreadOk.free {readEpoch : Nat} (pc : thread.pc = .freeing readEpoch) :
    ThreadOk threads epoch (thread.free readEpoch) := by
  have place := ok.place
  rw [pc] at place
  unfold Thread.free
  split
  · rename_i item rest removed
    have items := Bag.remove_items removed
    have aged := ok.aged
    refine ⟨ok.settled, ok.fresh, place, ok.running,
      ⟨aged.current, aged.middle, aged.oldest, fun x member => ?_⟩, fun number => ?_⟩
    · apply aged.freeable x
      rw [items]
      exact List.mem_cons_of_mem item member
    · have before := ok.once number
      have parts := Bag.total_remove (marks Item.serial number) removed
      have joined := tally_append Item.serial number thread.pooled [item]
      have single : tally Item.serial number [item] = marks Item.serial number item :=
        Nat.add_zero _
      simp only [count] at before ⊢
      omega
  · exact ok.goto place

theorem ThreadOk.announce (period : Nat) {readEpoch : Nat}
    (pc : thread.pc = .announcing readEpoch) :
    ThreadOk threads epoch (thread.announce period epoch readEpoch) := by
  have place := ok.place
  rw [pc] at place
  have least : readEpoch ≤ epoch := by
    have most := ok.settled
    rw [place.1] at most
    exact most place.2
  have aged := ok.aged
  unfold Thread.announce
  dsimp only
  split
  · exact ⟨ok.settled, ok.fresh, place,
      fun _ => ⟨place.2, least, Nat.le_refl epoch, Nat.le_add_right epoch 2⟩,
      ⟨aged.current, aged.middle, aged.oldest, aged.freeable⟩, ok.once⟩
  · exact ⟨ok.settled, ok.fresh, trivial,
      fun _ => ⟨place.2, least, Nat.le_refl epoch, Nat.le_add_right epoch 2⟩,
      ⟨aged.current, aged.middle, aged.oldest, aged.freeable⟩, ok.once⟩

theorem ThreadOk.scan (otherAnnounce : Nat) {readEpoch : Nat}
    (pc : thread.pc = .scanning readEpoch) :
    ThreadOk threads epoch (thread.scan threads otherAnnounce readEpoch) := by
  have place := ok.place
  rw [pc] at place
  have aged := ok.aged
  unfold Thread.scan
  split
  · refine ⟨ok.settled, fun odd => ?_, ?_, ok.running,
      ⟨aged.current, aged.middle, aged.oldest, aged.freeable⟩, ok.once⟩
    · have same : thread.localEpoch = readEpoch := place.1
      have even := place.2
      have wrong : thread.localEpoch % 2 = 1 := odd
      omega
    · dsimp only
      split
      · rename_i all
        exact ⟨place.1, place.2, all⟩
      · trivial
  · exact ok.goto trivial

theorem ThreadOk.retire {size : Nat} {item : Item Object} (now : item.epoch ≤ epoch)
    (number : item.serial = thread.retired) :
    ThreadOk threads epoch (thread.retire size item) := by
  have aged := ok.aged
  obtain ⟨_, _, _, _, other, other'⟩ := fin_around thread.index
  refine ⟨ok.settled, ok.fresh, ok.place, ok.running,
    ⟨fun x member => ?_, fun x member => ?_, fun x member => ?_, aged.freeable⟩, fun n => ?_⟩
  · simp only [Thread.retire, Function.update_self] at member
    rcases Bag.mem_add.mp member with rfl | old
    · exact now
    · exact aged.current x old
  · simp only [Thread.retire] at member
    rw [Function.update_of_ne other] at member
    exact aged.middle x member
  · simp only [Thread.retire] at member
    rw [Function.update_of_ne other'] at member
    exact aged.oldest x member
  · have before := ok.once n
    have sum := bagsTotal_update (marks Item.serial n) thread.epochbags thread.index
      ((thread.epochbags thread.index).add size item)
    have added := Bag.total_add (marks Item.serial n) size (thread.epochbags thread.index) item
    have mark : marks Item.serial n item = if thread.retired = n then 1 else 0 := by
      rw [marks, number]
    show count n (thread.retire size item) ≤ if n < thread.retired + 1 then 1 else 0
    have next : count n (thread.retire size item) = count n thread + marks Item.serial n item := by
      simp only [count, Thread.retire]
      omega
    rw [next, mark]
    exact once_more before

omit ok in
theorem retire_holds {size : Nat} {item x : Item Object}
    (held : (thread.retire size item).Holds x) : x = item ∨ thread.Holds x := by
  rcases held with free | ⟨i, member⟩
  · exact .inr (.inl free)
  · by_cases self : i = thread.index
    · rw [self] at member
      simp only [Thread.retire, Function.update_self] at member
      rcases Bag.mem_add.mp member with same | old
      · exact .inl same
      · exact .inr (.inr ⟨_, old⟩)
    · simp only [Thread.retire] at member
      rw [Function.update_of_ne self] at member
      exact .inr (.inr ⟨i, member⟩)

end Thread

/-! The threads together. -/

-- A thread is in the operation it was in, or in none, or in a later one.
def Later (old new : Thread Object) : Prop :=
  old.op < new.op ∨ new.op = old.op ∧ (new.inside = true → old.inside = true) ∧ new.began =
    old.began

theorem Known.set {w : World Object} {x : Item Object} (known : Known w x) {tid : Nat}
    {thread : Thread Object} (later : Later (w.thread tid) thread) :
    Known (w.set tid thread) x := by
  intro other op during
  obtain ⟨most, bound⟩ := known other op during
  simp only [World.set]
  by_cases self : other = tid
  · subst self
    rw [Function.update_self]
    rcases later with next | ⟨same, still, began⟩
    · refine ⟨by omega, fun _ reached => ?_⟩
      omega
    · rw [same, began]
      exact ⟨most, fun inside reached => bound (still inside) reached⟩
  · rw [Function.update_of_ne self]
    exact ⟨most, bound⟩

section Steps

variable {threads : Nat} {w : World Object} (inv : Inv threads w)

include inv

theorem Inv.set {tid : Nat} {thread : Thread Object} (ok : ThreadOk threads w.epoch thread)
    (later : Later (w.thread tid) thread) (active : tid < threads)
    (mine : ∀ other, other < thread.checked →
      (Function.update w.thread tid thread other).inside = true →
      thread.localEpoch ≤ (Function.update w.thread tid thread other).began)
    (others : ∀ other, other ≠ tid → tid < (w.thread other).checked → thread.inside = true →
      (w.thread other).localEpoch ≤ thread.began)
    (known : ∀ x, thread.Holds x → Known (w.set tid thread) x) :
    Inv threads (w.set tid thread) := by
  refine ⟨inv.even, fun other => ?_, fun other above => ?_, fun first second checked inside => ?_,
    fun other x held => ?_⟩
  · simp only [World.set]
    by_cases self : other = tid
    · rw [self, Function.update_self]
      exact ok
    · rw [Function.update_of_ne self]
      exact inv.ok other
  · simp only [World.set]
    by_cases self : other = tid
    · omega
    · rw [Function.update_of_ne self]
      exact inv.outside other above
  · simp only [World.set] at checked inside ⊢
    by_cases self : first = tid
    · subst self
      rw [Function.update_self] at checked ⊢
      exact mine second checked inside
    · rw [Function.update_of_ne self] at checked ⊢
      by_cases same : second = tid
      · subst same
        rw [Function.update_self] at inside ⊢
        exact others first self checked inside
      · rw [Function.update_of_ne same] at inside ⊢
        exact inv.scanned first second checked inside
  · simp only [World.set] at held
    by_cases self : other = tid
    · rw [self, Function.update_self] at held
      exact known x held
    · rw [Function.update_of_ne self] at held
      exact (inv.known other x held).set later

-- A step after which the thread has checked no more than before, under the same epoch.
theorem Inv.quiet {tid : Nat} {thread : Thread Object} (active : tid < threads)
    (ok : ThreadOk threads w.epoch thread) (op : thread.op = (w.thread tid).op)
    (inside : thread.inside = true → (w.thread tid).inside = true)
    (began : thread.began = (w.thread tid).began)
    (checked : thread.checked = 0 ∨ thread.checked = (w.thread tid).checked ∧
      thread.localEpoch = (w.thread tid).localEpoch)
    (known : ∀ x, thread.Holds x → Known w x) : Inv threads (w.set tid thread) := by
  have later : Later (w.thread tid) thread := .inr ⟨op, inside, began⟩
  refine inv.set ok later active (fun other below running => ?_) (fun other _ below running => ?_)
    fun x held => (known x held).set later
  · rcases checked with none_ | ⟨same, localSame⟩
    · omega
    · rw [same] at below
      rw [localSame]
      by_cases self : other = tid
      · subst self
        rw [Function.update_self] at running ⊢
        rw [began]
        exact inv.scanned other other below (inside running)
      · rw [Function.update_of_ne self] at running ⊢
        exact inv.scanned tid other below running
  · rw [began]
    exact inv.scanned other tid below (inside running)

theorem Inv.active {tid : Nat} (moving : (w.thread tid).pc ≠ .idle) : tid < threads := by
  by_contra above
  exact moving (inv.outside tid (by omega)).2

theorem Inv.read {tid : Nat} (active : tid < threads) :
    Inv threads (w.set tid ((w.thread tid).read w.epoch)) := by
  have ok := (inv.ok tid).read inv.even
  have known : ∀ x, ((w.thread tid).read w.epoch).Holds x → Known w x := by
    intro x held
    unfold Thread.read at held
    dsimp only at held
    split at held
    · exact inv.known tid x (rotate_holds held)
    · exact inv.known tid x held
  by_cases same : w.epoch = (w.thread tid).localEpoch
  · have plain : (w.thread tid).read w.epoch =
      { w.thread tid with localEpoch := w.epoch, pc := .freeing w.epoch } := by
      unfold Thread.read
      rw [if_neg (not_not.mpr same)]
    rw [plain] at ok known ⊢
    exact inv.quiet active ok rfl id rfl (.inr ⟨rfl, same⟩) known
  · have turned : (w.thread tid).read w.epoch
        = ({ w.thread tid with
          localEpoch := w.epoch
          pc := .freeing w.epoch
          checked := 0 } : Thread Object).rotateEpochBags := by
      unfold Thread.read
      rw [if_pos same]
    rw [turned] at ok known ⊢
    exact inv.quiet active ok rfl id rfl (.inl rfl) known

theorem Inv.free {tid readEpoch : Nat} (active : tid < threads)
    (pc : (w.thread tid).pc = .freeing readEpoch) :
    Inv threads (w.set tid ((w.thread tid).free readEpoch)) := by
  have ok := (inv.ok tid).free pc
  unfold Thread.free at ok ⊢
  split at ok
  · rename_i item rest removed
    refine inv.quiet active ok rfl id rfl (.inr ⟨rfl, rfl⟩) fun x held => inv.known tid x ?_
    rcases held with free | member
    · refine .inl ?_
      rw [Bag.remove_items removed]
      exact List.mem_cons_of_mem item free
    · exact .inr member
  · exact inv.quiet active ok rfl id rfl (.inr ⟨rfl, rfl⟩) fun x held => inv.known tid x held

omit inv in
theorem announce_fields (thread : Thread Object) (period epoch readEpoch : Nat) :
    (thread.announce period epoch readEpoch).op = thread.op + 1 ∧
    (thread.announce period epoch readEpoch).began = epoch
      ∧ (thread.announce period epoch readEpoch).checked = thread.checked
      ∧ (thread.announce period epoch readEpoch).localEpoch = thread.localEpoch := by
  unfold Thread.announce
  dsimp only
  split <;> exact ⟨rfl, rfl, rfl, rfl⟩

omit inv in
theorem announce_holds {thread : Thread Object} {period epoch readEpoch : Nat} {x : Item Object}
    (held : (thread.announce period epoch readEpoch).Holds x) : thread.Holds x := by
  unfold Thread.announce at held
  dsimp only at held
  split at held <;> exact held

theorem Inv.announce {tid period readEpoch : Nat} (active : tid < threads)
    (pc : (w.thread tid).pc = .announcing readEpoch) :
    Inv threads (w.set tid ((w.thread tid).announce period w.epoch readEpoch)) := by
  have ok := (inv.ok tid).announce period pc
  obtain ⟨op, began, checked, localSame⟩ := announce_fields (w.thread tid) period w.epoch readEpoch
  have later : Later (w.thread tid) ((w.thread tid).announce period w.epoch readEpoch) :=
    .inl (by omega)
  have place := (inv.ok tid).place
  rw [pc] at place
  refine inv.set ok later active (fun other below running => ?_) (fun other _ below _ => ?_)
    fun x held => (inv.known tid x (announce_holds held)).set later
  · rw [localSame]
    by_cases self : other = tid
    · rw [self, Function.update_self, began]
      have most := (inv.ok tid).settled
      rw [place.1] at most ⊢
      exact most place.2
    · rw [Function.update_of_ne self] at running ⊢
      rw [checked] at below
      exact inv.scanned tid other below running
  · rw [began]
    have fine := inv.ok other
    rcases Nat.mod_two_eq_zero_or_one (w.thread other).localEpoch with even | odd
    · exact fine.settled even
    · have nothing := fine.fresh odd
      omega

-- What the scan accepts of another thread: it is outside, or it announced this epoch.
theorem Inv.accepted {other readEpoch : Nat}
    (accepted : bitsEpoch (w.thread other).announcedEpoch = readEpoch ∨
      quiescent (w.thread other).announcedEpoch = true)
    (running : (w.thread other).inside = true) : readEpoch ≤ (w.thread other).began := by
  obtain ⟨even, least, _, _⟩ := (inv.ok other).running running
  rcases accepted with same | quiet
  · rw [bitsEpoch, even] at same
    omega
  · rw [quiescent, decide_eq_true_eq] at quiet
    omega

theorem Inv.scan {tid readEpoch : Nat} (active : tid < threads)
    (pc : (w.thread tid).pc = .scanning readEpoch) :
    Inv threads (w.set tid ((w.thread tid).scan threads
      (w.thread (w.thread tid).checked).announcedEpoch readEpoch)) := by
  have ok := (inv.ok tid).scan (w.thread (w.thread tid).checked).announcedEpoch pc
  have place := (inv.ok tid).place
  rw [pc] at place
  unfold Thread.scan at ok ⊢
  split at ok
  · rename_i accepted
    rw [if_pos accepted]
    refine inv.set ok (.inr ⟨rfl, id, rfl⟩) active (fun other below running => ?_)
      (fun other _ below running => ?_)
      fun x held => (inv.known tid x held).set (.inr ⟨rfl, id, rfl⟩)
    · have scanned : (w.thread other).inside = true →
        (w.thread tid).localEpoch ≤ (w.thread other).began := by
        intro inside
        have bound : other < (w.thread tid).checked + 1 := below
        rcases Nat.lt_succ_iff_lt_or_eq.mp bound with old | new
        · exact inv.scanned tid other old inside
        · subst new
          rw [place.1]
          exact inv.accepted accepted inside
      by_cases self : other = tid
      · subst self
        rw [Function.update_self] at running ⊢
        exact scanned running
      · rw [Function.update_of_ne self] at running ⊢
        exact scanned running
    · exact inv.scanned other tid below running
  · rename_i refused
    rw [if_neg refused]
    exact inv.quiet active ok rfl id rfl (.inr ⟨rfl, rfl⟩) fun x held => inv.known tid x held

theorem Inv.endOp {tid : Nat} (active : tid < threads) :
    Inv threads (w.set tid { w.thread tid with
      announcedEpoch := getWithQuiescent (w.thread tid).localEpoch
      inside := false }) := by
  have old := inv.ok tid
  refine inv.quiet active ?_ rfl nofun rfl (.inr ⟨rfl, rfl⟩) fun x held => inv.known tid x held
  exact ⟨old.settled, old.fresh, old.place, nofun,
    ⟨old.aged.current, old.aged.middle, old.aged.oldest, old.aged.freeable⟩, old.once⟩

theorem Inv.retire {tid size : Nat} {object : Object} (active : tid < threads) :
    Inv threads (w.set tid ((w.thread tid).retire size ⟨object, (w.thread tid).retired, w.epoch,
      during w⟩)) := by
  refine inv.quiet active ((inv.ok tid).retire (Nat.le_refl _) rfl) rfl id rfl (.inr ⟨rfl, rfl⟩)
    fun x held => ?_
  rcases retire_holds held with rfl | old
  · intro other op snapshot
    have now : during w other = some op := snapshot
    unfold during at now
    split at now
    · rename_i running
      cases now
      exact ⟨Nat.le_refl _, fun inside _ => ((inv.ok other).running inside).2.2.1⟩
    · cases now
  · exact inv.known tid x old

-- A thread that has checked all of them advances the epoch past none of their operations.
theorem Inv.advance {readEpoch : Nat} (even : readEpoch % 2 = 0) (now : w.epoch = readEpoch)
    (all : ∀ tid, (w.thread tid).inside = true → readEpoch ≤ (w.thread tid).began) :
    Inv threads { w with epoch := readEpoch + 2 } := by
  refine ⟨by show (readEpoch + 2) % 2 = 0; omega, fun tid => ?_, inv.outside, inv.scanned,
    inv.known⟩
  have old := inv.ok tid
  have aged := old.aged
  refine ⟨fun settled => ?_, old.fresh, old.place, fun inside => ?_,
    ⟨fun x member => ?_, aged.middle, aged.oldest, aged.freeable⟩, old.once⟩
  · have most := old.settled settled
    show (w.thread tid).localEpoch ≤ readEpoch + 2
    omega
  · have running := old.running inside
    have least := all tid inside
    refine ⟨running.1, running.2.1, ?_, ?_⟩
    · show (w.thread tid).began ≤ readEpoch + 2
      omega
    · show readEpoch + 2 ≤ (w.thread tid).began + 2
      omega
  · have most := aged.current x member
    show x.epoch ≤ readEpoch + 2
    omega

theorem move_inv {config : Config} {tid : Nat} {after : World Object}
    (same : config.threads = threads) (moved : move config w tid = some after) :
    Inv threads after := by
  have place := (inv.ok tid).place
  have active : (w.thread tid).pc ≠ .idle → tid < threads := inv.active
  unfold move at moved
  dsimp only at moved
  split at moved
  · cases moved
  · rename_i pc
    cases moved
    exact inv.read (active (by rw [pc]; nofun))
  · rename_i readEpoch pc
    cases moved
    exact inv.free (active (by rw [pc]; nofun)) pc
  · rename_i readEpoch pc
    cases moved
    exact inv.announce (active (by rw [pc]; nofun)) pc
  · rename_i readEpoch pc
    cases moved
    rw [same]
    exact inv.scan (active (by rw [pc]; nofun)) pc
  · rename_i readEpoch pc
    rw [pc] at place
    have next : Inv threads (w.set tid { w.thread tid with pc := .idle }) :=
      inv.quiet (active (by rw [pc]; nofun)) ((inv.ok tid).goto trivial) rfl id rfl
        (.inr ⟨rfl, rfl⟩) fun x held => inv.known tid x held
    split at moved <;> cases moved
    · rename_i now
      refine next.advance place.2.1 now fun other running => ?_
      have inside : (w.thread other).inside = true ∧ (w.thread other).began =
        ((w.set tid { w.thread tid with pc := .idle }).thread other).began := by
        simp only [World.set] at running ⊢
        by_cases self : other = tid
        · subst self
          rw [Function.update_self] at running ⊢
          exact ⟨running, rfl⟩
        · rw [Function.update_of_ne self] at running ⊢
          exact ⟨running, rfl⟩
      have below : other < threads := by
        by_contra above
        rw [(inv.outside other (by omega)).1] at inside
        cases inside.1
      have bound := inv.scanned tid other (by have := place.2.2; omega) inside.1
      rw [place.1] at bound
      rw [← inside.2]
      exact bound
    · exact next

end Steps

theorem step_inv (config : Config) (before : World Object) (event : Event Object)
    (after : World Object) (inv : Inv config.threads before) (_ : free before event)
    (stepped : step config before event = some after) : Inv config.threads after := by
  cases event with
  | startOp tid =>
      obtain ⟨⟨active, _⟩, ⟨⟩⟩ := Option.ite_none_right_eq_some.mp stepped
      exact inv.quiet active ((inv.ok tid).goto trivial) rfl id rfl (.inr ⟨rfl, rfl⟩) fun x held =>
        inv.known tid x held
  | endOp tid =>
      obtain ⟨⟨active, _⟩, ⟨⟩⟩ := Option.ite_none_right_eq_some.mp stepped
      exact inv.endOp active
  | retire tid object =>
      obtain ⟨⟨active, _⟩, ⟨⟩⟩ := Option.ite_none_right_eq_some.mp stepped
      exact inv.retire active
  | move tid => exact move_inv inv rfl stepped

theorem initial_inv (threads : Nat) : Inv threads (initial : World Object) := by
  refine ⟨rfl, fun tid => ?_, fun tid _ => ⟨rfl, rfl⟩, nofun, fun tid x held => ?_⟩
  · refine ⟨nofun, fun _ => rfl, trivial, nofun, ⟨nofun, nofun, nofun, nofun⟩, fun number => ?_⟩
    exact Nat.zero_le _
  · rcases held with free | ⟨i, member⟩
    · cases free
    · cases member

theorem pooled_set {w : World Object} {tid : Nat} {thread : Thread Object}
    (same : thread.pooled = (w.thread tid).pooled) (other : Nat) :
    ((w.set tid thread).thread other).pooled = (w.thread other).pooled := by
  simp only [World.set]
  by_cases self : other = tid
  · rw [self, Function.update_self]
    exact same
  · rw [Function.update_of_ne self]

-- Only the freeing step of startOp hands an object over.
theorem move_pools {config : Config} {w after : World Object} {tid : Nat}
    (moved : move config w tid = some after) (other : Nat) :
    (after.thread other).pooled = (w.thread other).pooled
      ∨ ∃ readEpoch item rest, (w.thread other).pc = .freeing readEpoch ∧
        (w.thread other).deamortizedFreeables.remove = some (item, rest)
        ∧ (after.thread other).pooled = (w.thread other).pooled ++ [item] := by
  unfold move at moved
  dsimp only at moved
  split at moved
  · cases moved
  · cases moved
    refine .inl (pooled_set ?_ other)
    unfold Thread.read
    dsimp only
    split <;> rfl
  · rename_i readEpoch pc
    cases moved
    cases found : (w.thread tid).deamortizedFreeables.remove with
    | none =>
        refine .inl (pooled_set ?_ other)
        unfold Thread.free
        rw [found]
    | some taken =>
        obtain ⟨item, rest⟩ := taken
        by_cases self : other = tid
        · subst self
          refine .inr ⟨readEpoch, item, rest, pc, found, ?_⟩
          simp only [World.set, Function.update_self, Thread.free]
          rw [found]
        · simp only [World.set]
          rw [Function.update_of_ne self]
          exact .inl rfl
  · cases moved
    refine .inl (pooled_set ?_ other)
    unfold Thread.announce
    dsimp only
    split <;> rfl
  · cases moved
    refine .inl (pooled_set ?_ other)
    unfold Thread.scan
    split <;> rfl
  · split at moved <;> cases moved
    · exact .inl (pooled_set (by rfl) other)
    · exact .inl (pooled_set (by rfl) other)

theorem step_pools {config : Config} {w after : World Object} {event : Event Object}
    (stepped : step config w event = some after) (other : Nat) :
    (after.thread other).pooled = (w.thread other).pooled
      ∨ ∃ readEpoch item rest, (w.thread other).pc = .freeing readEpoch ∧
        (w.thread other).deamortizedFreeables.remove = some (item, rest)
        ∧ (after.thread other).pooled = (w.thread other).pooled ++ [item] := by
  cases event with
  | startOp tid | endOp tid | retire tid object =>
      obtain ⟨_, ⟨⟩⟩ := Option.ite_none_right_eq_some.mp stepped
      exact .inl (pooled_set (by rfl) other)
  | move tid => exact move_pools stepped other

/-- An object that a step hands to the pool was retired during no operation that is still in
progress, and the retire calls whose objects were handed over are all different. -/
theorem debra_reclaims_safely {config : Config} {events : List (Event Object)} {w : World Object}
    (run : Run (step config) free initial events w) :
    (∀ event after tid x, step config w event = some after →
      (after.thread tid).pooled = (w.thread tid).pooled ++ [x] →
      ∀ other op, x.during other = some op →
        ¬ ((w.thread other).inside = true ∧ (w.thread other).op = op))
      ∧ ∀ tid, ((w.thread tid).pooled.map Item.serial).Nodup := by
  have inv : Inv config.threads w :=
    run_invariant (Inv config.threads) (initial_inv _) (step_inv config) run
  refine ⟨fun event after tid x stepped handed other op snapshot still => ?_, fun tid => ?_⟩
  · rcases step_pools stepped tid with same | ⟨readEpoch, item, rest, pc, removed, pooled⟩
    · rw [same] at handed
      simp at handed
    · obtain rfl : item = x := by
        rw [pooled] at handed
        exact List.cons.inj (List.append_cancel_left handed) |>.1
      have held : item ∈ (w.thread tid).deamortizedFreeables.items := by
        rw [Bag.remove_items removed]
        exact List.mem_cons_self
      have old := (inv.ok tid).aged.freeable item held
      have most := (inv.ok tid).settled old.2
      have running := (inv.ok other).running still.1
      have began := (inv.known tid item (.inl held) other op snapshot).2 still.1 still.2
      omega
  · refine nodup_of_tally fun number => ?_
    have bound := (inv.ok tid).once number
    unfold count at bound
    split at bound <;> omega

def startOpBy (tid steps : Nat) : List (Event Unit) :=
  .startOp tid :: List.replicate steps (.move tid)

-- Thread 1 is inside an operation when thread 0 retires, and leaves; thread 0 then rotates
-- its bags three times and advances the epoch in between.
def retireAndAdvance : List (Event Unit) :=
  [startOpBy 1 4, [.retire 0 (), .endOp 1], startOpBy 0 4, startOpBy 0 5, startOpBy 0 4,
    startOpBy 0 5, startOpBy 0 1].flatten

theorem retired_object_freed_later :
    ∃ w after x, Run (step ⟨2, 1, 1⟩) free initial retireAndAdvance w ∧ step ⟨2, 1, 1⟩ w (.move 0) =
      some after
    ∧ (after.thread 0).pooled = (w.thread 0).pooled ++ [x] ∧ x.during 1 = some 1
    ∧ ¬ ((w.thread 1).inside = true ∧ (w.thread 1).op = 1) ∧
      ((w.thread 0).pooled.map Item.serial).Nodup := by
  have replayed : (replay (step ⟨2, 1, 1⟩) free retireAndAdvance initial).map (fun w =>
      ((step ⟨2, 1, 1⟩ w (.move 0)).map fun after => (after.thread 0).pooled.map (Item.during · 1),
        (w.thread 0).pooled.length))
      = some (some [some 1], 0) := by
    decide +kernel
  obtain ⟨w, same, values⟩ := Option.map_eq_some_iff.mp replayed
  simp only [Prod.mk.injEq] at values
  obtain ⟨after, stepped, list⟩ := Option.map_eq_some_iff.mp values.1
  obtain ⟨x, rest, pooled, during, empty⟩ := List.map_eq_cons_iff.mp list
  rw [List.map_eq_nil_iff] at empty
  have none_ : (w.thread 0).pooled = [] := List.eq_nil_of_length_eq_zero values.2
  have handed : (after.thread 0).pooled = (w.thread 0).pooled ++ [x] := by
    rw [pooled, empty, none_]
    rfl
  have run := run_of_replay retireAndAdvance same
  have safe := debra_reclaims_safely run
  exact ⟨w, after, x, run, stepped, handed, during, safe.1 _ after 0 x stepped handed 1 1 during,
    safe.2 0⟩

end SetBench.Debra
