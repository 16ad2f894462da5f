import SetBench.HeapTree
import SetBench.LimboBag
import SetBench.Transition

/-! reclaimer_ebr_tree of common/recordmgr/reclaimer_ebr_tree.h with three epoch bags. The
threads announce epochs at the leaves of a tree and carry them upwards; the root holds the
epoch. One step is one read, write or compare-and-swap of a node, together with what the
thread does to its own bags. `threads` is the number of threads, `size` BLOCK_SIZE and
`period` MIN_TIME_BEFORE_TRY_ADVANCE. -/
namespace SetBench.EpochTree

open Transition LimboBag HeapTree

variable {Object : Type}

/-- A retired object. `serial` numbers the retire calls of its thread, `epoch` is the root at
its retirement and `during` are the operations that were then in progress. -/
structure Item (Object : Type) where
  object : Object
  serial : Nat
  epoch : Nat
  during : Nat → Nat

inductive Pc where
  | idle
  | readRoot
  | readThread (readEpoch : Nat)
  | announce (readEpoch : Nat)
  | rotate (readEpoch : Nat)
  | tick
  | readLeaf
  | readSibling (currIx val : Nat)
  | readParent (currIx val : Nat)
  | casRoot (currIx val parentVal : Nat)
  | casParent (currIx val parentVal : Nat)
  deriving DecidableEq, Repr

/-- The fields of thread_data_t. `op` counts the reads of the root, where an operation begins
and the one before it ends, and `began` is the epoch read there (2 before the first); `rotated`
is the epoch of the last rotation, `tried` says that tryAdvance has returned since the last
announcement, and `pooled` are the objects handed to the pool. -/
structure Thread (Object : Type) where
  epochbags : Fin 3 → Bag (Item Object)
  index : Fin 3
  timeSinceTryAdvance : Nat
  pc : Pc
  op : Nat
  began : Nat
  rotated : Nat
  tried : Bool
  retired : Nat
  pooled : List (Item Object)

structure World (Object : Type) where
  nodes : Nat → Nat
  thread : Nat → Thread Object

structure Config where
  threads : Nat
  size : Nat
  period : Nat

inductive Event (Object : Type) where
  | startOp (tid : Nat)
  | retire (tid : Nat) (object : Object)
  | move (tid : Nat)

def bitsEpoch (ann : Nat) : Nat := ann - ann % 2

def quiescent (ann : Nat) : Bool := ann % 2 = 1

def roundUpPow2 (x : Nat) : Nat :=
  let v := x - 1
  let v := v ||| (v >>> 1)
  let v := v ||| (v >>> 2)
  let v := v ||| (v >>> 4)
  let v := v ||| (v >>> 8)
  let v := v ||| (v >>> 16)
  v + 1

def Config.leaves (config : Config) : Nat := roundUpPow2 config.threads

def Config.leaf (config : Config) (tid : Nat) : Nat := tid + config.leaves

/-! The constructor of epoch_tree. -/

-- The node is quiescent; where its sibling is too, so is their parent.
def propagateQ : Nat → (Nat → Nat) → Nat → Nat → Nat
  | 0, nodes, _ => nodes
  | fuel + 1, nodes, currIx =>
      if quiescent (nodes (sibling currIx)) then
        propagateQ fuel (Function.update nodes (parent currIx) 1) (parent currIx)
      else nodes

def Config.fakes (config : Config) : List Nat :=
  List.range' (config.leaf config.threads) (config.leaves - config.threads)

def Config.marked (config : Config) (ix : Nat) : Nat :=
  if config.leaf config.threads ≤ ix ∧ ix < 2 * config.leaves then 1 else 0

def Config.padded (config : Config) : Nat → Nat :=
  config.fakes.foldl (fun nodes ix => propagateQ ix nodes ix) config.marked

def Config.initNodes (config : Config) : Nat → Nat := Function.update config.padded 1 2

def initThread : Thread Object := ⟨fun _ => .empty, 0, 0, .idle, 0, 2, 0, false, 0, []⟩

def initial (config : Config) : World Object := ⟨config.initNodes, fun _ => initThread⟩

/-! The steps. -/

def World.set (w : World Object) (tid : Nat) (thread : Thread Object) : World Object :=
  { w with thread := Function.update w.thread tid thread }

def World.write (w : World Object) (ix val : Nat) : World Object :=
  { w with nodes := Function.update w.nodes ix val }

def Thread.goto (thread : Thread Object) (pc : Pc) : Thread Object := { thread with pc := pc }

def Thread.rotateEpochBags (thread : Thread Object) (readEpoch : Nat) : Thread Object :=
  let nextIndex := thread.index + 1
  let freeable := thread.epochbags nextIndex
  { thread with
    pooled := thread.pooled ++ freeable.moved
    epochbags := Function.update thread.epochbags nextIndex freeable.rest
    index := nextIndex
    rotated := readEpoch }

def Thread.retire (thread : Thread Object) (size : Nat) (item : Item Object) : Thread Object :=
  { thread with
    epochbags := Function.update thread.epochbags thread.index
      ((thread.epochbags thread.index).add size item)
    retired := thread.retired + 1 }

-- tryAdvance and startOp return.
def Thread.leave (thread : Thread Object) : Thread Object :=
  { thread with pc := .idle, tried := true }

def move (config : Config) (w : World Object) (tid : Nat) : Option (World Object) :=
  let thread := w.thread tid
  match thread.pc with
  | .idle => none
  | .readRoot =>
      some (w.set tid
        { thread with pc := .readThread (w.nodes 1), op := thread.op + 1, began := w.nodes 1 })
  | .readThread readEpoch =>
      some (w.set tid (thread.goto
        (if readEpoch ≠ bitsEpoch (w.nodes (config.leaf tid)) then .announce readEpoch else .tick)))
  | .announce readEpoch =>
      some ((w.write (config.leaf tid) readEpoch).set tid
        { thread with pc := .rotate readEpoch, tried := false })
  | .rotate readEpoch => some (w.set tid ((thread.rotateEpochBags readEpoch).goto .tick))
  | .tick =>
      some (w.set tid { thread with
        timeSinceTryAdvance := thread.timeSinceTryAdvance + 1
        pc := if (thread.timeSinceTryAdvance + 1) % config.period = 0 then .readLeaf else .idle })
  | .readLeaf =>
      let currIx := config.leaf tid
      some (w.set tid (if 1 < currIx then thread.goto (.readSibling currIx (w.nodes currIx))
        else thread.leave))
  | .readSibling currIx val =>
      let siblingVal := w.nodes (sibling currIx)
      some (w.set tid (if siblingVal = val ∨ quiescent siblingVal = true then thread.goto
        (.readParent currIx val) else thread.leave))
  | .readParent currIx val =>
      let parentVal := w.nodes (parent currIx)
      if parent currIx = 1 then
        some (w.set tid (if parentVal ≠ val then thread.leave else thread.goto
        (.casRoot currIx val parentVal)))
      else some (w.set tid (if val ≤ parentVal then thread.leave else thread.goto
        (.casParent currIx val parentVal)))
  | .casRoot currIx _ parentVal =>
      if w.nodes (parent currIx) =
        parentVal then some ((w.write (parent currIx) (parentVal + 2)).set tid thread.leave)
      else some (w.set tid thread.leave)
  | .casParent currIx val parentVal =>
      if w.nodes (parent currIx) = parentVal then
        some ((w.write (parent currIx) val).set tid
          (thread.goto (.readSibling (parent currIx) val)))
      else some (w.set tid thread.leave)

def step (config : Config) (w : World Object) : Event Object → Option (World Object)
  | .startOp tid =>
      if tid < config.threads ∧ (w.thread tid).pc = .idle then
        some (w.set tid ((w.thread tid).goto .readRoot))
      else none
  | .retire tid object =>
      if tid < config.threads ∧ (w.thread tid).pc = .idle then
        some (w.set tid ((w.thread tid).retire config.size ⟨object, (w.thread tid).retired,
          w.nodes 1, fun other => (w.thread other).op⟩))
      else none
  | .move tid => move config w tid

/-! The padded tree. -/

theorem le_roundUpPow2 (x : Nat) : x ≤ roundUpPow2 x := by
  unfold roundUpPow2
  have first := Nat.left_le_or (n := x - 1) (m := (x - 1) >>> 1)
  dsimp only
  generalize x - 1 ||| (x - 1) >>> 1 = a at first ⊢
  have second := Nat.left_le_or (n := a) (m := a >>> 2)
  generalize a ||| a >>> 2 = b at second ⊢
  have third := Nat.left_le_or (n := b) (m := b >>> 4)
  generalize b ||| b >>> 4 = c at third ⊢
  have fourth := Nat.left_le_or (n := c) (m := c >>> 8)
  generalize c ||| c >>> 8 = d at fourth ⊢
  have fifth := Nat.left_le_or (n := d) (m := d >>> 16)
  omega

theorem Config.threads_le (config : Config) : config.threads ≤ config.leaves :=
  le_roundUpPow2 config.threads

theorem Config.leaves_pos (config : Config) : 0 < config.leaves := Nat.succ_pos _

-- A quiescent node is inside the tree and has no thread below it.
def Sound (config : Config) (nodes : Nat → Nat) : Prop :=
  ∀ ix, nodes ix = 0 ∨ nodes ix = 1 ∧ 0 < ix ∧ ix < 2 * config.leaves ∧
    ∀ tid < config.threads, ¬ Under ix (config.leaf tid)

-- Two quiescent children have a quiescent parent, but for the ones still to be looked at.
def Closed (config : Config) (done pending : Nat) (nodes : Nat → Nat) : Prop :=
  ∀ ix, 1 ≤ ix → ix < config.leaves → nodes (2 * ix) = 1 → nodes (2 * ix + 1) = 1 → nodes ix = 1 ∨
    done ≤ 2 * ix + 1 ∨ ix = pending

section Padding

variable {config : Config} (some_ : 0 < config.threads)

include some_

theorem Sound.not_root {nodes : Nat → Nat} (sound : Sound config nodes) {ix : Nat}
    (quiet : nodes ix = 1) : 2 ≤ ix := by
  rcases sound ix with zero | ⟨_, positive, _, nobody⟩
  · omega
  · by_contra small
    have one : ix = 1 := by omega
    subst one
    exact nobody 0 some_ (under_root (Nat.lt_of_lt_of_le config.leaves_pos (Nat.le_add_left _ _)))

theorem propagateQ_ok (fuel : Nat) :
    ∀ (nodes : Nat → Nat) (currIx done : Nat), currIx ≤ fuel → nodes currIx = 1 →
      Sound config nodes →
    Closed config done (parent currIx) nodes →
    Sound config (propagateQ fuel nodes currIx) ∧
      Closed config done 0 (propagateQ fuel nodes currIx)
      ∧ ∀ ix, nodes ix = 1 → propagateQ fuel nodes currIx ix = 1 := by
  induction fuel with
  | zero =>
      intro nodes currIx done small quiet sound _
      have large := sound.not_root some_ quiet
      omega
  | succ fuel ih =>
      intro nodes currIx done small quiet sound closed
      have large := sound.not_root some_ quiet
      have pair := sibling_cases currIx
      rw [propagateQ]
      split
      · rename_i both
        rw [quiescent, decide_eq_true_eq] at both
        have other : nodes (sibling currIx) = 1 := by
          rcases sound (sibling currIx) with zero | found
          · omega
          · exact found.1
        have here : parent currIx < currIx := Nat.div_lt_self (by omega) (by decide)
        have inner : parent currIx < config.leaves := by
          rcases sound currIx with zero | ⟨_, _, bound, _⟩
          · omega
          · unfold parent
            omega
        have next : Sound config (Function.update nodes (parent currIx) 1) := by
          intro ix
          by_cases self : ix = parent currIx
          · subst self
            rw [Function.update_self]
            refine .inr ⟨rfl, ?_, by omega, fun tid below under => ?_⟩
            · unfold parent
              omega
            · rcases under.split (Nat.le_add_left config.leaves tid) inner with mine | its
              · rcases sound currIx with zero | ⟨_, _, _, nobody⟩
                · omega
                · exact nobody tid below mine
              · rcases sound (sibling currIx) with zero | ⟨_, _, _, nobody⟩
                · omega
                · exact nobody tid below its
          · rw [Function.update_of_ne self]
            exact sound ix
        have nextClosed : Closed config done (parent (parent currIx))
          (Function.update nodes (parent currIx) 1) := by
          intro ix positive inside left right
          by_cases self : ix = parent currIx
          · subst self
            exact .inl (Function.update_self _ _ _)
          · rw [Function.update_of_ne self]
            by_cases above : ix = parent (parent currIx)
            · exact .inr (.inr above)
            · unfold parent at above
              rw [Function.update_of_ne (by unfold parent; omega)] at left right
              rcases closed ix positive inside left right with quiet' | rest
              · exact .inl quiet'
              · rcases rest with later | same
                · exact .inr (.inl later)
                · exact absurd same self
        obtain ⟨ok, fine, kept⟩ :=
          ih _ _ done (by omega) (Function.update_self _ _ _) next nextClosed
        refine ⟨ok, fine, fun ix old => kept ix ?_⟩
        by_cases self : ix = parent currIx
        · rw [self, Function.update_self]
        · rw [Function.update_of_ne self]
          exact old
      · rename_i awake
        refine ⟨sound, fun ix positive inside left right => ?_, fun ix old => old⟩
        rcases closed ix positive inside left right with quiet' | later | same
        · exact .inl quiet'
        · exact .inr (.inl later)
        · exfalso
          apply awake
          rw [quiescent, decide_eq_true_eq]
          rcases pair with ⟨_, there⟩ | ⟨_, there⟩
          · rw [there, ← same, right]
          · rw [there, ← same, left]

theorem padding_ok (len : Nat) :
    ∀ (start : Nat) (nodes : Nat → Nat), (∀ ix, start ≤ ix → ix < start + len → nodes ix = 1) →
      Sound config nodes →
    Closed config start 0 nodes →
    Sound config ((List.range' start len).foldl (fun nodes ix => propagateQ ix nodes ix) nodes)
      ∧ Closed config (start + len) 0
        ((List.range' start len).foldl (fun nodes ix => propagateQ ix nodes ix) nodes)
      ∧ ∀ ix, nodes ix = 1 → (List.range' start len).foldl (fun nodes ix => propagateQ ix nodes ix)
        nodes ix = 1 := by
  induction len with
  | zero => exact fun start nodes _ sound closed => ⟨sound, closed, fun ix quiet => quiet⟩
  | succ len ih =>
      intro start nodes fake sound closed
      have pending : Closed config (start + 1) (parent start) nodes := by
        intro ix positive inside left right
        rcases closed ix positive inside left right with quiet | later | none_
        · exact .inl quiet
        · unfold parent
          omega
        · omega
      obtain ⟨sound', closed', kept⟩ :=
        propagateQ_ok some_ start nodes start (start + 1) (Nat.le_refl start)
        (fake start (Nat.le_refl start) (by omega)) sound pending
      obtain ⟨ok, fine, kept'⟩ :=
        ih (start + 1) (propagateQ start nodes start)
        (fun ix low high => kept ix (fake ix (by omega) (by omega))) sound' closed'
      rw [List.range'_succ, List.foldl_cons]
      refine ⟨ok, ?_, fun ix quiet => kept' ix (kept ix quiet)⟩
      rw [show start + (len + 1) = start + 1 + len by omega]
      exact fine

theorem padded_ok :
    Sound config config.padded ∧ (∀ ix, 1 ≤ ix → ix < config.leaves → config.padded (2 * ix) = 1 →
      config.padded (2 * ix + 1) = 1 →
    config.padded ix = 1) ∧ ∀ ix, config.leaf config.threads ≤ ix → ix < 2 * config.leaves →
      config.padded ix = 1 := by
  have enough := config.threads_le
  have fake (ix : Nat) (low : config.leaf config.threads ≤ ix) (high : ix < 2 * config.leaves) :
    config.marked ix = 1 := if_pos ⟨low, high⟩
  have sound : Sound config config.marked := by
    intro ix
    unfold Config.marked
    split
    · rename_i range
      have start : config.threads + config.leaves ≤ ix := range.1
      refine .inr ⟨rfl, by omega, range.2, fun tid below under => ?_⟩
      have same := under.leaf (show config.leaf tid < 2 * config.leaves by
        unfold Config.leaf; omega) (by omega)
      unfold Config.leaf at same
      omega
    · exact .inl rfl
  have closed : Closed config (config.leaf config.threads) 0 config.marked := by
    intro ix _ _ left _
    unfold Config.marked at left
    split at left
    · rename_i range
      exact .inr (.inl (by omega))
    · omega
  have total : config.leaf config.threads + (config.leaves - config.threads) =
    2 * config.leaves := by
    unfold Config.leaf
    omega
  obtain ⟨ok, fine, kept⟩ :=
    padding_ok some_ (config.leaves - config.threads) (config.leaf config.threads) config.marked
    (fun ix low high => fake ix low (by omega)) sound closed
  refine ⟨ok, fun ix positive inside left right => ?_,
    fun ix low high => kept ix (fake ix low high)⟩
  rcases fine ix positive inside left right with quiet | later | none_
  · exact quiet
  · omega
  · omega

-- A node without a thread below it is quiescent.
theorem padded_quiet (ix : Nat) (inside : 1 ≤ ix) (bound : ix < 2 * config.leaves)
    (nobody : ∀ tid < config.threads, ¬ Under ix (config.leaf tid)) :
    config.padded ix = 1 := by
  obtain ⟨_, closed, fake⟩ := padded_ok some_
  -- From the leaves upwards.
  induction height : 2 * config.leaves - ix using Nat.strong_induction_on generalizing ix with
  | _ height ih =>
      by_cases leaf : config.leaves ≤ ix
      · refine fake ix ?_ bound
        by_contra real
        refine nobody (ix - config.leaves) ?_ ?_
        · unfold Config.leaf at real
          omega
        · unfold Config.leaf
          rw [Nat.sub_add_cancel leaf]
          exact under_self ix
      · have left (tid : Nat) (below : tid < config.threads) :
          ¬ Under (2 * ix) (config.leaf tid) := by
          intro under
          apply nobody tid below
          have up := under.up
          rwa [parent, Nat.mul_div_cancel_left ix (by decide)] at up
        have right (tid : Nat) (below : tid < config.threads) :
          ¬ Under (2 * ix + 1) (config.leaf tid) := by
          intro under
          apply nobody tid below
          have up := under.up
          rwa [parent, show (2 * ix + 1) / 2 = ix by omega] at up
        exact closed ix inside (by omega) (ih _ (by omega) (2 * ix) (by omega) (by omega) left rfl)
          (ih _ (by omega) (2 * ix + 1) (by omega) (by omega) right rfl)

omit some_ in
theorem init_root : config.initNodes 1 = 2 := Function.update_self _ _ _

omit some_ in
theorem init_other {ix : Nat} (apart : ix ≠ 1) : config.initNodes ix = config.padded ix :=
  Function.update_of_ne apart _ _

end Padding

end SetBench.EpochTree
