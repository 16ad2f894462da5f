import SetBench.EpochTree

/-! What the tree of epochs keeps, and that no object is freed during an operation that was
in progress when it was retired. -/
namespace SetBench.EpochTree

open Transition LimboBag HeapTree

variable {Object : Type}

structure TreeOk (config : Config) (nodes : Nat → Nat) : Prop where
  even : ∀ tid < config.threads, nodes (config.leaf tid) % 2 = 0
  root : nodes 1 % 2 = 0
  least : ∀ tid < config.threads, nodes (config.leaf tid) ≤ nodes 1
  most : ∀ tid < config.threads, nodes 1 ≤ nodes (config.leaf tid) + 2
  inner : ∀ ix, 2 ≤ ix → ix < config.leaves → ∀ tid < config.threads, Under ix (config.leaf tid) →
    nodes ix ≤ nodes (config.leaf tid) ∧ nodes ix % 2 = 0
  -- With one thread the leaf is the root.
  single : config.leaves = 1 → nodes 1 = 2

-- A thread carries its own announcement, and those below the node where it is are no older.
structure Climbs (config : Config) (nodes : Nat → Nat) (tid currIx val : Nat) : Prop where
  inside : 2 ≤ currIx ∧ currIx < 2 * config.leaves
  under : Under currIx (config.leaf tid)
  own : nodes (config.leaf tid) = val
  below : ∀ other < config.threads, Under currIx (config.leaf other) →
    val ≤ nodes (config.leaf other)

def Across (config : Config) (nodes : Nat → Nat) (ix val : Nat) : Prop :=
  ∀ other < config.threads, Under ix (config.leaf other) → val ≤ nodes (config.leaf other)

def Pc.Ok (pc : Pc) (config : Config) (nodes : Nat → Nat) (tid began rotated : Nat) : Prop :=
  match pc with
  | .idle | .readRoot | .tick | .readLeaf => True
  | .readThread readEpoch =>
      began = readEpoch ∧ readEpoch % 2 = 0 ∧ (config.leaves = 1 → readEpoch = 2)
  | .announce readEpoch =>
      began = readEpoch ∧ readEpoch % 2 = 0 ∧ config.leaves ≠ 1 ∧
        nodes (config.leaf tid) < readEpoch
  | .rotate readEpoch =>
      began = readEpoch ∧ readEpoch % 2 = 0 ∧ nodes (config.leaf tid) = readEpoch ∧
        rotated < readEpoch
  | .readSibling currIx val => Climbs config nodes tid currIx val
  | .readParent currIx val =>
      Climbs config nodes tid currIx val ∧ Across config nodes (parent currIx) val
  | .casRoot currIx val parentVal =>
      Climbs config nodes tid currIx val ∧ Across config nodes (parent currIx) val ∧ parent currIx =
        1 ∧ parentVal = val
  | .casParent currIx val parentVal =>
      Climbs config nodes tid currIx val ∧ Across config nodes (parent currIx) val ∧
        parent currIx ≠ 1 ∧ parentVal < val

-- Between the read of the root and the rotation.
def Pc.starting : Pc → Bool
  | .readThread _ | .announce _ | .rotate _ => true
  | _ => false

def count (number : Nat) (thread : Thread Object) : Nat :=
  tally Item.serial number thread.pooled + bagsTotal (marks Item.serial number) thread.epochbags

structure ThreadOk (config : Config) (nodes : Nat → Nat) (tid : Nat) (thread : Thread Object) :
    Prop where
  place : thread.pc.Ok config nodes tid thread.began thread.rotated
  began : nodes (config.leaf tid) ≤ thread.began ∧ thread.began ≤ nodes 1
  rotated : thread.rotated ≤ nodes (config.leaf tid) ∧ thread.rotated % 2 = 0
  current : ∀ x ∈ (thread.epochbags thread.index).items, x.epoch ≤ nodes 1 ∧
    (thread.pc.starting = true → x.epoch ≤ thread.began)
  middle : ∀ x ∈ (thread.epochbags (thread.index + 2)).items, x.epoch ≤ thread.rotated
  oldest : ∀ x ∈ (thread.epochbags (thread.index + 1)).items, x.epoch + 2 ≤ thread.rotated
  once : ∀ number, count number thread ≤ if number < thread.retired then 1 else 0

def Thread.Holds (thread : Thread Object) (x : Item Object) : Prop :=
  ∃ i, x ∈ (thread.epochbags i).items

-- An operation in progress when the object was retired began no later than that.
def Known (thread : Nat → Thread Object) (x : Item Object) : Prop :=
  ∀ tid, x.during tid ≤ (thread tid).op ∧
    ((thread tid).op = x.during tid → (thread tid).began ≤ x.epoch)

structure Inv (config : Config) (w : World Object) : Prop where
  tree : TreeOk config w.nodes
  ok : ∀ tid < config.threads, ThreadOk config w.nodes tid (w.thread tid)
  outside : ∀ tid, config.threads ≤ tid → (w.thread tid).pc = .idle ∧
    (w.thread tid).began ≤ w.nodes 1 ∧ ∀ x, ¬ (w.thread tid).Holds x
  known : ∀ tid x, (w.thread tid).Holds x → Known w.thread x

section Tree

variable {config : Config} {nodes : Nat → Nat}

theorem leaf_inside {tid : Nat} (active : tid < config.threads) :
    config.leaves ≤ config.leaf tid ∧ config.leaf tid < 2 * config.leaves := by
  have enough := config.threads_le
  unfold Config.leaf
  omega

theorem leaf_ne {tid other : Nat} (apart : other ≠ tid) : config.leaf other ≠ config.leaf tid := by
  unfold Config.leaf
  omega

-- Whatever a node says, no thread below it has announced less.
theorem TreeOk.below (tree : TreeOk config nodes) {ix tid : Nat} (inside : 2 ≤ ix)
    (active : tid < config.threads) (under : Under ix (config.leaf tid)) :
    nodes ix ≤ nodes (config.leaf tid) ∧ nodes ix % 2 = 0 := by
  by_cases leaf : config.leaves ≤ ix
  · rw [under.leaf (leaf_inside active).2 leaf]
    exact ⟨Nat.le_refl _, tree.even tid active⟩
  · exact tree.inner ix inside (by omega) tid active under

theorem Climbs.parent_lt {tid currIx val : Nat} (climbs : Climbs config nodes tid currIx val) :
    parent currIx < config.leaves ∧ 1 ≤ parent currIx := by
  have inside := climbs.inside
  unfold parent
  omega

-- The sibling agrees or has nobody below it, so the parent may carry the value.
theorem Climbs.across (tree : TreeOk config nodes) {tid currIx val : Nat}
    (climbs : Climbs config nodes tid currIx val)
    (agrees : nodes (sibling currIx) = val ∨ quiescent (nodes (sibling currIx)) = true) :
    Across config nodes (parent currIx) val := by
  intro other below under
  rcases under.split (Nat.le_add_left config.leaves other) climbs.parent_lt.1 with mine | its
  · exact climbs.below other below mine
  · have pair := sibling_cases currIx
    have known := tree.below (by have := climbs.parent_lt; omega) below its
    rcases agrees with same | quiet
    · omega
    · rw [quiescent, decide_eq_true_eq] at quiet
      omega

theorem Climbs.keep {nodes' : Nat → Nat} {tid currIx val : Nat}
    (climbs : Climbs config nodes tid currIx val) (up : ∀ ix, nodes ix ≤ nodes' ix)
    (mine : nodes' (config.leaf tid) = nodes (config.leaf tid)) :
    Climbs config nodes' tid currIx val :=
  ⟨climbs.inside, climbs.under, mine.trans climbs.own,
    fun other below under => (climbs.below other below under).trans (up _)⟩

theorem Across.keep {nodes' : Nat → Nat} {ix val : Nat} (across : Across config nodes ix val)
    (up : ∀ ix, nodes ix ≤ nodes' ix) :
    Across config nodes' ix val :=
  fun other below under => (across other below under).trans (up _)

theorem Pc.Ok.keep {nodes' : Nat → Nat} {pc : Pc} {tid began rotated : Nat}
    (ok : pc.Ok config nodes tid began rotated) (up : ∀ ix, nodes ix ≤ nodes' ix)
    (mine : nodes' (config.leaf tid) = nodes (config.leaf tid)) :
    pc.Ok config nodes' tid began rotated := by
  cases pc with
  | idle | readRoot | tick | readLeaf => trivial
  | readThread => exact ok
  | announce => exact ⟨ok.1, ok.2.1, ok.2.2.1, by rw [mine]; exact ok.2.2.2⟩
  | rotate => exact ⟨ok.1, ok.2.1, mine.trans ok.2.2.1, ok.2.2.2⟩
  | readSibling => exact Climbs.keep ok up mine
  | readParent => exact ⟨ok.1.keep up mine, ok.2.keep up⟩
  | casRoot | casParent => exact ⟨ok.1.keep up mine, ok.2.1.keep up, ok.2.2⟩

theorem ThreadOk.keep {nodes' : Nat → Nat} {tid : Nat} {thread : Thread Object}
    (ok : ThreadOk config nodes tid thread) (up : ∀ ix, nodes ix ≤ nodes' ix)
    (mine : nodes' (config.leaf tid) = nodes (config.leaf tid)) :
    ThreadOk config nodes' tid thread := by
  refine ⟨ok.place.keep up mine, ⟨?_, ok.began.2.trans (up 1)⟩, ⟨?_, ok.rotated.2⟩,
    fun x member => ?_, ok.middle, ok.oldest, ok.once⟩
  · rw [mine]
    exact ok.began.1
  · rw [mine]
    exact ok.rotated.1
  · have before := ok.current x member
    exact ⟨before.1.trans (up 1), before.2⟩

theorem update_up {ix val : Nat} (more : nodes ix ≤ val) (other : Nat) :
    nodes other ≤ Function.update nodes ix val other := by
  by_cases self : other = ix
  · rw [self, Function.update_self]
    exact more
  · rw [Function.update_of_ne self]

variable (tree : TreeOk config nodes)

include tree

theorem TreeOk.announce {tid readEpoch : Nat} (more : nodes (config.leaf tid) ≤ readEpoch)
    (most : readEpoch ≤ nodes 1) (even : readEpoch % 2 = 0) (several : config.leaves ≠ 1) :
    TreeOk config (Function.update nodes (config.leaf tid) readEpoch) := by
  have positive := config.leaves_pos
  have apart : 1 ≠ config.leaf tid := by
    unfold Config.leaf
    omega
  have root : Function.update nodes (config.leaf tid) readEpoch 1 = nodes 1 :=
    Function.update_of_ne apart _ _
  refine ⟨fun other below => ?_, by rw [root]; exact tree.root, fun other below => ?_,
    fun other below => ?_, fun ix low high other below under => ?_,
    fun one => absurd one several⟩
  · by_cases self : other = tid
    · rw [self, Function.update_self]
      exact even
    · rw [Function.update_of_ne (leaf_ne self)]
      exact tree.even other below
  · rw [root]
    by_cases self : other = tid
    · rw [self, Function.update_self]
      exact most
    · rw [Function.update_of_ne (leaf_ne self)]
      exact tree.least other below
  · rw [root]
    exact (tree.most other below).trans (Nat.add_le_add_right (update_up more _) 2)
  · have bound := (leaf_inside below).1
    rw [Function.update_of_ne (show ix ≠ config.leaf tid by unfold Config.leaf; omega)]
    have before := tree.inner ix low high other below under
    exact ⟨before.1.trans (update_up more _), before.2⟩

theorem TreeOk.advance (several : 2 ≤ config.leaves) (across : Across config nodes 1 (nodes 1)) :
    TreeOk config (Function.update nodes 1 (nodes 1 + 2)) := by
  have leaf (tid : Nat) : Function.update nodes 1 (nodes 1 + 2) (config.leaf tid) =
    nodes (config.leaf tid) := by
    apply Function.update_of_ne
    unfold Config.leaf
    omega
  refine ⟨fun other below => ?_, ?_, fun other below => ?_, fun other below => ?_,
    fun ix low high other below under => ?_, fun one => ?_⟩
  · rw [leaf]
    exact tree.even other below
  · have even := tree.root
    rw [Function.update_self]
    omega
  · rw [leaf, Function.update_self]
    exact (tree.least other below).trans (Nat.le_add_right _ 2)
  · have enough := across other below (under_root (by unfold Config.leaf; omega))
    rw [leaf, Function.update_self]
    omega
  · rw [leaf, Function.update_of_ne (by omega)]
    exact tree.inner ix low high other below under
  · omega

theorem TreeOk.carry {tid ix val : Nat} (active : tid < config.threads) (low : 2 ≤ ix)
    (high : ix < config.leaves) (own : nodes (config.leaf tid) = val)
    (across : Across config nodes ix val) : TreeOk config (Function.update nodes ix val) := by
  have leaf (tid : Nat) : Function.update nodes ix val (config.leaf tid) =
    nodes (config.leaf tid) := by
    apply Function.update_of_ne
    unfold Config.leaf
    omega
  have root : Function.update nodes ix val 1 = nodes 1 := Function.update_of_ne (by omega) _ _
  refine ⟨fun other below => ?_, ?_, fun other below => ?_, fun other below => ?_,
    fun node low' high' other below under => ?_, fun one => ?_⟩
  · rw [leaf]
    exact tree.even other below
  · rw [root]
    exact tree.root
  · rw [leaf, root]
    exact tree.least other below
  · rw [leaf, root]
    exact tree.most other below
  · rw [leaf]
    by_cases self : node = ix
    · subst self
      rw [Function.update_self]
      refine ⟨across other below under, ?_⟩
      rw [← own]
      exact tree.even tid active
    · rw [Function.update_of_ne self]
      exact tree.inner node low' high' other below under
  · omega

end Tree

section Steps

variable {config : Config} {w : World Object} (inv : Inv config w) {tid : Nat}
    (active : tid < config.threads)

include inv

theorem Inv.active_of {tid : Nat} (moving : (w.thread tid).pc ≠ .idle) : tid < config.threads := by
  by_contra above
  exact moving (inv.outside tid (by omega)).1

include active

-- A step of one thread that only raises nodes, and no leaf but its own.
theorem Inv.update {nodes : Nat → Nat} {thread : Thread Object} (tree : TreeOk config nodes)
    (up : ∀ ix, w.nodes ix ≤ nodes ix)
    (leaves : ∀ other, other ≠ tid → nodes (config.leaf other) = w.nodes (config.leaf other))
    (ok : ThreadOk config nodes tid thread)
    (later : (w.thread tid).op < thread.op ∨ thread.op = (w.thread tid).op ∧
      thread.began = (w.thread tid).began)
    (known : ∀ x, thread.Holds x → Known w.thread x) :
    Inv config ({ w with nodes := nodes }.set tid thread) := by
  have kept (x : Item Object) (before : Known w.thread x) :
    Known (Function.update w.thread tid thread) x := by
    intro other
    have mine := before other
    by_cases self : other = tid
    · subst self
      rw [Function.update_self]
      rcases later with more | ⟨same, began⟩
      · exact ⟨by omega, fun now => absurd now (by omega)⟩
      · rw [same, began]
        exact mine
    · rw [Function.update_of_ne self]
      exact mine
  refine ⟨tree, fun other below => ?_, fun other above => ?_, fun other x held => ?_⟩
  · show ThreadOk config nodes other (Function.update w.thread tid thread other)
    by_cases self : other = tid
    · rw [self, Function.update_self]
      exact ok
    · rw [Function.update_of_ne self]
      exact (inv.ok other below).keep up (leaves other self)
  · show (Function.update w.thread tid thread other).pc = .idle ∧
      (Function.update w.thread tid thread other).began ≤ nodes 1
      ∧ ∀ x, ¬ (Function.update w.thread tid thread other).Holds x
    rw [Function.update_of_ne (by omega)]
    have before := inv.outside other above
    exact ⟨before.1, before.2.1.trans (up 1), before.2.2⟩
  · have inside : (Function.update w.thread tid thread other).Holds x := held
    apply kept x
    by_cases self : other = tid
    · rw [self, Function.update_self] at inside
      exact known x inside
    · rw [Function.update_of_ne self] at inside
      exact inv.known other x inside

-- A step that leaves the tree alone.
theorem Inv.set {thread : Thread Object} (ok : ThreadOk config w.nodes tid thread)
    (later : (w.thread tid).op < thread.op ∨ thread.op = (w.thread tid).op ∧
      thread.began = (w.thread tid).began)
    (known : ∀ x, thread.Holds x → Known w.thread x) : Inv config (w.set tid thread) :=
  inv.update active inv.tree (fun _ => Nat.le_refl _) (fun _ _ => rfl) ok later known

theorem Inv.place {pc : Pc} {thread : Thread Object} (pcs : thread.pc = pc)
    (place : pc.Ok config w.nodes tid (w.thread tid).began (w.thread tid).rotated)
    (starting : pc.starting = true → (w.thread tid).pc.starting = true)
    (bags : thread.epochbags = (w.thread tid).epochbags)
    (index : thread.index = (w.thread tid).index) (op : thread.op = (w.thread tid).op)
    (began : thread.began = (w.thread tid).began)
    (rotated : thread.rotated = (w.thread tid).rotated)
    (retired : thread.retired = (w.thread tid).retired)
    (pooled : thread.pooled = (w.thread tid).pooled) : Inv config (w.set tid thread) := by
  have old := inv.ok tid active
  refine inv.set active ⟨?_, ?_, ?_, ?_, ?_, ?_, ?_⟩ (.inr ⟨op, began⟩) fun x held => ?_
  · rw [pcs, began, rotated]
    exact place
  · rw [began]
    exact old.began
  · rw [rotated]
    exact old.rotated
  · rw [bags, index, began, pcs]
    exact fun x member => ⟨(old.current x member).1, fun first => (old.current x member).2
      (starting first)⟩
  · rw [bags, index, rotated]
    exact old.middle
  · rw [bags, index, rotated]
    exact old.oldest
  · intro number
    rw [count, bags, pooled, retired]
    exact old.once number
  · rw [Thread.Holds, bags] at held
    exact inv.known tid x held

theorem Inv.goto {pc : Pc}
    (place : pc.Ok config w.nodes tid (w.thread tid).began (w.thread tid).rotated)
    (starting : pc.starting = true → (w.thread tid).pc.starting = true) :
    Inv config (w.set tid ((w.thread tid).goto pc)) :=
  inv.place active rfl place starting rfl rfl rfl rfl rfl rfl rfl

theorem Inv.leave : Inv config (w.set tid (w.thread tid).leave) :=
  inv.place active rfl trivial nofun rfl rfl rfl rfl rfl rfl rfl

theorem Inv.readRoot :
    Inv config (w.set tid { w.thread tid with
      pc := .readThread (w.nodes 1)
      op := (w.thread tid).op + 1
      began := w.nodes 1 }) := by
  have old := inv.ok tid active
  refine inv.set active ⟨⟨rfl, inv.tree.root, inv.tree.single⟩,
    ⟨inv.tree.least tid active, Nat.le_refl _⟩, old.rotated, fun x member => ?_, old.middle,
    old.oldest, old.once⟩ (.inl (Nat.lt_succ_self _)) fun x held => inv.known tid x held
  exact ⟨(old.current x member).1, fun _ => (old.current x member).1⟩

theorem Inv.announce {readEpoch : Nat} (pc : (w.thread tid).pc = .announce readEpoch) :
    Inv config ((w.write (config.leaf tid) readEpoch).set tid
      { w.thread tid with pc := .rotate readEpoch, tried := false }) := by
  have old := inv.ok tid active
  have place := old.place
  rw [pc] at place
  obtain ⟨began, even, several, less⟩ := place
  have most : readEpoch ≤ w.nodes 1 := began ▸ old.began.2
  have apart : 1 ≠ config.leaf tid := by
    have positive := config.leaves_pos
    unfold Config.leaf
    omega
  have root : Function.update w.nodes (config.leaf tid) readEpoch 1 = w.nodes 1 :=
    Function.update_of_ne apart _ _
  have own : Function.update w.nodes (config.leaf tid) readEpoch (config.leaf tid) = readEpoch :=
    Function.update_self _ _ _
  refine inv.update active (inv.tree.announce less.le most even several) (update_up less.le)
    (fun other far => Function.update_of_ne (leaf_ne far) _ _) ⟨⟨began, even, own, ?_⟩, ⟨?_, ?_⟩,
      ⟨?_, old.rotated.2⟩, fun x member => ?_, old.middle,
      old.oldest, old.once⟩ (.inr ⟨rfl, rfl⟩) fun x held => inv.known tid x held
  · exact Nat.lt_of_le_of_lt old.rotated.1 less
  · rw [own]
    exact began.ge
  · rw [root]
    exact old.began.2
  · rw [own]
    exact old.rotated.1.trans less.le
  · have before := old.current x member
    rw [root]
    exact ⟨before.1, fun _ => before.2 (by rw [pc]; rfl)⟩

theorem Inv.rotate {readEpoch : Nat} (pc : (w.thread tid).pc = .rotate readEpoch) :
    Inv config (w.set tid (((w.thread tid).rotateEpochBags readEpoch).goto .tick)) := by
  have old := inv.ok tid active
  have place := old.place
  rw [pc] at place
  obtain ⟨began, even, own, less⟩ := place
  have lastEven := old.rotated.2
  obtain ⟨back, on, apart, apart', _, _⟩ := fin_around (w.thread tid).index
  refine inv.set active ⟨trivial, old.began, ⟨own.ge, even⟩, fun x member => ?_, fun x member => ?_,
    fun x member => ?_, fun number => ?_⟩ (.inr ⟨rfl, rfl⟩)
    fun x held => ?_
  · have before : x ∈ ((w.thread tid).epochbags ((w.thread tid).index + 1)).items := by
      simp only [Thread.rotateEpochBags, Thread.goto, Function.update_self] at member
      exact Bag.mem_rest member
    have bound := old.oldest x before
    have first := old.rotated.1
    have second := inv.tree.least tid active
    exact ⟨by omega, nofun⟩
  · simp only [Thread.rotateEpochBags, Thread.goto] at member ⊢
    rw [back, Function.update_of_ne apart] at member
    have bound := (old.current x member).2 (by rw [pc]; rfl)
    exact bound.trans began.le
  · simp only [Thread.rotateEpochBags, Thread.goto] at member ⊢
    rw [on, Function.update_of_ne apart'] at member
    have bound := old.middle x member
    omega
  · have sum := bagsTotal_update (marks Item.serial number) (w.thread tid).epochbags
      ((w.thread tid).index + 1)
      ((w.thread tid).epochbags ((w.thread tid).index + 1)).rest
    have parts := Bag.total_rest (marks Item.serial number)
      ((w.thread tid).epochbags ((w.thread tid).index + 1))
    have joined := tally_append Item.serial number (w.thread tid).pooled
      ((w.thread tid).epochbags ((w.thread tid).index + 1)).moved
    have same : tally Item.serial number ((w.thread tid).epochbags ((w.thread tid).index + 1)).moved
        = (((w.thread tid).epochbags ((w.thread tid).index + 1)).moved.map
          (marks Item.serial number)).sum := rfl
    have next : count number (((w.thread tid).rotateEpochBags readEpoch).goto .tick) =
      count number (w.thread tid) := by
      simp only [count, Thread.rotateEpochBags, Thread.goto]
      omega
    rw [next]
    exact old.once number
  · obtain ⟨i, member⟩ := held
    apply inv.known tid x
    by_cases self : i = (w.thread tid).index + 1
    · rw [self] at member
      simp only [Thread.rotateEpochBags, Thread.goto, Function.update_self] at member
      exact ⟨_, Bag.mem_rest member⟩
    · simp only [Thread.rotateEpochBags, Thread.goto] at member
      rw [Function.update_of_ne self] at member
      exact ⟨i, member⟩

theorem Inv.retire {size : Nat} {object : Object} (idle : (w.thread tid).pc = .idle) :
    Inv config (w.set tid ((w.thread tid).retire size ⟨object, (w.thread tid).retired, w.nodes 1,
      fun other => (w.thread other).op⟩)) := by
  have old := inv.ok tid active
  obtain ⟨_, _, _, _, other, other'⟩ := fin_around (w.thread tid).index
  refine inv.set active ⟨old.place, old.began, old.rotated, fun x member => ?_, fun x member => ?_,
    fun x member => ?_, fun number => ?_⟩ (.inr ⟨rfl, rfl⟩)
    fun x held => ?_
  · simp only [Thread.retire, Function.update_self] at member
    rcases Bag.mem_add.mp member with rfl | before
    · refine ⟨Nat.le_refl _, fun starting => ?_⟩
      simp only [Thread.retire, idle, Pc.starting] at starting
      cases starting
    · exact old.current x before
  · simp only [Thread.retire] at member
    rw [Function.update_of_ne other] at member
    exact old.middle x member
  · simp only [Thread.retire] at member
    rw [Function.update_of_ne other'] at member
    exact old.oldest x member
  · have before := old.once number
    generalize made : (⟨object, (w.thread tid).retired, w.nodes 1,
      fun other => (w.thread other).op⟩ : Item Object) = item
    have sum := bagsTotal_update (marks Item.serial number) (w.thread tid).epochbags
      (w.thread tid).index
      (((w.thread tid).epochbags (w.thread tid).index).add size item)
    have added := Bag.total_add (marks Item.serial number) size
      ((w.thread tid).epochbags (w.thread tid).index) item
    have mark : marks Item.serial number item = if (w.thread tid).retired = number then 1
      else 0 := by
      rw [marks, ← made]
    have next : count number ((w.thread tid).retire size item) = count number (w.thread tid) + marks
      Item.serial number item := by
      simp only [count, Thread.retire]
      omega
    show count number ((w.thread tid).retire size item) ≤ if number < (w.thread
      tid).retired + 1 then 1 else 0
    rw [next, mark]
    exact once_more before
  · obtain ⟨i, member⟩ := held
    by_cases self : i = (w.thread tid).index
    · rw [self] at member
      simp only [Thread.retire, Function.update_self] at member
      rcases Bag.mem_add.mp member with rfl | before
      · intro user
        refine ⟨Nat.le_refl _, fun _ => ?_⟩
        show (w.thread user).began ≤ w.nodes 1
        by_cases below : user < config.threads
        · exact (inv.ok user below).began.2
        · exact (inv.outside user (by omega)).2.1
      · exact inv.known tid x ⟨_, before⟩
    · simp only [Thread.retire] at member
      rw [Function.update_of_ne self] at member
      exact inv.known tid x ⟨i, member⟩

theorem Inv.casRoot {currIx val parentVal : Nat}
    (pc : (w.thread tid).pc = .casRoot currIx val parentVal)
    (same : w.nodes (parent currIx) = parentVal) :
    Inv config ((w.write (parent currIx) (parentVal + 2)).set tid (w.thread tid).leave) := by
  have old := inv.ok tid active
  have place := old.place
  rw [pc] at place
  obtain ⟨climbs, across, top, equal⟩ := place
  have several : 2 ≤ config.leaves := by
    have inside := climbs.inside
    omega
  rw [top] at same across ⊢
  have raised : TreeOk config (Function.update w.nodes 1 (parentVal + 2)) := by
    have whole : Across config w.nodes 1 (w.nodes 1) := by
      rw [same, equal]
      exact across
    rw [← same]
    exact inv.tree.advance several whole
  have up (ix : Nat) : w.nodes ix ≤ Function.update w.nodes 1 (parentVal + 2) ix :=
    update_up (by omega) ix
  have leaf (other : Nat) : Function.update w.nodes 1 (parentVal + 2) (config.leaf other) =
    w.nodes (config.leaf other) := by
    apply Function.update_of_ne
    unfold Config.leaf
    omega
  have kept := old.keep up (leaf tid)
  exact inv.update active raised up (fun other _ => leaf other) ⟨trivial, kept.began, kept.rotated,
    fun x member => ⟨(kept.current x member).1, nofun⟩, kept.middle,
    kept.oldest, kept.once⟩ (.inr ⟨rfl, rfl⟩) fun x held => inv.known tid x held

theorem Inv.casParent {currIx val parentVal : Nat}
    (pc : (w.thread tid).pc = .casParent currIx val parentVal)
    (same : w.nodes (parent currIx) = parentVal) :
    Inv config ((w.write (parent currIx) val).set tid
      ((w.thread tid).goto (.readSibling (parent currIx) val))) := by
  have old := inv.ok tid active
  have place := old.place
  rw [pc] at place
  obtain ⟨climbs, across, notTop, less⟩ := place
  have bound := climbs.parent_lt
  have raised := inv.tree.carry active (by omega) bound.1 climbs.own across
  have up (ix : Nat) : w.nodes ix ≤ Function.update w.nodes (parent currIx) val ix :=
    update_up (by omega) ix
  have leaf (other : Nat) : Function.update w.nodes (parent currIx) val (config.leaf other) =
    w.nodes (config.leaf other) := by
    apply Function.update_of_ne
    unfold Config.leaf
    omega
  have kept := old.keep up (leaf tid)
  refine inv.update active raised up (fun other _ => leaf other) ⟨?_, kept.began, kept.rotated,
    fun x member => ⟨(kept.current x member).1, nofun⟩, kept.middle,
    kept.oldest, kept.once⟩ (.inr ⟨rfl, rfl⟩) fun x held => inv.known tid x held
  exact ⟨⟨by omega, by omega⟩, climbs.under.up, (leaf tid).trans climbs.own, across.keep up⟩

omit active in
theorem move_inv {tid : Nat} {after : World Object} (moved : move config w tid = some after) :
    Inv config after := by
  have reach : (w.thread tid).pc ≠ .idle → tid < config.threads := inv.active_of
  unfold move at moved
  dsimp only at moved
  split at moved
  · cases moved
  · rename_i pc
    cases moved
    exact inv.readRoot (reach (by rw [pc]; nofun))
  · rename_i readEpoch pc
    have active := reach (by rw [pc]; nofun)
    have place := (inv.ok tid active).place
    rw [pc] at place
    obtain ⟨began, even, single⟩ := place
    cases moved
    split
    · rename_i other
      refine inv.goto active ⟨began, even, fun one => ?_, ?_⟩ fun _ => by rw [pc]; rfl
      · have zero : tid = 0 := by
          have enough := config.threads_le
          omega
        apply other
        have here : config.leaf tid = 1 := by
          unfold Config.leaf
          omega
        rw [here, inv.tree.single one, single one]
        rfl
      · have least := (inv.ok tid active).began.1
        rw [bitsEpoch, inv.tree.even tid active] at other
        omega
    · exact inv.goto active trivial nofun
  · rename_i readEpoch pc
    cases moved
    exact inv.announce (reach (by rw [pc]; nofun)) pc
  · rename_i readEpoch pc
    cases moved
    exact inv.rotate (reach (by rw [pc]; nofun)) pc
  · rename_i pc
    cases moved
    have active := reach (by rw [pc]; nofun)
    split
    · exact inv.place active rfl trivial nofun rfl rfl rfl rfl rfl rfl rfl
    · exact inv.place active rfl trivial nofun rfl rfl rfl rfl rfl rfl rfl
  · rename_i pc
    cases moved
    have active := reach (by rw [pc]; nofun)
    split
    · rename_i large
      refine inv.goto active ⟨⟨large, (leaf_inside active).2⟩, under_self _, rfl,
        fun other below under => ?_⟩ nofun
      rw [under.leaf (leaf_inside below).2 (leaf_inside active).1]
    · exact inv.leave active
  · rename_i currIx val pc
    cases moved
    have active := reach (by rw [pc]; nofun)
    have place := (inv.ok tid active).place
    rw [pc] at place
    split
    · rename_i agrees
      exact inv.goto active ⟨place, Climbs.across inv.tree place agrees⟩ nofun
    · exact inv.leave active
  · rename_i currIx val pc
    have active := reach (by rw [pc]; nofun)
    have place := (inv.ok tid active).place
    rw [pc] at place
    split at moved <;> cases moved
    · rename_i top
      split
      · exact inv.leave active
      · rename_i equal
        exact inv.goto active ⟨place.1, place.2, top, not_not.mp equal⟩ nofun
    · rename_i notTop
      split
      · exact inv.leave active
      · rename_i less
        exact inv.goto active ⟨place.1, place.2, notTop, by omega⟩ nofun
  · rename_i currIx val parentVal pc
    have active := reach (by rw [pc]; nofun)
    split at moved <;> cases moved
    · rename_i same
      exact inv.casRoot active pc same
    · exact inv.leave active
  · rename_i currIx val parentVal pc
    have active := reach (by rw [pc]; nofun)
    split at moved <;> cases moved
    · rename_i same
      exact inv.casParent active pc same
    · exact inv.leave active

end Steps

theorem step_inv (config : Config) (before : World Object) (event : Event Object)
    (after : World Object) (inv : Inv config before) (_ : free before event)
    (stepped : step config before event = some after) : Inv config after := by
  cases event with
  | startOp tid =>
      obtain ⟨⟨active, _⟩, ⟨⟩⟩ := Option.ite_none_right_eq_some.mp stepped
      exact inv.goto active trivial nofun
  | retire tid object =>
      obtain ⟨⟨active, idle⟩, ⟨⟩⟩ := Option.ite_none_right_eq_some.mp stepped
      exact inv.retire active idle
  | move tid => exact move_inv inv stepped

theorem init_leaf {config : Config} {tid : Nat} (active : tid < config.threads)
    (several : config.leaves ≠ 1) : config.initNodes (config.leaf tid) = 0 := by
  have positive := config.leaves_pos
  rw [init_other (by unfold Config.leaf; omega)]
  rcases (padded_ok (by omega : 0 < config.threads)).1 (config.leaf tid) with zero | ⟨_, _, _,
    nobody⟩
  · exact zero
  · exact absurd (under_self _) (nobody tid active)

theorem initial_inv (config : Config) : Inv config (initial config : World Object) := by
  have tree : TreeOk config config.initNodes := by
    have leaf (tid : Nat) (active : tid < config.threads) : config.initNodes (config.leaf tid) = 0 ∨
      config.initNodes (config.leaf tid) = 2 ∧ config.leaves = 1 := by
      by_cases single : config.leaves = 1
      · right
        have here : config.leaf tid = 1 := by
          have enough := config.threads_le
          unfold Config.leaf
          omega
        rw [here]
        exact ⟨init_root, single⟩
      · exact .inl (init_leaf active single)
    refine ⟨fun tid active => ?_, by rw [init_root], fun tid active => ?_, fun tid active => ?_,
      fun ix low high tid active under => ?_, fun _ => init_root⟩
    · have value := leaf tid active
      omega
    · have value := leaf tid active
      rw [init_root]
      omega
    · rw [init_root]
      omega
    · rw [init_other (show ix ≠ 1 by omega)]
      rcases (padded_ok (by omega : 0 < config.threads)).1 ix with zero | ⟨_, _, _, nobody⟩
      · rw [zero]
        exact ⟨Nat.zero_le _, rfl⟩
      · exact absurd under (nobody tid active)
  have empty (tid : Nat) (x : Item Object) : ¬ ((initial config : World Object).thread tid).Holds
    x := by
    rintro ⟨i, member⟩
    cases member
  have root : config.initNodes 1 = 2 := init_root
  refine ⟨tree, fun tid active => ?_, fun tid _ => ⟨rfl, root.ge, empty tid⟩,
    fun tid x held => absurd held (empty tid x)⟩
  refine ⟨trivial, ⟨?_, root.ge⟩, ⟨Nat.zero_le _, rfl⟩, nofun, nofun, nofun,
    fun number => Nat.zero_le _⟩
  show config.initNodes (config.leaf tid) ≤ 2
  rw [← root]
  exact tree.least tid active

-- Only the rotation hands objects over.
theorem pooled_set {w : World Object} {tid : Nat} {thread : Thread Object}
    (same : thread.pooled = (w.thread tid).pooled) (other : Nat) :
    (Function.update w.thread tid thread other).pooled = (w.thread other).pooled := by
  by_cases self : other = tid
  · rw [self, Function.update_self]
    exact same
  · rw [Function.update_of_ne self]

def Pools (old new : Thread Object) : Prop :=
  new.pooled = old.pooled ∨ ∃ readEpoch, old.pc = .rotate readEpoch ∧ new.pooled =
    old.pooled ++ (old.epochbags (old.index + 1)).moved

theorem move_pools {config : Config} {w after : World Object} {tid : Nat}
    (moved : move config w tid = some after) (other : Nat) :
    Pools (w.thread other) (after.thread other) := by
  unfold move at moved
  dsimp only at moved
  split at moved
  · cases moved
  · cases moved
    exact .inl (pooled_set (by rfl) other)
  · cases moved
    exact .inl (pooled_set (by rfl) other)
  · cases moved
    exact .inl (pooled_set (by rfl) other)
  · rename_i readEpoch pc
    cases moved
    by_cases self : other = tid
    · subst self
      refine .inr ⟨readEpoch, pc, ?_⟩
      simp only [World.set, Function.update_self]
      rfl
    · refine .inl ?_
      simp only [World.set]
      rw [Function.update_of_ne self]
  · cases moved
    exact .inl (pooled_set (by rfl) other)
  · cases moved
    refine .inl (pooled_set ?_ other)
    split <;> rfl
  · cases moved
    refine .inl (pooled_set ?_ other)
    split <;> rfl
  · split at moved <;> cases moved
    · refine .inl (pooled_set ?_ other)
      split <;> rfl
    · refine .inl (pooled_set ?_ other)
      split <;> rfl
  · split at moved <;> cases moved
    · exact .inl (pooled_set (by rfl) other)
    · exact .inl (pooled_set (by rfl) other)
  · split at moved <;> cases moved
    · exact .inl (pooled_set (by rfl) other)
    · exact .inl (pooled_set (by rfl) other)

theorem step_pools {config : Config} {w after : World Object} {event : Event Object}
    (stepped : step config w event = some after) (other : Nat) :
    Pools (w.thread other) (after.thread other) := by
  cases event with
  | startOp tid | retire tid object =>
      obtain ⟨_, ⟨⟩⟩ := Option.ite_none_right_eq_some.mp stepped
      exact .inl (pooled_set (by rfl) other)
  | move tid => exact move_pools stepped other

theorem step_up {config : Config} {w after : World Object} (inv : Inv config w)
    {event : Event Object} (stepped : step config w event = some after) (ix : Nat) :
    w.nodes ix ≤ after.nodes ix := by
  cases event with
  | startOp tid | retire tid object =>
      obtain ⟨_, ⟨⟩⟩ := Option.ite_none_right_eq_some.mp stepped
      exact Nat.le_refl _
  | move tid =>
      have moved : move config w tid = some after := stepped
      have reach : (w.thread tid).pc ≠ .idle → tid < config.threads := inv.active_of
      unfold move at moved
      dsimp only at moved
      split at moved
      · cases moved
      · cases moved
        exact Nat.le_refl _
      · cases moved
        exact Nat.le_refl _
      · rename_i readEpoch pc
        have place := (inv.ok tid (reach (by rw [pc]; nofun))).place
        rw [pc] at place
        cases moved
        exact update_up place.2.2.2.le ix
      · cases moved
        exact Nat.le_refl _
      · cases moved
        exact Nat.le_refl _
      · cases moved
        exact Nat.le_refl _
      · cases moved
        exact Nat.le_refl _
      · split at moved <;> cases moved <;> exact Nat.le_refl _
      · split at moved <;> cases moved
        · rename_i same
          exact update_up (by omega) ix
        · exact Nat.le_refl _
      · rename_i currIx val parentVal pc
        have place := (inv.ok tid (reach (by rw [pc]; nofun))).place
        rw [pc] at place
        split at moved <;> cases moved
        · rename_i same
          exact update_up (by have := place.2.2.2; omega) ix
        · exact Nat.le_refl _

/-- In every state, for every number of threads: an inner node other than the root holds no
more than the announcement of any thread below it, the epoch is at most one increment ahead
of every announcement, no node decreases, a thread whose objects are handed to the pool finds
every operation ended that was in progress when they were retired, and the retire calls whose
objects were handed over are all different. -/
theorem epoch_tree_reclaims_safely {config : Config} {events : List (Event Object)}
    {w : World Object} (run : Run (step config) free (initial config) events w) :
    (∀ ix, 2 ≤ ix → ix < config.leaves → ∀ tid < config.threads, Under ix (config.leaf tid) →
      w.nodes ix ≤ w.nodes (config.leaf tid))
      ∧ (∀ tid < config.threads, w.nodes 1 ≤ w.nodes (config.leaf tid) + 2)
      ∧ (∀ event after, step config w event = some after → (∀ ix, w.nodes ix ≤ after.nodes ix)
        ∧ ∀ tid handed, (after.thread tid).pooled = (w.thread tid).pooled ++ handed →
          ∀ x ∈ handed, ∀ other < config.threads, x.during other < (w.thread other).op)
      ∧ ∀ tid < config.threads, ((w.thread tid).pooled.map Item.serial).Nodup := by
  have inv : Inv config w := run_invariant (Inv config) (initial_inv config) (step_inv config) run
  refine ⟨fun ix low high tid active under => (inv.tree.inner ix low high tid active under).1,
    inv.tree.most,
    fun event after stepped =>
      ⟨step_up inv stepped, fun tid handed pooled x member other below => ?_⟩, fun tid active => ?_⟩
  · rcases step_pools stepped tid with same | ⟨readEpoch, pc, more⟩
    · rw [same] at pooled
      rw [List.self_eq_append_right.mp pooled] at member
      cases member
    · rw [more] at pooled
      rw [← List.append_cancel_left pooled] at member
      have active : tid < config.threads := inv.active_of (by rw [pc]; nofun)
      have ok := inv.ok tid active
      have place := ok.place
      rw [pc] at place
      obtain ⟨_, even, own, less⟩ := place
      have aged := ok.oldest x (Bag.mem_moved member)
      have lastEven := ok.rotated.2
      have bound := inv.tree.least tid active
      obtain ⟨earlier, began⟩ := inv.known tid x ⟨_, Bag.mem_moved member⟩ other
      -- An operation still in progress began no later than the retirement, so the epoch is too
      -- small.
      by_contra still
      have late := began (by omega)
      have first := (inv.ok other below).began.1
      have second := inv.tree.most other below
      omega
  · refine nodup_of_tally fun number => ?_
    have bound := (inv.ok tid active).once number
    unfold count at bound
    split at bound <;> omega

def startOpBy (tid steps : Nat) : List (Event Unit) :=
  .startOp tid :: List.replicate steps (.move tid)

-- Two threads take turns; thread 0 is about to rotate for the third time since it retired.
def retireAndTakeTurns : List (Event Unit) :=
  [[.retire 0 ()], startOpBy 0 7, startOpBy 1 9, startOpBy 0 7, startOpBy 1 9,
    startOpBy 0 3].flatten

theorem retired_object_rotated_out :
    ∃ w after x, Run (step ⟨2, 1, 1⟩) free (initial ⟨2, 1, 1⟩) retireAndTakeTurns w
    ∧ step ⟨2, 1, 1⟩ w (.move 0) = some after ∧ (after.thread 0).pooled =
      (w.thread 0).pooled ++ [x] ∧ x.during 1 < (w.thread 1).op
    ∧ ((w.thread 0).pooled.map Item.serial).Nodup := by
  have replayed : (replay (step ⟨2, 1, 1⟩) free retireAndTakeTurns (initial ⟨2, 1, 1⟩)).map
    (fun w =>
      ((step ⟨2, 1, 1⟩ w (.move 0)).map fun after => (after.thread 0).pooled.length,
        (w.thread 0).pooled.length)) = some (some 1, 0) := by
    decide +kernel
  obtain ⟨w, same, values⟩ := Option.map_eq_some_iff.mp replayed
  simp only [Prod.mk.injEq] at values
  obtain ⟨after, stepped, length⟩ := Option.map_eq_some_iff.mp values.1
  obtain ⟨x, pooled⟩ := List.length_eq_one_iff.mp length
  have handed : (after.thread 0).pooled = (w.thread 0).pooled ++ [x] := by
    rw [pooled, List.eq_nil_of_length_eq_zero values.2]
    rfl
  have run := run_of_replay retireAndTakeTurns same
  obtain ⟨_, _, stepSafe, once⟩ := epoch_tree_reclaims_safely run
  exact ⟨w, after, x, run, stepped, handed, (stepSafe _ after stepped).2 0 [x] handed x
    List.mem_cons_self 1 (by decide), once 0 (by decide)⟩

end SetBench.EpochTree
