import SetBench.AbRestructureRun

/-! The new nodes of the three replacements. -/
namespace SetBench.AbRestructure

open Transition
open AbPersist (Word clean markDirty entry)

variable {degree : Nat} {w after : World} {tid : Nat} {height tall : Nat → Nat} {info : Info}

/-- A clean pointer to a node one weighted level below `h`. -/
structure Below (height : Nat → Nat) (w : World) (h : Nat) (x : Word) : Prop where
  clean : x.dirty = false
  notEntry : x.value ≠ entry
  born : x.value < w.fresh
  level : height x.value + (w.weight x.value).toNat = h

structure Fits (height : Nat → Nat) (w : World) (node : NewNode) (h : Nat) : Prop where
  tag : node.weight = false → node.leaf = false
  ground : node.leaf = true ↔ h = 0
  inner : node.leaf = false → 1 ≤ node.size ∧ node.size ≤ node.ptrs.length
  ptrs : ∀ x ∈ node.ptrs, Below height w h x

-- The levels of old and new nodes.
def lift (height : Nat → Nat) (w : World) (heights : List Nat) (n : Nat) : Nat :=
  if n < w.fresh then height n else heights.getD (n - w.fresh) 0

section Build

variable {nodes : List NewNode} {heights : List Nat}

theorem build_grows : Grows height w (lift height w heights) (w.build nodes) := by
  refine ⟨Nat.le_add_right .., ?_, ?_, ?_, ?_⟩
  · exact fun n less => if_pos less
  · exact fun n less => if_pos less
  · exact fun n less _ => if_pos less
  · exact fun n less => if_pos less

theorem build_new {k : Nat} {node : NewNode} (found : nodes[k]? = some node) :
    (w.build nodes).leaf (w.fresh + k) = node.leaf ∧ (w.build nodes).weight (w.fresh + k) =
    node.weight ∧
      (w.build nodes).size (w.fresh + k) = node.size ∧
      ∀ i, (w.build nodes).slot (w.fresh + k) i = node.ptrs.getD i (clean 0) := by
  simp [World.build, found]

theorem lift_new {k h : Nat} (found : heights[k]? = some h) :
    lift height w heights (w.fresh + k) = h := by
  simp [lift, List.getD_eq_getElem?_getD, found]

theorem Below.lift {h : Nat} {x : Word} (below : Below height w h x) :
    Below (AbRestructure.lift height w heights) (w.build nodes) h x := by
  have grows : Grows height w (AbRestructure.lift height w heights) (w.build nodes) := build_grows
  refine ⟨below.clean, below.notEntry, below.born.trans_le grows.fresh, ?_⟩
  rw [grows.height _ below.born, grows.weight _ below.born]
  exact below.level

theorem Below.new (shape : Shape height w) {k g h : Nat} {node : NewNode}
    (found : nodes[k]? = some node) (level : heights[k]? = some g)
    (sum : g + node.weight.toNat = h) :
    Below (AbRestructure.lift height w heights) (w.build nodes) h
      (AbPersist.clean (w.fresh + k)) := by
  have born := shape.born
  refine ⟨rfl, ?_, ?_, ?_⟩
  · show w.fresh + k ≠ entry
    omega
  · show w.fresh + k < w.fresh + nodes.length
    have bound := (List.getElem?_eq_some_iff.mp found).1
    omega
  · show AbRestructure.lift height w heights
      (w.fresh + k) + ((w.build nodes).weight (w.fresh + k)).toNat = h
    rw [lift_new level, (build_new found).2.1]
    exact sum

-- A number from `fresh` on is the number of a new node.
theorem new_index {n : Nat} (far : ¬ n < w.fresh) (less : n < (w.build nodes).fresh) :
    ∃ k node, n = w.fresh + k ∧ nodes[k]? = some node := by
  have less : n < w.fresh + nodes.length := less
  have bound : n - w.fresh < nodes.length := by omega
  exact ⟨n - w.fresh, nodes[n - w.fresh], by omega, List.getElem?_eq_getElem bound⟩

theorem Shape.build (shape : Shape height w) (length : heights.length = nodes.length)
    (fits : ∀ (k : Nat) (node : NewNode) (h : Nat), nodes[k]? = some node → heights[k]? = some h →
      Fits (AbRestructure.lift height w heights) (w.build nodes) node h) :
    Shape (lift height w heights) (w.build nodes) := by
  have grows : Grows height w (AbRestructure.lift height w heights) (w.build nodes) := build_grows
  have level {k : Nat} {node : NewNode} (found : nodes[k]? = some node) : ∃ h, heights[k]? =
    some h ∧
      Fits (AbRestructure.lift height w heights) (w.build nodes) node h := by
    have bound : k < heights.length := length ▸ (List.getElem?_eq_some_iff.mp found).1
    exact ⟨_, List.getElem?_eq_getElem bound, fits k node _ found (List.getElem?_eq_getElem bound)⟩
  refine ⟨?_, ?_, ?_, shape.born.trans_le grows.fresh, ?_, ?_, ?_, ?_⟩
  · exact (grows.leaf _ shape.born).trans shape.entry_leaf
  · exact (grows.size _ shape.born shape.entry_leaf).trans shape.entry_size
  · exact (grows.weight _ shape.born).trans shape.entry_weight
  · intro n less tagged
    by_cases old : n < w.fresh
    · rw [grows.weight n old] at tagged
      exact (grows.leaf n old).trans (shape.tag n old tagged)
    · obtain ⟨k, node, rfl, found⟩ := new_index old less
      obtain ⟨h, _, good⟩ := level found
      rw [(build_new found).2.1] at tagged
      rw [(build_new found).1]
      exact good.tag tagged
  · intro n less inner
    by_cases old : n < w.fresh
    · rw [grows.leaf n old] at inner
      rw [grows.size n old inner]
      exact shape.inner n old inner
    · obtain ⟨k, node, rfl, found⟩ := new_index old less
      obtain ⟨h, _, good⟩ := level found
      rw [(build_new found).1] at inner
      rw [(build_new found).2.2.1]
      exact (good.inner inner).1
  · intro n less
    by_cases old : n < w.fresh
    · rw [grows.leaf n old, grows.height n old]
      exact shape.ground n old
    · obtain ⟨k, node, rfl, found⟩ := new_index old less
      obtain ⟨h, here, good⟩ := level found
      rw [(build_new found).1, lift_new here]
      exact good.ground
  · intro n less inner i bound
    by_cases old : n < w.fresh
    · rw [grows.leaf n old] at inner
      rw [grows.size n old inner] at bound
      have same : (w.build nodes).slot n i = w.slot n i := if_pos old
      rw [same]
      exact (shape.slots n old inner i bound).kept grows old
    · obtain ⟨k, node, rfl, found⟩ := new_index old less
      obtain ⟨h, here, good⟩ := level found
      rw [(build_new found).1] at inner
      rw [(build_new found).2.2.1] at bound
      have within : i < node.ptrs.length := bound.trans_le (good.inner inner).2
      have below := good.ptrs node.ptrs[i] (List.getElem_mem within)
      have slot : (w.build nodes).slot (w.fresh + k) i = node.ptrs[i] := by
        rw [(build_new found).2.2.2 i, List.getD_eq_getElem?_getD, List.getElem?_eq_getElem within]
        rfl
      rw [slot]
      refine ⟨below.notEntry, below.born, fun _ => ?_, fun top => ?_⟩
      · rw [lift_new here]
        exact below.level
      · have born := shape.born
        exact absurd top (by omega)

end Build

/-! A thread that has all its locks. -/

section Locked

variable {fix : Fix} {held : List Word}

@[simp] theorem children_length (p : Word) : (w.children p).length = w.size p.value := by
  simp [World.children]

-- The children of a locked node are clean, as a writer holds the lock.
theorem Inv.children (inv : Inv height w) (here : w.pc tid = .locking fix [] held) {p : Word}
    (inner : Inner w p) (other : p.value ≠ entry) (locked : w.lock p.value = some tid) :
    ∀ x ∈ w.children p, Below height w (height p.value) x := by
  intro x member
  simp only [World.children, List.mem_map, List.mem_range] at member
  obtain ⟨i, bound, rfl⟩ := member
  have child := inv.shape.slots p.value inner.born inner.inner i bound
  refine ⟨?_, child.notEntry, child.born, child.level other⟩
  by_contra marked
  simp only [Bool.not_eq_false] at marked
  obtain ⟨t, g, x, rest, next, owner, there, _⟩ := inv.dirty p.value i marked
  rw [locked] at owner
  cases owner
  rw [here] at there
  cases there

theorem LockOk.locked {todo : List Check} (ok : LockOk w tid fix todo held) (done : todo = [])
    {p : Word} (member : some p ∈ fix.reads) :
    p ∈ held ∧ w.lock p.value = some tid := by
  subst done
  rcases ok.owned (some p) member with absurd_ | ⟨q, among, same⟩
  · cases absurd_
  · cases same
    exact ⟨among, (ok.mine p among).2⟩

theorem unlocks_swing {g : Word} {i n : Nat} {replaced : List Word} :
    unlocks (replaced.map Act.mark ++ held.map Act.unlock) = held.map Word.value ∧
      unlocks (swing g i n replaced held) = held.map Word.value := by
  have marks : unlocks (replaced.map Act.mark ++ held.map Act.unlock) = held.map Word.value := by
    simp [unlocks, List.filterMap_append, List.filterMap_map]
  exact ⟨marks, marks⟩

theorem RunOk.releases (real : ∀ p ∈ held, Real w p) (once : (held.map Word.value).Nodup) :
    RunOk height w (held.map Act.unlock) := by
  induction held with
  | nil => trivial
  | cons p held ih =>
      have fresh := List.nodup_cons.mp once
      refine ⟨real p List.mem_cons_self, ?_,
        ih (fun q member => real q (List.mem_cons_of_mem _ member)) fresh.2⟩
      intro member
      refine fresh.1 ?_
      simpa [unlocks, List.filterMap_map, Function.comp_def] using member

theorem RunOk.marks {replaced : List Word} {acts : List Act} (real : ∀ p ∈ replaced, Real w p)
    (ok : RunOk height w acts) :
    RunOk height w (replaced.map Act.mark ++ acts) := by
  induction replaced with
  | nil => exact ok
  | cons p replaced ih =>
      exact ⟨real p List.mem_cons_self, ih fun q member => real q (List.mem_cons_of_mem _ member)⟩

/-- The new nodes are hung under a locked node. -/
theorem Inv.replace (inv : Inv height w) {nodes : List NewNode}
    (here : w.pc tid = .locking fix [] held) {heights : List Nat}
    (length : heights.length = nodes.length)
    (fits : ∀ (k : Nat) (node : NewNode) (h : Nat), nodes[k]? = some node → heights[k]? = some h →
      Fits (AbRestructure.lift height w heights) (w.build nodes) node h)
    {g : Word} {i target : Nat} (inner : Inner w g) (index : i < w.size g.value)
    (member : g ∈ held) (child : Child (lift height w heights) (w.build nodes) g.value target)
    (marks : ∀ p ∈ fix.replaced, Real w p) :
    Inv (lift height w heights)
      ((w.build nodes).goto tid (.run (swing g i target fix.replaced held) (some .cleanup))) := by
  have mine := inv.threads tid
  rw [here] at mine
  obtain ⟨_, locks⟩ := mine
  have grows : Grows height w (AbRestructure.lift height w heights) (w.build nodes) := build_grows
  have stays {n t : Nat} (locked : w.lock n = some t) : (w.build nodes).lock n = some t := by
    have less : n < w.fresh := by
      by_contra far
      exact nomatch locked.symm.trans (inv.unused n (not_lt.mp far))
    exact (if_pos less).trans locked
  refine inv.goto grows rfl (inv.shape.build length fits) ?_ ?_ (fun _ _ _ locked _ => stays locked)
    ⟨?_, ?_⟩
  · intro n j marked
    have old : (w.slot n j).dirty = true := by
      by_cases less : n < w.fresh
      · have same : (w.build nodes).slot n j = w.slot n j := if_pos less
        rw [← same]
        exact marked
      · exfalso
        by_cases far : n < (w.build nodes).fresh
        · obtain ⟨k, node, rfl, found⟩ := new_index less far
          have bound : k < heights.length := length ▸ (List.getElem?_eq_some_iff.mp found).1
          have good := fits k node _ found (List.getElem?_eq_getElem bound)
          rw [(build_new found).2.2.2 j, List.getD_eq_getElem?_getD] at marked
          by_cases within : j < node.ptrs.length
          · rw [List.getElem?_eq_getElem within] at marked
            have tidy := (good.ptrs _ (List.getElem_mem within)).clean
            exact nomatch marked.symm.trans tidy
          · rw [List.getElem?_eq_none (not_lt.mp within)] at marked
            cases marked
        · have far : ¬ n < w.fresh + nodes.length := far
          have none_ : nodes[n - w.fresh]? = none := List.getElem?_eq_none (by omega)
          simp [World.build, less, none_, clean] at marked
    exact inv.dirty_goto (by simp [here]) (by rfl) (fun _ _ _ locked => stays locked) old
  · intro n far
    have far : w.fresh + nodes.length ≤ n := far
    exact if_neg (by omega)
  · have tail : RunOk (lift height w heights) (w.build nodes)
      (fix.replaced.map Act.mark ++ held.map Act.unlock) := by
      refine RunOk.marks (fun p among => (marks p among).kept grows) ?_
      exact RunOk.releases (fun p among => (locks.mine p among).1.kept grows) locks.once
    have later : g.value ∈ unlocks (fix.replaced.map Act.mark ++ held.map Act.unlock) := by
      rw [(unlocks_swing (g := g) (i := i) (n := target)).1]
      exact List.mem_map_of_mem member
    have size := inner.size_kept grows
    refine ⟨inner.kept grows, size ▸ index, child, later, fun _ => ⟨_, _, rfl, rfl⟩, ?_⟩
    refine ⟨inner.kept grows, size ▸ index, child, later, ?_, tail⟩
    rintro ⟨⟩
  · intro n among
    rw [unlocks_swing.2] at among
    obtain ⟨p, one, rfl⟩ := List.mem_map.mp among
    exact stays (locks.mine p one).2

theorem Fits.leaf {h size : Nat} (zero : h = 0) : Fits height w ⟨true, true, size, []⟩ h := by
  refine ⟨nofun, ⟨fun _ => zero, fun _ => rfl⟩, nofun, ?_⟩
  rintro _ ⟨⟩

theorem Fits.inner_node {h size : Nat} {weight : Bool} {ptrs : List Word} (positive : h ≠ 0)
    (some_ : 1 ≤ size) (enough : size ≤ ptrs.length) (below : ∀ x ∈ ptrs, Below height w h x) :
    Fits height w ⟨false, weight, size, ptrs⟩ h :=
  ⟨fun _ => rfl, ⟨nofun, fun zero => absurd zero positive⟩, fun _ => ⟨some_, enough⟩, below⟩

theorem Inner.positive (shape : Shape height w) {p : Word} (inner : Inner w p) :
    height p.value ≠ 0 := by
  intro zero
  have leaf := (shape.ground p.value inner.born).mpr zero
  exact nomatch leaf.symm.trans inner.inner

-- The new node at the top of a replacement as a child of `g`.
theorem Child.hung (shape : Shape height w) {nodes : List NewNode} {heights : List Nat}
    {k h : Nat} {node : NewNode} {g : Word} (real : Real w g) (found : nodes[k]? = some node)
    (level : heights[k]? = some h)
    (sum : g.value ≠ entry → h + node.weight.toNat = height g.value)
    (top : g.value = entry → node.weight = true ∧ (node.leaf = false → 2 ≤ node.size)) :
    Child (lift height w heights) (w.build nodes) g.value (w.fresh + k) := by
  have grows : Grows height w (AbRestructure.lift height w heights) (w.build nodes) := build_grows
  obtain ⟨leaf, weight, size, _⟩ := build_new (w := w) found
  have born := shape.born
  refine ⟨by omega, ?_, ?_, ?_⟩
  · show w.fresh + k < w.fresh + nodes.length
    have bound := (List.getElem?_eq_some_iff.mp found).1
    omega
  · intro other
    rw [lift_new level, weight, grows.height _ real.born]
    exact sum other
  · intro same
    rw [leaf, weight, size]
    exact top same

theorem Real.eq_clean {p : Word} (real : Real w p) {n : Nat} (same : p.value = n) :
    p = AbPersist.clean n := by
  have tidy := real.clean
  cases p with
  | mk value dirty =>
      simp only at same tidy
      rw [same, tidy]
      rfl

theorem Inv.overflow (inv : Inv height w) (here : w.pc tid = .locking (.overflow info) [] held) :
    ∃ tall, Inv tall ((w.build (w.replacement degree (.overflow info))).goto tid
      (.run (swing info.parent info.nodeIndex (w.fresh + 2) (Fix.overflow info).replaced held)
        (some .cleanup))) := by
  have mine := inv.threads tid
  rw [here] at mine
  obtain ⟨⟨ok, leaf⟩, locks⟩ := mine
  have member : info.parent ∈ held := (locks.locked rfl (by simp [Fix.reads])).1
  have ground : height info.node.value = 0 := (inv.shape.ground _ ok.child.born).mp leaf
  have heavy : w.weight info.node.value = true := by
    by_contra tagged
    have inner := inv.shape.tag _ ok.child.born (by simpa using tagged)
    cases leaf.symm.trans inner
  refine ⟨lift height w [0, 0, 1], inv.replace here rfl ?_ ok.parent ok.index member ?_ ?_⟩
  · intro k node h found level
    rcases k with _ | _ | _ | k
    · cases found
      cases level
      exact Fits.leaf rfl
    · cases found
      cases level
      exact Fits.leaf rfl
    · cases found
      cases level
      refine Fits.inner_node one_ne_zero one_le_two le_rfl ?_
      intro x among
      simp only [List.mem_cons, List.not_mem_nil, or_false] at among
      rcases among with rfl | rfl
      · exact Below.new inv.shape (k := 0) rfl rfl rfl
      · exact Below.new inv.shape (k := 1) rfl rfl rfl
    · cases found
  · refine Child.hung inv.shape ok.parent.toReal (k := 2) rfl rfl ?_ ?_
    · intro other
      have level := ok.child.level other
      have differs : info.parent ≠ clean entry := fun same => other (congrArg Word.value same)
      rw [ground, heavy] at level
      simp only [differs, decide_false, Bool.toNat_false]
      simpa using level
    · intro same
      have equal := ok.parent.toReal.eq_clean same
      exact ⟨by simp [equal], fun _ => le_rfl⟩
  · intro p among
    simp only [Fix.replaced, List.mem_cons, List.not_mem_nil, or_false] at among
    rw [among]
    exact ok.node

theorem spliced_length (ok : InfoOk height w info) :
    (w.spliced info).length = w.size info.parent.value + w.size info.node.value - 1 := by
  have index := ok.index
  simp only [World.spliced, List.length_append, List.length_take, List.length_drop, children_length]
  omega

theorem spliced_below {h : Nat} (ours : ∀ x ∈ w.children info.parent, Below height w h x)
    (theirs : ∀ x ∈ w.children info.node, Below height w h x) :
    ∀ x ∈ w.spliced info, Below height w h x := by
  intro x member
  simp only [World.spliced, List.mem_append] at member
  rcases member with (member | member) | member
  · exact ours x (List.mem_of_mem_take member)
  · exact theirs x member
  · exact ours x (List.mem_of_mem_drop member)

theorem Inv.tag (inv : Inv height w) (here : w.pc tid = .locking (.tag info) [] held) {g : Word}
    (found : info.gParent = some g) :
    ∃ tall, Inv tall ((w.build (w.replacement degree (.tag info))).goto tid
      (.run (swing g info.parentIndex (w.fresh + (w.replacement degree (.tag info)).length - 1)
        (Fix.tag info).replaced held)
        (some .cleanup))) := by
  have mine := inv.threads tid
  rw [here] at mine
  obtain ⟨⟨ok, passed, tagged⟩, locks⟩ := mine
  have other := ok.tag_parent tagged
  obtain ⟨g', same, inner, index, child⟩ := ok.grand_some other
  cases found.symm.trans same
  have member : g ∈ held := (locks.locked rfl (by simp [Fix.reads, found])).1
  have node : Inner w info.node := ⟨ok.node, inv.shape.tag _ ok.child.born tagged⟩
  have level : height info.node.value = height info.parent.value := by
    have level := ok.child.level other
    rw [tagged] at level
    exact level
  have below : ∀ x ∈ w.spliced info, Below height w (height info.parent.value) x := by
    refine spliced_below (inv.children here ok.parent other ?_) ?_
    · exact (locks.locked rfl (by simp [Fix.reads])).2
    · rw [← level]
      exact inv.children here node ok.child.notEntry (locks.locked rfl (by simp [Fix.reads])).2
  have positive := ok.parent.positive inv.shape
  have wide := passed.2 other
  have some_ := inv.shape.inner _ node.born node.inner
  have length := spliced_length ok
  have marks : ∀ p ∈ (Fix.tag info).replaced, Real w p := by
    intro p among
    simp only [Fix.replaced, List.mem_cons, List.not_mem_nil, or_false] at among
    rcases among with rfl | rfl
    · exact ok.node
    · exact ok.parent.toReal
  have sum (elsewhere : g.value ≠ entry) : height info.parent.value + 1 = height g.value := by
    have level := child.level elsewhere
    rw [passed.1] at level
    exact level
  simp only [World.replacement]
  split
  · refine ⟨lift height w [height info.parent.value], inv.replace here rfl ?_ inner index member ?_
      marks⟩
    · intro k new h found level
      rcases k with _ | k
      · cases found
        cases level
        exact Fits.inner_node positive (by omega) (by omega) fun x among => (below x among).lift
      · cases found
    · refine Child.hung inv.shape inner.toReal (k := 0) rfl rfl sum fun _ => ⟨rfl, fun _ => ?_⟩
      show 2 ≤ w.size info.parent.value + w.size info.node.value - 1
      omega
  · set size := w.size info.parent.value + w.size info.node.value - 1 with def_
    refine ⟨lift height w [height info.parent.value, height info.parent.value,
      height info.parent.value + 1],
      inv.replace here rfl ?_ inner index member ?_ marks⟩
    · intro k new h found level
      rcases k with _ | _ | _ | k
      · cases found
        cases level
        refine Fits.inner_node positive (by omega) ?_ fun x among =>
          (below x (List.mem_of_mem_take among)).lift
        rw [List.length_take]
        omega
      · cases found
        cases level
        refine Fits.inner_node positive (by omega) ?_ fun x among =>
          (below x (List.mem_of_mem_drop among)).lift
        rw [List.length_drop]
        omega
      · cases found
        cases level
        refine Fits.inner_node (by omega) one_le_two le_rfl ?_
        intro x among
        simp only [List.mem_cons, List.not_mem_nil, or_false] at among
        rcases among with rfl | rfl
        · exact Below.new inv.shape (k := 0) rfl rfl rfl
        · exact Below.new inv.shape (k := 1) rfl rfl rfl
      · cases found
    · refine Child.hung inv.shape inner.toReal (k := 2) rfl rfl ?_ ?_
      · intro elsewhere
        have differs : info.gParent ≠ some (clean entry) := by
          intro equal
          cases found.symm.trans equal
          exact elsewhere rfl
        simp only [differs, decide_false, Bool.toNat_false]
        exact sum elsewhere
      · intro same
        have equal := inner.toReal.eq_clean same
        exact ⟨by simp [found, equal], fun _ => le_rfl⟩

-- The two siblings are the node and its sibling, and lie side by side.
theorem left_or_right (info : Info) (sibling : Word) :
    (info.left sibling = sibling ∧ info.right sibling = info.node) ∨
    (info.left sibling = info.node ∧ info.right sibling = sibling) := by
  unfold Info.left Info.right
  split
  · exact .inl ⟨rfl, rfl⟩
  · exact .inr ⟨rfl, rfl⟩

theorem leftIndex_succ (info : Info) : info.rightIndex = info.leftIndex + 1 := by
  unfold Info.rightIndex Info.leftIndex Info.siblingIndex
  split <;> split <;> omega

theorem rightIndex_lt (ok : InfoOk height w info) (passed : Passed w info)
    (other : info.parent.value ≠ entry) :
    info.rightIndex < w.size info.parent.value := by
  have index := ok.index
  have beside := siblingIndex_lt ok passed other
  unfold Info.rightIndex
  split <;> assumption

/-- What fixUnderfullViolation knows of the two siblings once it has its locks. -/
theorem Inv.siblings (inv : Inv height w) {sibling : Word}
    (here : w.pc tid = .locking (.underfull info sibling) [] held) {p : Word}
    (one : p = info.node ∨ p = sibling) : Real w p ∧ height p.value + 1 = height info.parent.value ∧
      (w.leaf p.value = false → 1 ≤ w.size p.value ∧ ∀ x ∈ w.children p, Below height w
        (height p.value) x) := by
  have mine := inv.threads tid
  rw [here] at mine
  obtain ⟨⟨ok, passed, heavy, other, unmarked, child⟩, locks⟩ := mine
  have facts (child : Child height w info.parent.value p.value) (real : Real w p)
    (heavy : w.weight p.value = true)
      (locked : w.lock p.value = some tid) : Real w p ∧ height p.value + 1 =
      height info.parent.value ∧
      (w.leaf p.value = false → 1 ≤ w.size p.value ∧ ∀ x ∈ w.children p, Below height w
        (height p.value) x) := by
    have level := child.level other
    rw [heavy] at level
    refine ⟨real, level, fun inner => ?_⟩
    exact ⟨inv.shape.inner _ real.born inner, inv.children here ⟨real, inner⟩ child.notEntry locked⟩
  rcases one with rfl | rfl
  · exact facts ok.child ok.node heavy (locks.locked rfl (by simp [Fix.reads])).2
  · have weighed : w.weight p.value = true := (locks.weighed info p rfl).resolve_left (by rintro ⟨⟩)
    exact facts child (child.real rfl unmarked) weighed (locks.locked rfl (by simp [Fix.reads])).2

/-- The two siblings are as high as each other, so that both are leaves or both internal. -/
structure Abreast (height : Nat → Nat) (w : World) (info : Info) (left right : Word) : Prop where
  leftReal : Real w left
  rightReal : Real w right
  under : height left.value + 1 = height info.parent.value
  ground : w.leaf left.value = true ↔ height left.value = 0
  alike : w.leaf right.value = w.leaf left.value
  some_ : w.leaf left.value = false → 2 ≤ w.size left.value + w.size right.value
  kids : w.leaf left.value = false → ∀ x ∈ w.children left ++ w.children right, Below height w
    (height left.value) x

theorem Inv.abreast (inv : Inv height w) {sibling : Word}
    (here : w.pc tid = .locking (.underfull info sibling) [] held) :
    Abreast height w info (info.left sibling) (info.right sibling) := by
  obtain ⟨leftReal, leftLevel, leftKids⟩ := inv.siblings here (p := info.left sibling) (by
    rcases left_or_right info sibling with sides | sides
    · exact .inr sides.1
    · exact .inl sides.1)
  obtain ⟨rightReal, rightLevel, rightKids⟩ := inv.siblings here (p := info.right sibling) (by
    rcases left_or_right info sibling with sides | sides
    · exact .inl sides.2
    · exact .inr sides.2)
  have leftGround := inv.shape.ground _ leftReal.born
  have rightGround := inv.shape.ground _ rightReal.born
  have level : height (info.right sibling).value = height (info.left sibling).value := by omega
  have alike : w.leaf (info.right sibling).value = w.leaf (info.left sibling).value := by
    rw [Bool.eq_iff_iff, leftGround, rightGround]
    omega
  rw [level] at rightKids
  refine ⟨leftReal, rightReal, leftLevel, leftGround, alike, fun internal => ?_,
    fun internal x among => ?_⟩
  · have one := (leftKids internal).1
    have two := (rightKids (alike.trans internal)).1
    omega
  · rcases List.mem_append.mp among with among | among
    · exact (leftKids internal).2 x among
    · exact (rightKids (alike.trans internal)).2 x among

section Abreast

variable {left right : Word} (abreast : Abreast height w info left right)

include abreast

theorem Abreast.deep (internal : w.leaf left.value = false) : height left.value ≠ 0 := by
  intro zero
  cases (abreast.ground.mpr zero).symm.trans internal

-- A new node in place of the siblings is a child of their parent.
theorem Abreast.below (shape : Shape height w) {nodes : List NewNode} {heights : List Nat}
    {k : Nat} {node : NewNode} (one : nodes[k]? = some node)
    (level : heights[k]? = some (height left.value)) (weight : node.weight = true) :
    Below (lift height w heights) (w.build nodes) (height info.parent.value)
      (clean (w.fresh + k)) := by
  refine Below.new shape one level ?_
  rw [weight]
  exact abreast.under

-- The node that takes the place of both.
theorem Abreast.fits {nodes : List NewNode} {heights : List Nat} :
    Fits (lift height w heights) (w.build nodes)
    (if w.leaf left.value = true then ⟨true, true, w.size left.value + w.size right.value, []⟩
    else ⟨false, true, w.size left.value + w.size right.value, w.children left ++ w.children right⟩)
      (height left.value) := by
  by_cases leaf : w.leaf left.value = true
  · rw [if_pos leaf]
    exact Fits.leaf (abreast.ground.mp leaf)
  · rw [if_neg leaf]
    have internal : w.leaf left.value = false := by simpa using leaf
    have enough := abreast.some_ internal
    refine Fits.inner_node (abreast.deep internal) (by omega) ?_ fun x among =>
      (abreast.kids internal x among).lift
    simp

-- One of the two nodes that share out what the siblings hold.
theorem Abreast.part {nodes : List NewNode} {heights : List Nat} {leaf : Bool}
    (same : leaf = w.leaf left.value) {size : Nat} {ptrs : List Word} (some_ : 1 ≤ size)
    (length : ptrs.length = size) (sub : ptrs ⊆ w.children left ++ w.children right) :
    Fits (lift height w heights) (w.build nodes)
    (if leaf = true then ⟨true, true, size, []⟩ else ⟨false, true, size, ptrs⟩)
    (height left.value) := by
  subst same
  by_cases leaf : w.leaf left.value = true
  · rw [if_pos leaf]
    exact Fits.leaf (abreast.ground.mp leaf)
  · rw [if_neg leaf]
    have internal : w.leaf left.value = false := by simpa using leaf
    exact Fits.inner_node (abreast.deep internal) some_ length.ge fun x among =>
      (abreast.kids internal x (sub among)).lift

end Abreast

theorem Inv.underfull (inv : Inv height w) {sibling : Word}
    (here : w.pc tid = .locking (.underfull info sibling) [] held) {g : Word}
    (found : info.gParent = some g) :
    ∃ tall, Inv tall ((w.build (w.replacement degree (.underfull info sibling))).goto tid
      (.run (swing g info.parentIndex
        (w.fresh + (w.replacement degree (.underfull info sibling)).length - 1)
        (Fix.underfull info sibling).replaced held) (some .cleanup))) := by
  have abreast := inv.abreast here
  have mine := inv.threads tid
  rw [here] at mine
  obtain ⟨⟨ok, passed, heavy, other, unmarked, beside⟩, locks⟩ := mine
  obtain ⟨g', same, inner, index, child⟩ := ok.grand_some other
  cases found.symm.trans same
  have member : g ∈ held := (locks.locked rfl (by simp [Fix.reads, found])).1
  have parents := inv.children here ok.parent other (locks.locked rfl (by simp [Fix.reads])).2
  have wide := passed.2 other
  have right_lt := rightIndex_lt ok passed other
  have succ := leftIndex_succ info
  have positive := ok.parent.positive inv.shape
  have sum (elsewhere : g.value ≠ entry) : height info.parent.value + 1 = height g.value := by
    have level := child.level elsewhere
    rw [passed.1] at level
    exact level
  have marks : ∀ p ∈ (Fix.underfull info sibling).replaced, Real w p := by
    intro p among
    simp only [Fix.replaced, List.mem_cons, List.not_mem_nil, or_false] at among
    rcases among with rfl | rfl | rfl
    · exact ok.node
    · exact ok.parent.toReal
    · exact beside.real rfl unmarked
  set hl := height (info.left sibling).value with def_
  simp only [World.replacement]
  split
  · split
    · rename_i root
      refine ⟨lift height w [hl], inv.replace here rfl ?_ inner index member ?_ marks⟩
      · intro k new h found level
        rcases k with _ | k
        · cases found
          cases level
          exact abreast.fits
        · cases found
      · refine Child.hung inv.shape inner.toReal (k := 0) rfl rfl ?_ ?_
        · intro elsewhere
          cases found.symm.trans root.1
          exact absurd rfl elsewhere
        · intro _
          split
          · exact ⟨rfl, by intros; contradiction⟩
          · rename_i leaf
            exact ⟨rfl, fun _ => abreast.some_ (by simpa using leaf)⟩
    · rename_i notRoot
      refine ⟨lift height w [hl, height info.parent.value],
        inv.replace here rfl ?_ inner index member ?_ marks⟩
      · intro k new h found level
        rcases k with _ | _ | k
        · cases found
          cases level
          exact abreast.fits
        · cases found
          cases level
          refine Fits.inner_node positive (by omega) ?_ ?_
          · simp only [List.length_append, List.length_take, List.length_cons, List.length_drop,
              children_length]
            omega
          · intro x among
            simp only [List.mem_append, List.mem_cons] at among
            rcases among with among | rfl | among
            · exact (parents x (List.mem_of_mem_take among)).lift
            · refine abreast.below inv.shape (k := 0) rfl rfl ?_
              split <;> rfl
            · exact (parents x (List.mem_of_mem_drop among)).lift
        · cases found
      · refine Child.hung inv.shape inner.toReal (k := 1) rfl rfl sum fun same => ⟨rfl, fun _ => ?_⟩
        have equal := inner.toReal.eq_clean same
        have more : w.size info.parent.value ≠ 2 := fun two => notRoot ⟨by rw [found, equal], two⟩
        show 2 ≤ w.size info.parent.value - 1
        omega
  · rename_i large
    have four : 4 ≤ w.size (info.left sibling).value + w.size (info.right sibling).value := by
      have least : 2 ≤ low degree := le_max_right ..
      omega
    set size := w.size (info.left sibling).value + w.size (info.right sibling).value with size_def
    have length : (w.children (info.left sibling) ++ w.children (info.right sibling)).length =
      size := by
      simp [size_def]
    refine ⟨lift height w [hl, hl, height info.parent.value],
      inv.replace here rfl ?_ inner index member ?_ marks⟩
    · intro k new h found level
      rcases k with _ | _ | _ | k
      · cases found
        cases level
        refine abreast.part rfl (by omega) ?_ (List.take_subset ..)
        rw [List.length_take]
        omega
      · cases found
        cases level
        refine abreast.part abreast.alike (by omega) ?_ (List.drop_subset ..)
        rw [List.length_drop]
        omega
      · cases found
        cases level
        refine Fits.inner_node positive (by omega) (by simp) ?_
        intro x among
        rcases List.mem_or_eq_of_mem_set among with among | rfl
        · rcases List.mem_or_eq_of_mem_set among with among | rfl
          · exact (parents x among).lift
          · refine abreast.below inv.shape (k := 0) rfl rfl ?_
            split <;> rfl
        · refine abreast.below inv.shape (k := 1) rfl rfl ?_
          split <;> rfl
      · cases found
    · refine Child.hung inv.shape inner.toReal (k := 2) rfl rfl ?_ fun _ =>
        ⟨passed.1, fun _ => wide⟩
      intro elsewhere
      show height info.parent.value + (w.weight info.parent.value).toNat = height g.value
      rw [passed.1]
      exact sum elsewhere

end Locked

end SetBench.AbRestructure
