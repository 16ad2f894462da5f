import SetBench.AbRestructureRank

/-! No cycle of threads that wait for each other's locks. -/
namespace SetBench.AbRestructure

open Transition
open AbPersist (Word clean markDirty entry)

variable {degree : Nat} {w after : World} {tid : Nat} {height : Nat → Nat} {info : Info}
    {r late : Rank}

theorem RunOk.stored {acts : List Act} (ok : RunOk height w acts) {g x : Word} {i : Nat}
    (member : Act.store g i x ∈ acts) :
    g.value < w.fresh ∧ x.value < w.fresh := by
  induction acts with
  | nil => cases member
  | cons act rest ih =>
      rcases List.mem_cons.mp member with rfl | later
      · exact ⟨ok.1.born, ok.2.2.1.born⟩
      · cases act with
        | store g i x => exact ih ok.2.2.2.2.2 later
        | mark p => exact ih ok.2 later
        | unlock p => exact ih ok.2.2 later

theorem acquires_born {t : Nat} {fix : Fix} {todo : List Check} {held : List Word}
    (ok : LockOk w t fix todo held) {n : Nat} (member : n ∈ acquires todo) : n < w.fresh := by
  obtain ⟨check, among, same⟩ := List.mem_filterMap.mp member
  obtain ⟨q, word, real⟩ := ok.real check among
  cases check with
  | acquire p =>
      have word : p = some q := word
      subst word
      cases same
      exact real.born
  | unmarked p => cases same
  | light p => cases same
  | weighed p => cases same

/-! Making nodes leaves what the threads know. -/

section Kept

variable (agrees : Agrees r w late)

include agrees

theorem InfoRank.kept (ok : InfoOk height w info) (rank : InfoRank r info) :
    InfoRank late info := by
  refine ⟨rank.node.kept agrees ok.parent.born ok.child.born, fun g found => ?_⟩
  have grand := ok.grand
  rw [found] at grand
  exact (rank.parent g found).kept agrees grand.1.born ok.parent.born

theorem FixRank.kept {fix : Fix} (ok : FixOk height w fix) (rank : FixRank r fix) :
    FixRank late fix := by
  cases fix with
  | overflow info => exact InfoRank.kept agrees ok.1 rank
  | tag info => exact InfoRank.kept agrees ok.1 rank
  | underfull info sibling =>
      obtain ⟨info_ok, _, _, _, _, child⟩ := ok
      exact ⟨rank.1.kept agrees info_ok, rank.2.kept agrees info_ok.parent.born child.born⟩

theorem Pc.Ranked.kept {t : Nat} {pc : Pc} (ok : pc.Ok height w t) (rank : pc.Ranked r) :
    pc.Ranked late := by
  cases pc with
  | idle => trivial
  | start job => trivial
  | «at» job info => exact InfoRank.kept agrees ok.1 rank
  | root info => exact InfoRank.kept agrees ok.1 rank
  | next info => exact InfoRank.kept agrees ok.1 rank
  | sibling info => exact InfoRank.kept agrees ok.1 rank
  | lockLeaf job info => exact InfoRank.kept agrees ok.1 rank
  | leaf job info => exact InfoRank.kept agrees ok.1 rank
  | locking fix todo held =>
      refine ⟨FixRank.kept agrees ok.1 rank.1, ?_⟩
      have born {n : Nat} (member : n ∈ (held.map Word.value).reverse ++ acquires todo) :
        n < w.fresh := by
        rcases List.mem_append.mp member with member | member
        · obtain ⟨p, among, rfl⟩ := List.mem_map.mp (List.mem_reverse.mp member)
          exact (ok.2.mine p among).1.born
        · exact acquires_born ok.2 member
      exact rank.2.imp_of_mem fun one two before => before.kept agrees (born one) (born two)
  | run acts next =>
      intro g i x member
      obtain ⟨one, two⟩ := RunOk.stored ok.1 member
      exact (rank g i x member).kept agrees one two

end Kept

section Replace

variable {fix : Fix} {held : List Word} {nodes : List NewNode} {labels : List Label}

theorem Ordered.replace (labels : List Label) (inv : Inv height w) (ordered : Ordered r w)
    (here : w.pc tid = .locking fix [] held) (length : labels.length = nodes.length)
    (labelled : ∀ (k : Nat) (node : NewNode) (label : Label), nodes[k]? = some node →
      labels[k]? = some label → Labelled (r.extend w nodes labels) node label)
    {g : Word} {i target : Nat} (placed : Placed (r.extend w nodes labels) g.value i target) :
    Ordered (r.extend w nodes labels)
      ((w.build nodes).goto tid (.run (swing g i target fix.replaced held) (some .cleanup))) := by
  have agrees : Agrees r w (r.extend w nodes labels) := extend_agrees
  have ranked := Ranked.build inv.shape ordered.ranked length labelled
  have locks (n t : Nat) (locked : (w.build nodes).lock n = some t) : w.lock n = some t := by
    by_cases less : n < w.fresh
    · exact (if_pos less).symm.trans locked
    · have none_ : (w.build nodes).lock n = none := if_neg less
      exact nomatch none_.symm.trans locked
  -- the labels of the old nodes stand, so the world before is ordered by the new ranks as well
  have before : ∀ t, (w.pc t).Ranked (r.extend w nodes labels) :=
    fun t => (ordered.threads t).kept agrees (inv.threads t)
  refine ⟨⟨ranked.width, ranked.first, ranked.last, ranked.rising, ranked.slots⟩, ?_, fun t => ?_⟩
  · intro n t locked
    have among := ordered.held n t (locks n t locked)
    by_cases owner : t = tid
    · subst owner
      have now : ((w.build nodes).goto t
        (.run (swing g i target fix.replaced held) (some .cleanup))).pc t =
        .run (swing g i target fix.replaced held) (some .cleanup) := Function.update_self ..
      rw [now]
      rw [here] at among
      show n ∈ unlocks (swing g i target fix.replaced held)
      rw [unlocks_swing.2]
      exact among
    · have there : ((w.build nodes).goto tid
        (.run (swing g i target fix.replaced held) (some .cleanup))).pc t = w.pc t :=
        Function.update_of_ne owner ..
      rw [there]
      exact among
  · by_cases owner : t = tid
    · subst owner
      have now : ((w.build nodes).goto t
        (.run (swing g i target fix.replaced held) (some .cleanup))).pc t =
        .run (swing g i target fix.replaced held) (some .cleanup) := Function.update_self ..
      rw [now]
      intro g' j x member
      simp only [swing, List.cons_append, List.nil_append, List.mem_cons, List.mem_append,
        List.mem_map, reduceCtorEq, and_false,
        exists_false, or_false, Act.store.injEq] at member
      rcases member with ⟨rfl, rfl, rfl⟩ | ⟨rfl, rfl, rfl⟩
      · exact placed
      · exact placed
    · have there : ((w.build nodes).goto tid
        (.run (swing g i target fix.replaced held) (some .cleanup))).pc t = w.pc t :=
        Function.update_of_ne owner ..
      rw [there]
      exact before t

-- A rank between a node and the one it hangs under.
def between (r : Rank) (n g : Nat) : ℚ := if g = entry then r.up n + 1 else (r.up n + r.up g) / 2

theorem between_gt {n g : Nat} (less : g ≠ entry → r.up n < r.up g) : r.up n < between r n g := by
  unfold between
  split
  · linarith
  · rename_i other
    have less := less other
    linarith

theorem between_lt {n g : Nat} (less : g ≠ entry → r.up n < r.up g) (other : g ≠ entry) :
    between r n g < r.up g := by
  unfold between
  rw [if_neg other]
  have less := less other
  linarith

-- A new node takes the place of an old one.
theorem Placed.hung {n i c : Nat} (k : Nat) (label : Label) (placed : Placed r n i c)
    (less : n < w.fresh) (found : labels[k]? = some label) (lo : label.lo = r.lo c)
    (hi : label.hi = r.hi c) (up : n ≠ entry → label.up < r.up n) :
    Placed (r.extend w nodes labels) n i (w.fresh + k) := by
  have agrees : Agrees r w (r.extend w nodes labels) := extend_agrees
  obtain ⟨newLo, newHi, newUp⟩ := extend_new r w nodes labels found
  refine ⟨fun other => ?_, fun same => ?_⟩
  · rw [newLo, newHi, newUp, lo, hi, agrees.cut n less, agrees.cut n less, agrees.up n less]
    exact ⟨(placed.inside other).1, (placed.inside other).2.1, up other⟩
  · rw [newLo, newHi, lo, hi]
    exact placed.top same

theorem Labelled.leaf {label : Label} {weight : Bool} {size : Nat} (width : label.lo < label.hi) :
    Labelled r ⟨true, weight, size, []⟩ label :=
  ⟨width, nofun, nofun, nofun⟩

-- Two new nodes side by side under a third.
theorem Labelled.pair (k : Nat) (one two : Label) {weight : Bool} {label : Label}
    (first : labels[k]? = some one) (second : labels[k + 1]? = some two) (lo : one.lo = label.lo)
    (meet : two.lo = one.hi) (hi : two.hi = label.hi) (left : one.lo < one.hi)
    (right : two.lo < two.hi) (oneUp : one.up < label.up) (twoUp : two.up < label.up) :
    Labelled (r.extend w nodes labels)
      ⟨false, weight, 2, [clean (w.fresh + k), clean (w.fresh + (k + 1))]⟩ label := by
  obtain ⟨lo1, hi1, up1⟩ := extend_new r w nodes labels first
  obtain ⟨lo2, hi2, up2⟩ := extend_new r w nodes labels second
  refine ⟨?_, fun _ => rfl, fun _ => ?_, fun _ x member => ?_⟩
  · rw [← lo, ← hi]
    linarith
  · simp only [Chain, clean, lo1, hi1, lo2, hi2]
    exact ⟨lo, left, meet, right, hi⟩
  · simp only [List.mem_cons, List.not_mem_nil, or_false] at member
    rcases member with rfl | rfl
    · exact up1.trans_lt oneUp
    · exact up2.trans_lt twoUp

-- An internal node made of old children.
theorem Labelled.copied {label : Label} {weight : Bool} {size : Nat} {ptrs : List Word}
    (length : size = ptrs.length) (some_ : 0 < ptrs.length)
    (chain : Chain r label.lo ptrs label.hi)
    (kids : ∀ x ∈ ptrs, x.value < w.fresh ∧ r.up x.value < label.up) :
    Labelled (r.extend w nodes labels) ⟨false, weight, size, ptrs⟩ label := by
  have agrees : Agrees r w (r.extend w nodes labels) := extend_agrees
  refine ⟨chain.lt some_, fun _ => length, fun _ => chain.kept agrees fun x member =>
    (kids x member).1, fun _ x member => ?_⟩
  rw [agrees.up _ (kids x member).1]
  exact (kids x member).2

theorem Ordered.overflow (inv : Inv height w) (ordered : Ordered r w)
    (here : w.pc tid = .locking (.overflow info) [] held) :
    ∃ late, Ordered late ((w.build (w.replacement degree (.overflow info))).goto tid
      (.run (swing info.parent info.nodeIndex (w.fresh + 2) (Fix.overflow info).replaced held)
        (some .cleanup))) := by
  have mine := inv.threads tid
  have rank := ordered.threads tid
  rw [here] at mine rank
  obtain ⟨⟨ok, _⟩, _⟩ := mine
  have rank : InfoRank r info := rank.1
  set lo := r.lo info.node.value with lo_def
  set hi := r.hi info.node.value with hi_def
  have width : lo < hi := ordered.ranked.width _ ok.child.born ok.child.notEntry
  have less (other : info.parent.value ≠ entry) : r.up info.node.value < r.up info.parent.value :=
    (rank.node.inside other).2.2
  let low : Label := ⟨lo, (lo + hi) / 2, r.up info.node.value⟩
  let high : Label := ⟨(lo + hi) / 2, hi, r.up info.node.value⟩
  let top : Label := ⟨lo, hi, between r info.node.value info.parent.value⟩
  have left : low.lo < low.hi := by
    show lo < (lo + hi) / 2
    linarith
  have right : high.lo < high.hi := by
    show (lo + hi) / 2 < hi
    linarith
  refine ⟨_, ordered.replace [low, high, top] inv here rfl ?_ ?_⟩
  · intro k node label found level
    rcases k with _ | _ | _ | k
    · cases found
      cases level
      exact Labelled.leaf left
    · cases found
      cases level
      exact Labelled.leaf right
    · cases found
      cases level
      exact Labelled.pair 0 low high rfl rfl rfl rfl rfl left right (between_gt less)
        (between_gt less)
    · cases found
  · exact Placed.hung 2 top rank.node ok.parent.born rfl rfl rfl (between_lt less)

theorem Ranked.spliced (ranked : Ranked r w) (ok : InfoOk height w info) (rank : InfoRank r info)
    (other : info.parent.value ≠ entry) (inner : Inner w info.node) :
    Chain r (r.lo info.parent.value) (w.spliced info) (r.hi info.parent.value) := by
  obtain ⟨lo, hi, _⟩ := rank.node.inside other
  unfold World.spliced
  rw [chain_append]
  refine ⟨r.hi info.node.value,
    chain_append.mpr ⟨r.lo info.node.value, ?_, ranked.children inner ok.child.notEntry⟩, ?_⟩
  · rw [lo]
    exact ranked.take ok.parent other ok.index.le
  · rw [hi]
    exact ranked.drop ok.parent other ok.index

theorem Ordered.tag (inv : Inv height w) (ordered : Ordered r w)
    (here : w.pc tid = .locking (.tag info) [] held) {g : Word} (found : info.gParent = some g) :
    ∃ late, Ordered late ((w.build (w.replacement degree (.tag info))).goto tid
      (.run (swing g info.parentIndex (w.fresh + (w.replacement degree (.tag info)).length - 1)
        (Fix.tag info).replaced held)
        (some .cleanup))) := by
  have mine := inv.threads tid
  have rank := ordered.threads tid
  rw [here] at mine rank
  obtain ⟨⟨ok, passed, tagged⟩, _⟩ := mine
  have rank : InfoRank r info := rank.1
  have ranked := ordered.ranked
  have other := ok.tag_parent tagged
  obtain ⟨g', same, inner, _⟩ := ok.grand_some other
  cases found.symm.trans same
  have node : Inner w info.node := ⟨ok.node, inv.shape.tag _ ok.child.born tagged⟩
  have hung := rank.parent g found
  have less (elsewhere : g.value ≠ entry) : r.up info.parent.value < r.up g.value :=
    (hung.inside elsewhere).2.2
  have chain := ranked.spliced ok rank other node
  have length := spliced_length ok
  have wide := passed.2 other
  have some_ := inv.shape.inner _ node.born node.inner
  have kids : ∀ x ∈ w.spliced info, x.value < w.fresh ∧ r.up x.value < r.up info.parent.value := by
    have ours := ranked.children_up inv.shape ok.parent other
    have theirs := ranked.children_up inv.shape node ok.child.notEntry
    have below := (rank.node.inside other).2.2
    intro x member
    simp only [World.spliced, List.mem_append] at member
    rcases member with (member | member) | member
    · exact ours x (List.mem_of_mem_take member)
    · exact ⟨(theirs x member).1, (theirs x member).2.trans below⟩
    · exact ours x (List.mem_of_mem_drop member)
  simp only [World.replacement]
  split
  · let label : Label := ⟨r.lo info.parent.value, r.hi info.parent.value, r.up info.parent.value⟩
    refine ⟨_, ordered.replace [label] inv here rfl ?_
      (Placed.hung 0 label hung inner.born rfl rfl rfl less)⟩
    intro k new label found level
    rcases k with _ | k
    · cases found
      cases level
      exact Labelled.copied length.symm (by omega) chain kids
    · cases found
  · set size := w.size info.parent.value + w.size info.node.value - 1 with size_def
    rw [← List.take_append_drop (size / 2) (w.spliced info), chain_append] at chain
    obtain ⟨m, one, two⟩ := chain
    have takes : ((w.spliced info).take (size / 2)).length = size / 2 := by
      rw [List.length_take]
      omega
    have drops : ((w.spliced info).drop (size / 2)).length = size - size / 2 := by
      rw [List.length_drop]
      omega
    let low : Label := ⟨r.lo info.parent.value, m, r.up info.parent.value⟩
    let high : Label := ⟨m, r.hi info.parent.value, r.up info.parent.value⟩
    let top : Label := ⟨r.lo info.parent.value, r.hi info.parent.value,
      between r info.parent.value g.value⟩
    have left : low.lo < low.hi := one.lt (by omega)
    have right : high.lo < high.hi := two.lt (by omega)
    refine ⟨_, ordered.replace [low, high, top] inv here rfl ?_
      (Placed.hung 2 top hung inner.born rfl rfl rfl (between_lt less))⟩
    intro k new label found level
    rcases k with _ | _ | _ | k
    · cases found
      cases level
      exact Labelled.copied takes.symm (by omega) one fun x member =>
        kids x (List.mem_of_mem_take member)
    · cases found
      cases level
      exact Labelled.copied drops.symm (by omega) two fun x member =>
        kids x (List.mem_of_mem_drop member)
    · cases found
      cases level
      exact Labelled.pair 0 low high rfl rfl rfl rfl rfl left right (between_gt less)
        (between_gt less)
    · cases found

-- The new parent: two neighbours make way for the nodes in `mid`.
theorem Labelled.parent (mid : List Word) (ranked : Ranked r w) (shape : Shape height w)
    {p : Word} (inner : Inner w p) (other : p.value ≠ entry) {i size : Nat} {weight : Bool}
    (bound : i + 2 ≤ w.size p.value)
    (chain : Chain (r.extend w nodes labels) (r.cut p.value i) mid (r.cut p.value (i + 2)))
    (ups : ∀ x ∈ mid, (r.extend w nodes labels).up x.value < r.up p.value)
    (length : size + 2 = w.size p.value + mid.length) :
    Labelled (r.extend w nodes labels)
      ⟨false, weight, size, (w.children p).take i ++ (mid ++ (w.children p).drop (i + 2))⟩
      ⟨r.lo p.value, r.hi p.value, r.up p.value⟩ := by
  have agrees : Agrees r w (r.extend w nodes labels) := extend_agrees
  have kids := ranked.children_up shape inner other
  have old {x : Word} (member : x ∈ w.children p) : (r.extend w nodes labels).up x.value < r.up
    p.value := by
    rw [agrees.up _ (kids x member).1]
    exact (kids x member).2
  refine ⟨ranked.width _ inner.born other, fun _ => ?_, fun _ => ?_, fun _ x member => ?_⟩
  · simp only [List.length_append, List.length_take, List.length_drop, children_length]
    omega
  · refine chain_append.mpr ⟨r.cut p.value i, ?_,
      chain_append.mpr ⟨r.cut p.value (i + 2), chain, ?_⟩⟩
    · exact (ranked.take inner other (by omega)).kept agrees fun x member =>
        (kids x (List.mem_of_mem_take member)).1
    · exact (ranked.drop inner other bound).kept agrees fun x member =>
        (kids x (List.mem_of_mem_drop member)).1
  · simp only [List.mem_append] at member
    rcases member with member | member | member
    · exact old (List.mem_of_mem_take member)
    · exact ups x member
    · exact old (List.mem_of_mem_drop member)

theorem set_two {xs : List Word} {i : Nat} {x y : Word} (bound : i + 1 < xs.length) :
    (xs.set i x).set (i + 1) y = xs.take i ++ ([x, y] ++ xs.drop (i + 2)) := by
  induction xs generalizing i with
  | nil => cases bound
  | cons z zs ih =>
      cases i with
      | zero =>
          cases zs with
          | nil => simp at bound
          | cons u us => rfl
      | succ i =>
          simp only [List.set_cons_succ, List.take_succ_cons, List.drop_succ_cons, List.cons_append,
            List.cons.injEq, true_and]
          exact ih (by simpa using bound)

-- The siblings lie side by side in their parent.
theorem InfoRank.sides (rank : InfoRank r info) {sibling : Word}
    (beside : Placed r info.parent.value info.siblingIndex sibling.value) :
    Placed r info.parent.value info.leftIndex (info.left sibling).value ∧
      Placed r info.parent.value (info.leftIndex + 1) (info.right sibling).value := by
  rw [← leftIndex_succ]
  unfold Info.left Info.right Info.leftIndex Info.rightIndex
  split
  · exact ⟨beside, rank.node⟩
  · exact ⟨rank.node, beside⟩

/-- Two neighbours below one parent, with what they hold together. -/
structure Pair (r : Rank) (w : World) (info : Info) (left right : Word) : Prop where
  bound : info.leftIndex + 2 ≤ w.size info.parent.value
  first : r.cut info.parent.value info.leftIndex < r.cut info.parent.value (info.leftIndex + 1)
  second : r.cut info.parent.value (info.leftIndex + 1) < r.cut info.parent.value
    (info.leftIndex + 2)
  up : max (r.up left.value) (r.up right.value) < r.up info.parent.value
  alike : w.leaf right.value = w.leaf left.value
  chain : w.leaf left.value = false →
    Chain r (r.cut info.parent.value info.leftIndex) (w.children left ++ w.children right)
      (r.cut info.parent.value (info.leftIndex + 2))
  kids : w.leaf left.value = false →
    ∀ x ∈ w.children left ++ w.children right, x.value < w.fresh ∧
      r.up x.value < max (r.up left.value) (r.up right.value)
  some_ : w.leaf left.value = false → 2 ≤ w.size left.value + w.size right.value

theorem Ordered.pair (inv : Inv height w) (ordered : Ordered r w) {sibling : Word}
    (here : w.pc tid = .locking (.underfull info sibling) [] held) :
    Pair r w info (info.left sibling) (info.right sibling) := by
  have mine := inv.threads tid
  have rank := ordered.threads tid
  rw [here] at mine rank
  obtain ⟨⟨ok, passed, _, other, _, beside⟩, _⟩ := mine
  obtain ⟨⟨rank, near⟩, _⟩ := rank
  have ranked := ordered.ranked
  obtain ⟨leftPlaced, rightPlaced⟩ := rank.sides near
  obtain ⟨leftLo, leftHi, leftUp⟩ := leftPlaced.inside other
  obtain ⟨rightLo, rightHi, rightUp⟩ := rightPlaced.inside other
  have bound : info.leftIndex + 2 ≤ w.size info.parent.value := by
    have lt := rightIndex_lt ok passed other
    have succ := leftIndex_succ info
    omega
  have rising (i : Nat) (less : i < w.size info.parent.value) :
    r.cut info.parent.value i < r.cut info.parent.value (i + 1) :=
    ranked.rising _ ok.parent.born ok.parent.inner other i less
  have away : (info.left sibling).value ≠ entry ∧ (info.right sibling).value ≠ entry := by
    rcases left_or_right info sibling with ⟨left, right⟩ | ⟨left, right⟩ <;> rw [left, right]
    · exact ⟨beside.notEntry, ok.child.notEntry⟩
    · exact ⟨ok.child.notEntry, beside.notEntry⟩
  have abreast := inv.abreast here
  refine ⟨bound, rising _ (by omega), rising _ (by omega), max_lt leftUp rightUp, abreast.alike,
    fun internal => ?_, fun internal x member => ?_, abreast.some_⟩
  · refine chain_append.mpr ⟨r.hi (info.left sibling).value, ?_, ?_⟩
    · rw [← leftLo]
      exact ranked.children ⟨abreast.leftReal, internal⟩ away.1
    · rw [leftHi, ← rightLo]
      rw [show r.cut info.parent.value (info.leftIndex + 2) = r.hi (info.right sibling).value
        from rightHi.symm]
      exact ranked.children ⟨abreast.rightReal, abreast.alike.trans internal⟩ away.2
  · rcases List.mem_append.mp member with member | member
    · obtain ⟨born, below⟩ := ranked.children_up inv.shape ⟨abreast.leftReal, internal⟩ away.1 x
        member
      exact ⟨born, below.trans_le (le_max_left ..)⟩
    · obtain ⟨born, below⟩ := ranked.children_up inv.shape
        ⟨abreast.rightReal, abreast.alike.trans internal⟩ away.2 x member
      exact ⟨born, below.trans_le (le_max_right ..)⟩

section Pair

variable {left right : Word} (pair : Pair r w info left right)

include pair

-- The node that takes the place of both.
theorem Pair.labelled : Labelled (r.extend w nodes labels)
    (if w.leaf left.value = true then ⟨true, true, w.size left.value + w.size right.value, []⟩
    else ⟨false, true, w.size left.value + w.size right.value, w.children left ++ w.children right⟩)
    ⟨r.cut info.parent.value info.leftIndex, r.cut info.parent.value (info.leftIndex + 2),
      max (r.up left.value) (r.up right.value)⟩ := by
  have length : (w.children left ++ w.children right).length = w.size left.value + w.size
    right.value := by simp
  by_cases leaf : w.leaf left.value = true
  · rw [if_pos leaf]
    exact Labelled.leaf (pair.first.trans pair.second)
  · rw [if_neg leaf]
    have internal : w.leaf left.value = false := by simpa using leaf
    have enough := pair.some_ internal
    exact Labelled.copied length.symm (by omega) (pair.chain internal) (pair.kids internal)

/-- A bound between the two nodes that share out what the pair holds. -/
theorem Pair.halve {size : Nat} (even : size = w.size left.value + w.size right.value)
    (many : 4 ≤ size) : ∃ m,
    r.cut info.parent.value info.leftIndex < m ∧ m < r.cut info.parent.value (info.leftIndex + 2) ∧
      (w.leaf left.value = false →
      Chain r (r.cut info.parent.value info.leftIndex)
        ((w.children left ++ w.children right).take (size / 2)) m ∧
      Chain r m ((w.children left ++ w.children right).drop (size / 2))
        (r.cut info.parent.value (info.leftIndex + 2))) := by
  have length : (w.children left ++ w.children right).length = size := by simp [even]
  by_cases leaf : w.leaf left.value = true
  · exact ⟨_, pair.first, pair.second, fun internal => by cases leaf.symm.trans internal⟩
  · have chain := pair.chain (by simpa using leaf)
    rw [← List.take_append_drop (size / 2) (w.children left ++ w.children right),
      chain_append] at chain
    obtain ⟨m, one, two⟩ := chain
    refine ⟨m, one.lt ?_, two.lt ?_, fun _ => ⟨one, two⟩⟩
    · rw [List.length_take]
      omega
    · rw [List.length_drop]
      omega

end Pair

theorem Ordered.underfull (inv : Inv height w) (ordered : Ordered r w) {sibling : Word}
    (here : w.pc tid = .locking (.underfull info sibling) [] held) {g : Word}
    (found : info.gParent = some g) :
    ∃ late, Ordered late ((w.build (w.replacement degree (.underfull info sibling))).goto tid
      (.run (swing g info.parentIndex
        (w.fresh + (w.replacement degree (.underfull info sibling)).length - 1)
        (Fix.underfull info sibling).replaced held) (some .cleanup))) := by
  have pair := ordered.pair inv here
  have mine := inv.threads tid
  have rank := ordered.threads tid
  rw [here] at mine rank
  obtain ⟨⟨ok, _, _, other, _, _⟩, _⟩ := mine
  obtain ⟨⟨rank, _⟩, _⟩ := rank
  have ranked := ordered.ranked
  obtain ⟨g', same, inner, _⟩ := ok.grand_some other
  cases found.symm.trans same
  have hung := rank.parent g found
  have less (elsewhere : g.value ≠ entry) : r.up info.parent.value < r.up g.value :=
    (hung.inside elsewhere).2.2
  have bound := pair.bound
  set lo := r.cut info.parent.value info.leftIndex with lo_def
  set hi := r.cut info.parent.value (info.leftIndex + 2) with hi_def
  set up := max (r.up (info.left sibling).value) (r.up (info.right sibling).value) with up_def
  let parent : Label := ⟨r.lo info.parent.value, r.hi info.parent.value, r.up info.parent.value⟩
  simp only [World.replacement]
  split
  · let label : Label := ⟨lo, hi, up⟩
    split
    · rename_i root
      refine ⟨_, ordered.replace [label] inv here rfl ?_ ?_⟩
      · intro k new label found level
        rcases k with _ | k
        · cases found
          cases level
          exact pair.labelled
        · cases found
      · -- the two siblings are all there is under the root
        have first : info.leftIndex = 0 := by omega
        have whole : lo = r.lo info.parent.value := by
          rw [lo_def, first]
          exact ranked.first _ ok.parent.born ok.parent.inner other
        have rest : hi = r.hi info.parent.value := by
          have last := ranked.last _ ok.parent.born ok.parent.inner other
          rw [root.2] at last
          rw [hi_def, first]
          exact last
        refine Placed.hung 0 label hung inner.born rfl whole rest fun elsewhere => ?_
        exact pair.up.trans (less elsewhere)
    · refine ⟨_, ordered.replace [label, parent] inv here rfl ?_
        (Placed.hung 1 parent hung inner.born rfl rfl rfl less)⟩
      intro k new label' found level
      rcases k with _ | _ | k
      · cases found
        cases level
        exact pair.labelled
      · cases found
        cases level
        refine Labelled.parent [clean w.fresh] ranked inv.shape ok.parent other bound ?_ ?_ ?_
        · obtain ⟨newLo, newHi, _⟩ := extend_new r w _ [label, parent] (k := 0) rfl
          exact ⟨newLo, newLo.trans_lt ((pair.first.trans pair.second).trans_eq newHi.symm), newHi⟩
        · intro x member
          rw [List.mem_singleton.mp member]
          exact (extend_new r w _ [label, parent] (k := 0) rfl).2.2.trans_lt pair.up
        · simp only [List.length_singleton]
          omega
      · cases found
  · rename_i large
    have four : 4 ≤ w.size (info.left sibling).value + w.size (info.right sibling).value := by
      have least : 2 ≤ low degree := le_max_right ..
      omega
    have length : (w.children (info.left sibling) ++ w.children (info.right sibling)).length =
        w.size (info.left sibling).value + w.size (info.right sibling).value := by simp
    obtain ⟨m, above, below, halves⟩ := pair.halve rfl four
    set size := w.size (info.left sibling).value + w.size (info.right sibling).value with size_def
    set ptrs := w.children (info.left sibling) ++ w.children (info.right sibling) with ptrs_def
    let low : Label := ⟨lo, m, up⟩
    let high : Label := ⟨m, hi, up⟩
    refine ⟨_, ordered.replace [low, high, parent] inv here rfl ?_
      (Placed.hung 2 parent hung inner.born rfl rfl rfl less)⟩
    intro k new label found level
    rcases k with _ | _ | _ | k
    · cases found
      cases level
      by_cases leaf : w.leaf (info.left sibling).value = true
      · rw [if_pos leaf]
        exact Labelled.leaf above
      · rw [if_neg leaf]
        have internal : w.leaf (info.left sibling).value = false := by simpa using leaf
        have takes : (ptrs.take (size / 2)).length = size / 2 := by
          rw [List.length_take]
          omega
        exact Labelled.copied takes.symm (by omega) (halves internal).1 fun x member =>
          pair.kids internal x (List.mem_of_mem_take member)
    · cases found
      cases level
      by_cases leaf : w.leaf (info.right sibling).value = true
      · rw [if_pos leaf]
        exact Labelled.leaf below
      · rw [if_neg leaf]
        have internal : w.leaf (info.left sibling).value = false := by simpa [pair.alike] using leaf
        have drops : (ptrs.drop (size / 2)).length = size - size / 2 := by
          rw [List.length_drop]
          omega
        exact Labelled.copied drops.symm (by omega) (halves internal).2 fun x member =>
          pair.kids internal x (List.mem_of_mem_drop member)
    · cases found
      cases level
      rw [leftIndex_succ, set_two (by simp only [children_length]; omega)]
      obtain ⟨lo1, hi1, up1⟩ := extend_new r w _ [low, high, parent] (k := 0) rfl
      obtain ⟨lo2, hi2, up2⟩ := extend_new r w _ [low, high, parent] (k := 1) rfl
      refine Labelled.parent _ ranked inv.shape ok.parent other bound ?_ ?_ ?_
      · exact ⟨lo1, lo1.trans_lt (above.trans_eq hi1.symm), lo2.trans hi1.symm,
          lo2.trans_lt (below.trans_eq hi2.symm), hi2⟩
      · intro x member
        simp only [List.mem_cons, List.not_mem_nil, or_false] at member
        rcases member with rfl | rfl
        · exact up1.trans_lt pair.up
        · exact up2.trans_lt pair.up
      · rfl
    · cases found

end Replace

/-! The locking sequences ascend, and so do all runs. -/

-- A node, its parent and its grandparent.
theorem InfoRank.ascends (ranked : Ranked r w) (ok : InfoOk height w info)
    (rank : InfoRank r info) :
    Before r info.node.value info.parent.value ∧
      ∀ g, info.gParent = some g → Before r info.parent.value g.value := by
  refine ⟨rank.node.before ranked ok.parent.born ok.parent.inner ok.index ok.child.notEntry,
    fun g found => ?_⟩
  have grand := ok.grand
  rw [found] at grand
  exact (rank.parent g found).before ranked grand.1.born grand.1.inner grand.2.1 grand.2.2.notEntry

theorem Ordered.locking (inv : Inv height w) (ordered : Ordered r w) {fix : Fix}
    {todo : List Check} {held : List Word} (here : w.pc tid = .locking fix todo held)
    (stepped : moveStep degree w tid (.locking fix todo held) = some after) :
    ∃ late, Ordered late after := by
  have mine := inv.threads tid
  have rank := ordered.threads tid
  rw [here] at mine rank
  obtain ⟨fixed, locks⟩ := mine
  cases todo with
  | nil =>
      simp only [moveStep] at stepped
      cases fix with
      | overflow info =>
          cases stepped
          exact ordered.overflow inv here
      | tag info =>
          obtain ⟨g, found, _⟩ := fixed.1.grand_some (fixed.1.tag_parent fixed.2.2)
          simp only [Fix.target, found] at stepped
          cases stepped
          exact ordered.tag inv here found
      | underfull info sibling =>
          obtain ⟨g, found, _⟩ := fixed.1.grand_some fixed.2.2.2.1
          simp only [Fix.target, found] at stepped
          cases stepped
          exact ordered.underfull inv here found
  | cons check rest =>
      have plain (none_ : acquires (check :: rest) = acquires rest)
          (stepped : (if w.passes degree check then some (w.goto tid (.locking fix rest held))
            else some (w.goto tid (.run (held.map Act.unlock)
              (some fix.again)))) = some after) : ∃ late, Ordered late after := by
        split at stepped <;> cases stepped
        · refine ⟨r, ordered.moved (by simp [here, Pc.held]) ⟨rank.1, ?_⟩⟩
          rw [← none_]
          exact rank.2
        · refine ⟨r, ordered.moved ?_ ?_⟩
          · simp [here, Pc.held, unlocks, List.filterMap_map]
          · intro g i x member
            obtain ⟨_, _, same⟩ := List.mem_map.mp member
            cases same
      cases check with
      | acquire p =>
          obtain ⟨q, same, real⟩ := locks.real _ List.mem_cons_self
          cases same
          have stepped : w.acquire tid q.value (.locking fix rest (q :: held)) = some after :=
            stepped
          refine ⟨r, ordered.acquire ?_ ?_ ?_ stepped⟩
          · exact List.mem_cons_self
          · rw [here]
            exact fun m member => List.mem_cons_of_mem _ member
          · have order := rank.2
            refine ⟨rank.1, ?_⟩
            rw [List.map_cons, List.reverse_cons, List.append_assoc]
            exact order
      | unmarked p => exact plain rfl stepped
      | light p => exact plain rfl stepped
      | weighed p => exact plain rfl stepped

theorem Ordered.leafStep (inv : Inv height w) (ordered : Ordered r w) {job : Job} {present : Bool}
    (here : w.pc tid = .leaf job info)
    (stepped : leafStep degree w tid present job info = some after) : Ordered r after := by
  have mine := inv.threads tid
  have rank := ordered.threads tid
  rw [here] at mine rank
  obtain ⟨ok, leaf, locked⟩ := mine
  have rank : InfoRank r info := rank
  have ranked := ordered.ranked
  have release {next : Option Job} : (Pc.run [.unlock info.node] next).Ranked r := by
    rintro g i x member
    cases List.mem_singleton.mp member
  have kept {next : Option Job} :
    ∀ n ∈ (w.pc tid).held, n ∈ (Pc.run [.unlock info.node] next).held := by
    rw [here]
    exact fun n member => member
  have resized {size : Nat} {next : Option Job} :
    Ordered r ((w.setSize info.node.value size).goto tid (.run [.unlock info.node] next)) := by
    have same {n : Nat} (inner : w.leaf n = false) : (w.setSize info.node.value size).size n =
      w.size n := by
      refine Function.update_of_ne ?_ ..
      rintro rfl
      exact nomatch leaf.symm.trans inner
    refine ordered.goto rfl ⟨ranked.width, ranked.first, ?_, ?_, ?_⟩ (fun _ _ _ locked => locked)
      (fun n locked => kept n (ordered.held n tid locked)) release
    · intro n less inner other
      rw [same inner]
      exact ranked.last n less inner other
    · intro n less inner other i bound
      rw [same inner] at bound
      exact ranked.rising n less inner other i bound
    · intro n less inner i bound
      rw [same inner] at bound
      exact ranked.slots n less inner i bound
  simp only [AbRestructure.leafStep] at stepped
  split at stepped
  · cases stepped
    exact ordered.moved kept release
  · split at stepped
    · split at stepped <;> cases stepped
      · exact resized
      · refine ordered.moved ?_ ⟨rank, ?_⟩
        · rw [here]
          exact fun n member => member
        · have one := (rank.ascends ranked ok).1
          simpa [acquires, Fix.checks] using one
    · cases stepped
      exact resized
    · cases stepped
      exact ordered.moved kept release

theorem Ordered.load (ordered : Ordered r w) {job : Job} {i : Nat} (ok : InfoOk height w info)
    (rank : InfoRank r info) (none_ : (w.pc tid).held = [])
    (stepped : loadStep w tid i job info = some after) : Ordered r after := by
  simp only [loadStep] at stepped
  split at stepped
  · rename_i inner
    split at stepped <;> cases stepped
    · exact ordered
    · refine ordered.moved (by simp [none_]) ⟨?_, ?_⟩
      · exact ordered.ranked.slots _ ok.child.born inner.1 i inner.2
      · rintro g ⟨⟩
        exact rank.node
  · cases stepped

theorem Ordered.moveStep (inv : Inv height w) (ordered : Ordered r w) {pc : Pc}
    (here : w.pc tid = pc) (stepped : moveStep degree w tid pc = some after) :
    ∃ late, Ordered late after := by
  have mine := inv.threads tid
  have rank := ordered.threads tid
  rw [here] at mine rank
  have ranked := ordered.ranked
  cases pc with
  | idle => cases stepped
  | start job => cases stepped
  | leaf job info => cases stepped
  | «at» job info =>
      have rank : InfoRank r info := rank
      cases job with
      | find => cases stepped
      | insert =>
          simp only [AbRestructure.moveStep] at stepped
          split at stepped <;> cases stepped
          exact ⟨r, ordered.moved (by simp [here, Pc.held]) rank⟩
      | erase =>
          simp only [AbRestructure.moveStep] at stepped
          split at stepped <;> cases stepped
          exact ⟨r, ordered.moved (by simp [here, Pc.held]) rank⟩
      | cleanup =>
          simp only [AbRestructure.moveStep] at stepped
          split at stepped
          · rename_i tagged
            cases stepped
            obtain ⟨g, found, _⟩ := mine.1.grand_some (mine.1.tag_parent tagged)
            obtain ⟨one, two⟩ := rank.ascends ranked mine.1
            have two := two g found
            refine ⟨r, ordered.moved (by simp [here, Pc.held]) ⟨rank, ?_⟩⟩
            simpa [acquires, Fix.checks, found] using ⟨⟨one, one.trans two⟩, two⟩
          · split at stepped <;> cases stepped
            · exact ⟨r, ordered.moved (by simp [here, Pc.held]) rank⟩
            · exact ⟨r, ordered.moved (by simp [here, Pc.held]) rank⟩
  | root info =>
      have rank : InfoRank r info := rank
      simp only [AbRestructure.moveStep] at stepped
      split at stepped <;> cases stepped
      · exact ⟨r, ordered.moved (by simp [here, Pc.held]) rank⟩
      · exact ⟨r, ordered.moved (by simp [here, Pc.held]) rank⟩
  | next info =>
      simp only [AbRestructure.moveStep] at stepped
      split at stepped <;> cases stepped
      exact ⟨r, ordered.moved (by simp [here, Pc.held]) trivial⟩
  | sibling info =>
      have rank : InfoRank r info := rank
      obtain ⟨ok, passed, heavy, other⟩ := mine
      cases stepped
      have bound := siblingIndex_lt ok passed other
      have near := ranked.slots _ ok.parent.born ok.parent.inner _ bound
      have beside := inv.shape.slots _ ok.parent.born ok.parent.inner _ bound
      set sibling := w.slot info.parent.value info.siblingIndex with sibling_def
      obtain ⟨g, found, _⟩ := ok.grand_some other
      obtain ⟨_, two⟩ := rank.ascends ranked ok
      have two := two g found
      obtain ⟨left, right⟩ := rank.sides near
      have last := rightIndex_lt ok passed other
      rw [leftIndex_succ] at last
      have away : (info.left sibling).value ≠ entry ∧ (info.right sibling).value ≠ entry := by
        rcases left_or_right info sibling with ⟨left, right⟩ | ⟨left, right⟩ <;> rw [left, right]
        · exact ⟨beside.notEntry, ok.child.notEntry⟩
        · exact ⟨ok.child.notEntry, beside.notEntry⟩
      -- left sibling, right sibling, parent, grandparent
      have across := left.left_before ranked ok.parent.born ok.parent.inner other last right away.1
      have one := right.before ranked ok.parent.born ok.parent.inner last away.2
      refine ⟨r, ordered.moved (by simp [here, Pc.held]) ⟨⟨rank, near⟩, ?_⟩⟩
      simpa [acquires, Fix.checks, found] using
        ⟨⟨across, across.trans one, across.trans (one.trans two)⟩, ⟨one, one.trans two⟩, two⟩
  | lockLeaf job info =>
      have rank : InfoRank r info := rank
      have stepped : w.acquire tid info.node.value (.leaf job info) = some after := stepped
      refine ⟨r, ordered.acquire ?_ (by simp [here, Pc.held]) ?_ stepped⟩
      · exact List.mem_singleton_self _
      · exact rank
  | locking fix todo held => exact ordered.locking inv here stepped
  | run acts next =>
      cases acts with
      | nil =>
          cases next <;> cases stepped
          · exact ⟨r, ordered.moved (by simp [here, Pc.held, unlocks]) trivial⟩
          · exact ⟨r, ordered.moved (by simp [here, Pc.held, unlocks]) trivial⟩
      | cons act rest =>
          cases stepped
          exact ⟨r, ordered.act here⟩

theorem step_ordered (inv : Inv height w) (ordered : Ordered r w) (event : Event)
    (stepped : step degree w event = some after) : ∃ late, Ordered late after := by
  cases event with
  | call tid job =>
      simp only [step] at stepped
      split at stepped
      · rename_i here
        split at stepped <;> cases stepped
        exact ⟨r, ordered.moved (by simp [here, Pc.held]) trivial⟩
      · cases stepped
  | load tid i =>
      have mine := inv.threads tid
      have rank := ordered.threads tid
      simp only [step] at stepped
      split at stepped
      · rename_i job here
        split at stepped <;> cases stepped
        · exact ⟨r, ordered⟩
        · have shape := inv.shape
          refine ⟨r, ordered.moved (by simp [here, Pc.held]) ⟨?_, ?_⟩⟩
          · exact ordered.ranked.slots entry shape.born shape.entry_leaf 0
              (by rw [shape.entry_size]; exact Nat.one_pos)
          · rintro g ⟨⟩
      · rename_i job info here
        rw [here] at mine rank
        split at stepped
        · cases stepped
        · exact ⟨r, ordered.load mine.1 rank (by simp [here, Pc.held]) stepped⟩
      · rename_i info here
        rw [here] at mine rank
        exact ⟨r, ordered.load mine.1 rank (by simp [here, Pc.held]) stepped⟩
      · cases stepped
  | move tid => exact ordered.moveStep inv rfl stepped
  | answer tid =>
      simp only [step] at stepped
      split at stepped
      · rename_i here
        split at stepped <;> cases stepped
        exact ⟨r, ordered.moved (by simp [here, Pc.held]) trivial⟩
      · cases stepped
  | leaf tid present =>
      simp only [step] at stepped
      split at stepped
      · rename_i here
        exact ⟨r, ordered.leafStep inv here stepped⟩
      · cases stepped

theorem initial_ordered : Ordered ⟨fun _ => 0, fun _ => 1, fun _ => 0, fun _ _ => 0⟩ initial := by
  have only {n : Nat} (less : n < initial.fresh) (inner : initial.leaf n = false) : n = entry := by
    have less : n < 2 := less
    interval_cases n
    · rfl
    · cases inner
  refine ⟨⟨fun _ _ _ => zero_lt_one, ?_, ?_, ?_, ?_⟩, ?_, fun _ => trivial⟩
  · exact fun n less inner other => absurd (only less inner) other
  · exact fun n less inner other => absurd (only less inner) other
  · exact fun n less inner other => absurd (only less inner) other
  · exact fun n less inner i _ => ⟨fun other => absurd (only less inner) other, fun _ => ⟨rfl, rfl⟩⟩
  · rintro _ _ ⟨⟩

/-- In every run with a grandparent for each fix and no dirty sibling, no thread waits for
itself through others. -/
theorem no_lock_cycle (degree : Nat) {events : List Event}
    (run : Run (step degree) Steady initial events w) (tid : Nat) :
    ¬ Relation.TransGen (WaitsFor w) tid tid := by
  have both : ∃ height r, Inv height w ∧ Ordered r w := by
    refine run_invariant (fun w => ∃ height r, Inv height w ∧ Ordered r w)
      ⟨_, _, initial_inv, initial_ordered⟩ ?_ run
    rintro before event after ⟨height, r, inv, ordered⟩ steady stepped
    obtain ⟨tall, kept⟩ := step_inv inv event steady stepped
    obtain ⟨late, order⟩ := step_ordered inv ordered event stepped
    exact ⟨tall, late, kept, order⟩
  obtain ⟨_, _, _, ordered⟩ := both
  exact ordered.no_cycle tid

-- Thread 1 holds the left leaf and waits for its sibling, whose holder waits for their parent.
def chainRun : List Event :=
  splitRoot ++ underfullLeft ++ insertRun 0 [1] ++ toLeaf 0 .insert [1] false ++ [.move 1,
    .move 1] ++
    [.call 2 .insert, .load 2 0, .load 2 0, .move 2]

theorem waiting_chain_ends :
    ∃ last, Run (step 4) Steady initial chainRun last ∧ WaitsFor last 2 1 ∧ WaitsFor last 1 0 ∧
    ¬ Relation.TransGen (WaitsFor last) 2 2 := by
  have replayed : (replay (step 4) Steady chainRun initial).map
    (fun w => ((w.waits 2, w.lock 2), w.waits 1, w.lock 3)) =
      some ((some 2, some 1), some 3, some 0) := by
    decide +kernel
  obtain ⟨last, run, seen⟩ := Option.map_eq_some_iff.mp replayed
  have run := run_of_replay _ run
  obtain ⟨first, second⟩ := Prod.mk.inj seen
  obtain ⟨two, one⟩ := Prod.mk.inj first
  obtain ⟨next, zero⟩ := Prod.mk.inj second
  exact ⟨last, run, ⟨2, two, one⟩, ⟨3, next, zero⟩, no_lock_cycle 4 run 2⟩

end SetBench.AbRestructure
