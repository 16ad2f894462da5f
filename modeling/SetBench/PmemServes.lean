import SetBench.PmemSizes

/-! What the calls of one thread on PMEMAlloc do. A call with a size from 5 to 2 ^ 15 or
above a page returns and keeps the regions apart, until a region of several pages is
freed; the other sizes break the links of a page, leave the table of size classes, or make the
number of pages wrap. -/
namespace SetBench.PmemSizes

open PmemAlloc (Block pageSizeBytes headerBytes usablePageSizeBytes getSizeClass bitIndexLoop
    resetMemoryPage)

section Safe

variable {w : World}

/-! What each call keeps. -/

theorem Inv.free_nodup (inv : Inv w) {p c : Nat} (small : (w.page p).sizeClassPow2 = some c) :
    ((w.page p).freeList ++ w.liveIn p).Nodup :=
  (inv.classes p c small).2.2.nodup_iff.mpr (reset_nodup (Nat.two_pow_pos c))

-- What is the same of the new page is the same of every page.
theorem update_page {α : Type} (field : Page → α) {p : Nat} {page : Page}
    (same : field page = field (w.page p)) (q : Nat) :
    field (Function.update w.page p page q) = field (w.page q) := by
  by_cases here : q = p
  · rw [here, Function.update_self]
    exact same
  · rw [Function.update_of_ne here]

/-- Of the pages only the free list and isFull of `p` change. -/
structure Local (w after : World) (p : Nat) (page : Page) : Prop where
  pages : after.page = Function.update w.page p page
  kind : page.sizeClassPow2 = (w.page p).sizeClassPow2
  size : page.sizeClassSize = (w.page p).sizeClassSize
  overflow : after.overflowPageList = w.overflowPageList
  count : after.numAllocatedPages = w.numAllocatedPages
  empty : after.emptyOverFlowPageList = w.emptyOverFlowPageList
  held : after.held = w.held

/-- Beside that, the lists of pages by class and the live blocks of the page may change. -/
theorem Inv.keep (inv : Inv w) {after : World} {p : Nat} {page : Page}
    (same : Local w after p page)
    (listed : ∀ c, ∀ q ∈ after.nonFullPageLists c, (w.page q).sizeClassPow2 = some c ∧
      (after.page q).isFull % 2 = 0)
    (nodup : ∀ c, (after.nonFullPageLists c).Nodup)
    (blocks : ∀ c, (w.page p).sizeClassPow2 = some c → (page.freeList ++ after.liveIn p).Perm
      ((w.page p).freeList ++ w.liveIn p))
    (others : ∀ q, q ≠ p → after.liveIn q = w.liveIn q)
    (live : ∀ region ∈ after.live, region ∈ w.live ∨
      ∃ c, (w.page region.1.page).sizeClassPow2 = some c ∧ region.2 ≤ 2 ^ c)
    (distinct : (after.live.map Prod.fst).Nodup) : Inv after := by
  obtain ⟨pages, kind, size, overflow, count, empty, held⟩ := same
  have header (q : Nat) : (after.page q).sizeClassPow2 = (w.page q).sizeClassPow2 ∧
      (after.page q).sizeClassSize = (w.page q).sizeClassSize := by
    rw [pages]
    exact ⟨update_page Page.sizeClassPow2 kind q, update_page Page.sizeClassSize size q⟩
  have head (p : Nat) : after.Head p ↔ w.Head p := by
    rw [World.Head, World.Head, (header p).1, overflow]
  have span (p : Nat) : (after.page p).span = (w.page p).span := by
    rw [Page.span, Page.span, (header p).1, (header p).2]
  refine ⟨by rw [held]; exact inv.unlocked, by rw [empty]; exact inv.empty, fun c p member => ?_,
    nodup, fun p here => ?_,
    fun p q here there ne => ?_, fun q c small => ?_, fun region member => ?_, distinct⟩
  · rw [(header p).1]
    exact listed c p member
  · rw [span, count]
    exact inv.within p ((head p).mp here)
  · rw [span, span]
    exact inv.apart p q ((head p).mp here) ((head q).mp there) ne
  · rw [(header q).1] at small
    obtain ⟨low, high, all⟩ := inv.classes q c small
    refine ⟨low, high, ?_⟩
    rw [pages]
    by_cases here : q = p
    · subst here
      rw [Function.update_self]
      exact (blocks c small).trans all
    · rw [Function.update_of_ne here, others q here]
      exact all
  · rw [head, (header _).1, (header _).2]
    rcases live region member with old | ⟨c, small, fits⟩
    · exact inv.live region old
    · refine ⟨.inl (by rw [small]; rfl), fun c' small' => ?_, fun large => ?_⟩
      · rw [small] at small'
        exact Option.some.inj small' ▸ fits
      · rw [small] at large
        cases large

/-- A block is popped. -/
theorem Inv.pop (inv : Inv w) {c size : Nat} {after : World} {ptr : Block}
    (popped : w.tryAlloc c = some (after, ptr)) (fits : size ≤ 2 ^ c) :
    after.live = w.live ∧ Inv (after.give ptr size) := by
  rw [World.tryAlloc] at popped
  cases list : w.nonFullPageLists c with
  | nil =>
      rw [list] at popped
      cases popped
  | cons p rest =>
      rw [list] at popped
      cases blocks : (w.page p).freeList with
      | nil =>
          simp only [blocks] at popped
          cases popped
      | cons first others =>
          simp only [blocks, Option.some.injEq, Prod.mk.injEq] at popped
          obtain ⟨rfl, rfl⟩ := popped
          have small := (inv.listed c p (by rw [list]; exact List.mem_cons_self)).1
          have fresh := inv.free_nodup small
          have mine : first.page = p := by
            refine (reset_inside ((inv.classes p c small).2.2.mem_iff.mp ?_)).1
            rw [blocks]
            exact List.mem_append_left _ List.mem_cons_self
          rw [blocks, List.cons_append, List.nodup_cons] at fresh
          refine ⟨rfl, inv.keep (p := p) ⟨rfl, rfl, rfl, rfl, rfl, rfl, rfl⟩ (fun c' q member => ?_)
            inv.nodup
            (fun c' small' => ?_) (fun q ne => ?_) (fun region member => ?_) ?_⟩
          · obtain ⟨kind, even⟩ := inv.listed c' q member
            have kept : ({ w.page p with freeList := others } : Page).isFull =
              (w.page p).isFull := rfl
            have same := update_page Page.isFull kept q
            exact ⟨kind, (congrArg (· % 2) same).trans even⟩
          · rw [blocks]
            have shown : World.liveIn
              ((w.setPage p { w.page p with freeList := others }).give first size) p =
                first :: w.liveIn p := List.filter_cons_of_pos (by simpa using mine)
            exact (List.Perm.of_eq (congrArg (others ++ ·) shown)).trans List.perm_middle
          · exact List.filter_cons_of_neg (by simpa [mine] using Ne.symm ne)
          · rcases List.mem_cons.mp member with rfl | old
            · exact .inr ⟨c, by rw [mine]; exact small, fits⟩
            · exact .inl old
          · refine List.nodup_cons.mpr ⟨fun held => ?_, inv.distinct⟩
            refine fresh.1 (List.mem_append_right _ ?_)
            exact List.mem_filter.mpr ⟨held, by simpa using mine⟩

theorem held_back (unlocked : ∀ lock, w.held lock = false) (lock : Lock) :
    Function.update (Function.update w.held lock true) lock false = w.held := by
  rw [Function.update_idem, Function.update_eq_self_iff]
  exact (unlocked lock).symm

/-- A page without free blocks leaves the list of its class. -/
theorem Inv.moveToFull (inv : Inv w) {c p : Nat} {rest : List Nat}
    (list : w.nonFullPageLists c = p :: rest) :
    ∃ moved, w.moveToFull c p rest = .ok moved ∧ Inv moved ∧ moved.live = w.live ∧
      moved.nonFullPageLists c = rest := by
  obtain ⟨kind, even⟩ := inv.listed c p (by rw [list]; exact List.mem_cons_self)
  have nodup := inv.nodup c
  rw [list, List.nodup_cons] at nodup
  have computed : w.moveToFull c p rest =
    .ok ({ (w.setNonFull c rest).setPage p { w.page p with isFull := (w.page p).isFull + 1 } with
      fullPageList := p :: w.fullPageList, held := w.held }) := by
    rw [World.moveToFull, if_neg (by omega), World.acquireLock,
      if_neg (by simp [World.setNonFull, inv.unlocked])]
    simp only [Except.map, World.releaseLock, World.setPage, World.setNonFull,
      held_back inv.unlocked]
  refine ⟨_, computed, inv.keep (p := p) ⟨rfl, rfl, rfl, rfl, rfl, rfl, rfl⟩ (fun c' q member => ?_)
    (fun c' => ?_) (fun _ _ => .refl _)
    (fun _ _ => rfl) (fun region member => .inl member) inv.distinct, rfl,
    Function.update_self _ _ _⟩
  · have apart : q ≠ p ∧ q ∈ w.nonFullPageLists c' := by
      by_cases here : c' = c
      · subst here
        have later : q ∈ rest := by simpa [World.setNonFull, World.setPage] using member
        refine ⟨fun same => nodup.1 (same ▸ later), ?_⟩
        rw [list]
        exact List.mem_cons_of_mem _ later
      · have old : q ∈ w.nonFullPageLists c' := by
          simpa [World.setNonFull, World.setPage, here] using member
        refine ⟨?_, old⟩
        rintro rfl
        rw [(inv.listed c' q old).1] at kind
        exact here (Option.some.inj kind)
    obtain ⟨kind', even'⟩ := inv.listed c' q apart.2
    refine ⟨kind', ?_⟩
    change (Function.update w.page p _ q).isFull % 2 = 0
    rw [Function.update_of_ne apart.1]
    exact even'
  · by_cases here : c' = c
    · subst here
      simpa [World.setNonFull, World.setPage] using nodup.2
    · simpa [World.setNonFull, World.setPage, here] using inv.nodup c'

theorem requiredPages_pos (size : Nat) : 0 < World.requiredPages size := by
  rw [World.requiredPages]
  exact Nat.succ_pos _

theorem span_pos (page : Page) : 0 < page.span := by
  rw [Page.span]
  cases page.sizeClassPow2 with
  | none => exact requiredPages_pos _
  | some c => exact Nat.one_pos

theorem Inv.fresh (inv : Inv w) : ¬ w.Head w.numAllocatedPages := by
  intro head
  have := inv.within _ head
  have := span_pos (w.page w.numAllocatedPages)
  omega

theorem Inv.not_live (inv : Inv w) {region : Block × Nat} (member : region ∈ w.live) :
    region.1.page ≠ w.numAllocatedPages := by
  intro same
  exact inv.fresh (same ▸ (inv.live region member).1)

theorem Inv.liveIn_fresh (inv : Inv w) : w.liveIn w.numAllocatedPages = [] := by
  refine List.filter_eq_nil_iff.mpr fun b member => ?_
  obtain ⟨region, held, rfl⟩ := List.mem_map.mp member
  simpa using inv.not_live held

/-- Pages at the end of the pages allocated so far get a header. -/
theorem Inv.extend (inv : Inv w) {after : World} (page : Page)
    (pages : after.page = Function.update w.page w.numAllocatedPages page)
    (overflow : ∀ q, q ≠ w.numAllocatedPages →
      (q ∈ after.overflowPageList ↔ q ∈ w.overflowPageList))
    (count : after.numAllocatedPages = w.numAllocatedPages + page.span)
    (empty : after.emptyOverFlowPageList = w.emptyOverFlowPageList) (held : after.held = w.held)
    (listed : ∀ c, ∀ q ∈ after.nonFullPageLists c, (q ∈ w.nonFullPageLists c) ∨
      (q = w.numAllocatedPages ∧ page.sizeClassPow2 = some c ∧ page.isFull % 2 = 0))
    (nodup : ∀ c, (after.nonFullPageLists c).Nodup)
    (shape : (∃ c, page.sizeClassPow2 = some c ∧ 3 ≤ c ∧ c < maxAllocPow2SizeClass ∧
      page.freeList = resetMemoryPage w.numAllocatedPages (2 ^ c) ∧ after.live = w.live) ∨
      (page.sizeClassPow2 = none ∧ w.numAllocatedPages ∈ after.overflowPageList ∧
      Several page.sizeClassSize ∧ after.live = (⟨w.numAllocatedPages, headerBytes⟩,
      page.sizeClassSize) :: w.live)) : Inv after := by
  have at_new : after.page w.numAllocatedPages = page := by rw [pages, Function.update_self]
  have at_old (q : Nat) (ne : q ≠ w.numAllocatedPages) : after.page q = w.page q := by
    rw [pages, Function.update_of_ne ne]
  have head (q : Nat) (ne : q ≠ w.numAllocatedPages) : after.Head q ↔ w.Head q := by
    rw [World.Head, World.Head, at_old q ne, overflow q ne]
  have head_new : after.Head w.numAllocatedPages := by
    rcases shape with ⟨c, small, _⟩ | ⟨_, listed, _⟩
    · exact .inl (by rw [at_new, small]; rfl)
    · exact .inr listed
  have listed_old (c q : Nat) (member : q ∈ w.nonFullPageLists c) : q ≠ w.numAllocatedPages := by
    rintro rfl
    exact inv.fresh (.inl (by rw [(inv.listed c _ member).1]; rfl))
  have liveIn_old (q : Nat) (ne : q ≠ w.numAllocatedPages) : after.liveIn q = w.liveIn q := by
    rcases shape with ⟨c, _, _, _, _, live⟩ | ⟨_, _, _, live⟩
    · rw [World.liveIn, live, World.liveIn]
    · rw [World.liveIn, live, List.map_cons]
      exact List.filter_cons_of_neg (by simpa using Ne.symm ne)
  refine ⟨by rw [held]; exact inv.unlocked, by rw [empty]; exact inv.empty, fun c q member => ?_,
    nodup, fun p here => ?_,
    fun p q here there ne => ?_, fun q c small => ?_, fun region member => ?_, ?_⟩
  · rcases listed c q member with old | ⟨rfl, small, even⟩
    · rw [at_old q (listed_old c q old)]
      exact inv.listed c q old
    · rw [at_new]
      exact ⟨small, even⟩
  · rw [count]
    by_cases new : p = w.numAllocatedPages
    · rw [new, at_new]
    · rw [at_old p new]
      exact (inv.within p ((head p new).mp here)).trans (Nat.le_add_right _ _)
  · by_cases new : p = w.numAllocatedPages
    · have old : q ≠ w.numAllocatedPages := fun same => ne (new.trans same.symm)
      rw [at_old q old, new]
      exact .inr (inv.within q ((head q old).mp there))
    · by_cases new' : q = w.numAllocatedPages
      · rw [at_old p new, new']
        exact .inl (inv.within p ((head p new).mp here))
      · rw [at_old p new, at_old q new']
        exact inv.apart p q ((head p new).mp here) ((head q new').mp there) ne
  · by_cases new : q = w.numAllocatedPages
    · rw [new, at_new] at small
      rw [new, at_new]
      rcases shape with ⟨c', small', low, high, blocks, live⟩ | ⟨large, _⟩
      · obtain rfl : c' = c := Option.some.inj (small'.symm.trans small)
        have none_live : after.liveIn w.numAllocatedPages = [] := by
          rw [World.liveIn, live]
          exact inv.liveIn_fresh
        rw [none_live, List.append_nil, blocks]
        exact ⟨low, high, .refl _⟩
      · rw [large] at small
        cases small
    · rw [at_old q new] at small
      rw [at_old q new, liveIn_old q new]
      exact inv.classes q c small
  · have old (kept : region ∈ w.live) : after.Head region.1.page ∧
        (∀ c, (after.page region.1.page).sizeClassPow2 = some c → region.2 ≤ 2 ^ c) ∧
        ((after.page region.1.page).sizeClassPow2 = none → region.1.offset = headerBytes ∧
          region.2 = (after.page region.1.page).sizeClassSize ∧ Several region.2) := by
      have ne := inv.not_live kept
      rw [head _ ne, at_old _ ne]
      exact inv.live region kept
    rcases shape with ⟨_, _, _, _, _, live⟩ | ⟨large, _, size, live⟩
    · exact old (live ▸ member)
    · rw [live] at member
      rcases List.mem_cons.mp member with rfl | kept
      · refine ⟨head_new, fun c small => ?_, fun _ => ⟨rfl, by rw [at_new], size⟩⟩
        rw [at_new, large] at small
        cases small
      · exact old kept
  · rcases shape with ⟨_, _, _, _, _, live⟩ | ⟨_, _, _, live⟩
    · rw [live]
      exact inv.distinct
    · rw [live, List.map_cons, List.nodup_cons]
      refine ⟨fun held => ?_, inv.distinct⟩
      obtain ⟨region, member, same⟩ := List.mem_map.mp held
      exact inv.not_live member (congrArg Block.page same)

/-- A new page has free blocks. -/
theorem newPage_tryAlloc (w : World) {c : Nat} (high : c < maxAllocPow2SizeClass) :
    ∃ result, (w.newPage c).tryAlloc c = some result := by
  have room : 0 < usablePageSizeBytes / 2 ^ c := by
    have small : 2 ^ c ≤ 2 ^ 15 := Nat.pow_le_pow_right (by decide) (Nat.le_of_lt_succ high)
    exact Nat.div_pos (small.trans (by decide)) (Nat.two_pow_pos c)
  have first : (⟨w.numAllocatedPages, headerBytes + 0 * 2 ^ c⟩ : Block) ∈ resetMemoryPage
    w.numAllocatedPages (2 ^ c) :=
    mem_reset.mpr ⟨0, room, rfl⟩
  cases blocks : resetMemoryPage w.numAllocatedPages (2 ^ c) with
  | nil =>
      rw [blocks] at first
      cases first
  | cons ptr rest =>
      have shown : ((w.newPage c).page w.numAllocatedPages).freeList = ptr :: rest := by
        rw [← blocks]
        simp [World.newPage, World.setNonFull, World.setPage]
      have head : (w.newPage c).nonFullPageLists c = [w.numAllocatedPages] :=
        Function.update_self _ _ _
      refine ⟨((w.newPage c).setPage w.numAllocatedPages
        { (w.newPage c).page w.numAllocatedPages with freeList := rest },
        ptr), ?_⟩
      rw [World.tryAlloc, head]
      simp only [shown]

theorem Inv.newPage (inv : Inv w) {c : Nat} (low : 3 ≤ c) (high : c < maxAllocPow2SizeClass)
    (list : w.nonFullPageLists c = []) : Inv (w.newPage c) := by
  refine inv.extend ⟨some c, 2 ^ c, 0, resetMemoryPage w.numAllocatedPages (2 ^ c)⟩ rfl
    (fun _ _ => Iff.rfl) rfl rfl rfl
    (fun c' q member => ?_) (fun c' => ?_) (.inl ⟨c, rfl, low, high, rfl, rfl⟩)
  · by_cases here : c' = c
    · subst here
      have new : q = w.numAllocatedPages := by simpa [World.newPage, World.setNonFull] using member
      exact .inr ⟨new, rfl, rfl⟩
    · exact .inl (by simpa [World.newPage, World.setNonFull, World.setPage, here] using member)
  · by_cases here : c' = c
    · subst here
      simp [World.newPage, World.setNonFull]
    · simpa [World.newPage, World.setNonFull, World.setPage, here] using inv.nodup c'

/-- The loop of alloc ends: each round but the last gives a page away, and a new page has free
blocks. -/
theorem Inv.allocLoop (inv : Inv w) {c size : Nat} (low : 3 ≤ c)
    (high : c < maxAllocPow2SizeClass) (fits : size ≤ 2 ^ c) {fuel : Nat}
    (enough : (w.nonFullPageLists c).length + 1 < fuel) :
    ∃ after ptr, World.allocLoop c fuel w = .ok (after, ptr) ∧ after.live = w.live ∧
      Inv (after.give ptr size) := by
  have last {v : World} (inv : Inv v) (list : v.nonFullPageLists c = []) {fuel : Nat}
    (positive : 0 < fuel) :
      ∃ after ptr, World.allocLoop c fuel (v.newPage c) = .ok (after, ptr) ∧ after.live = v.live ∧
        Inv (after.give ptr size) := by
    obtain ⟨⟨after, ptr⟩, popped⟩ := newPage_tryAlloc v high
    obtain ⟨live, inv''⟩ := (inv.newPage low high list).pop popped fits
    cases fuel with
    | zero => cases positive
    | succ fuel => exact ⟨after, ptr, by rw [World.allocLoop, popped], live, inv''⟩
  induction fuel generalizing w with
  | zero => cases enough
  | succ fuel ih =>
      rw [World.allocLoop]
      cases popped : w.tryAlloc c with
      | some result =>
          obtain ⟨after, ptr⟩ := result
          obtain ⟨live, inv'⟩ := inv.pop popped fits
          exact ⟨after, ptr, rfl, live, inv'⟩
      | none =>
          cases list : w.nonFullPageLists c with
          | nil => exact last inv list (by omega)
          | cons p rest =>
              obtain ⟨moved, computed, inv', live, shorter⟩ := inv.moveToFull list
              rw [list, List.length_cons] at enough
              cases rest with
              | nil =>
                  obtain ⟨after, ptr, found, live', inv''⟩ :=
                    last inv' shorter (show 0 < fuel by omega)
                  simp only [computed, Except.bind]
                  exact ⟨after, ptr, found, live'.trans live, inv''⟩
              | cons q rest =>
                  obtain ⟨after, ptr, found, live', inv''⟩ := ih inv' (by rw [shorter]; omega)
                  simp only [computed, Except.bind]
                  exact ⟨after, ptr, found, live'.trans live, inv''⟩

/-- The state that freshPages leaves. -/
def World.overflowed (w : World) (count size : Nat) : World :=
  { w with
    numAllocatedPages := w.numAllocatedPages + count
    page := Function.update w.page w.numAllocatedPages ⟨none, size, 0, []⟩
    overflowPageList := w.numAllocatedPages :: w.overflowPageList }

theorem freshPages_eq (unlocked : ∀ lock, w.held lock = false) (count size : Nat) :
    w.freshPages count size =
      .ok (w.overflowed count size, ⟨w.numAllocatedPages, headerBytes⟩) := by
  rw [World.freshPages, World.acquireLock, if_neg (by simp [World.setPage, unlocked])]
  simp only [Except.map, World.releaseLock, World.setPage, held_back unlocked, World.overflowed]

theorem Inv.freshPages (inv : Inv w) {count size : Nat}
    (span : (Page.mk none size 0 []).span = count) (several : Several size) :
    ∃ after ptr, w.freshPages count size = .ok (after, ptr) ∧ after.live = w.live ∧
      Inv (after.give ptr size) := by
  refine ⟨_, _, freshPages_eq inv.unlocked count size, rfl, inv.extend ⟨none, size, 0, []⟩ rfl
    (fun q ne => ?_) ?_ rfl rfl
    (fun c q member => .inl member) inv.nodup (.inr ⟨rfl, List.mem_cons_self, several, rfl⟩)⟩
  · simp [World.give, World.overflowed, ne]
  · rw [span]
    rfl

theorem Inv.alloc (inv : Inv w) {size : Nat}
    (fine : (5 ≤ size ∧ size ≤ 2 ^ 15) ∨ Several size) :
    ∃ after ptr, w.alloc size = .ok (after, ptr) ∧ after.live = w.live ∧
      Inv (after.give ptr size) := by
  rw [World.alloc]
  rcases fine with ⟨low, high⟩ | several
  · obtain ⟨three, below, fits⟩ := getSizeClass_fits low high
    have page : size ≤ usablePageSizeBytes := high.trans (by decide)
    rw [if_pos page, if_neg (Nat.not_le.mpr below)]
    exact inv.allocLoop three below fits (Nat.lt_succ_self _)
  · rw [if_neg (Nat.not_le.mpr several.1), inv.empty]
    have span : (Page.mk none size 0 []).span = World.requiredPages size := by
      rw [Page.span, Option.elim_none]
    exact inv.freshPages span several

theorem liveIn_filter (obj : Block) (after : World)
    (live : after.live = w.live.filter fun region => region.1 ≠ obj) (p : Nat) :
    after.liveIn p = (w.liveIn p).filter fun b => b ≠ obj := by
  rw [World.liveIn, live, World.liveIn, List.filter_map, List.filter_map, List.filter_map,
    List.filter_filter, List.filter_filter]
  congr 1
  refine List.filter_congr fun region _ => ?_
  exact Bool.and_comm _ _

theorem Inv.free (inv : Inv w) {obj : Block} {size : Nat} (held : (obj, size) ∈ w.live)
    (fits : size ≤ usablePageSizeBytes) :
    ∃ after, w.free obj = .ok after ∧ after.live = w.live ∧ Inv (after.takeBack obj) := by
  obtain ⟨_, _, large⟩ := inv.live _ held
  cases kind : (w.page obj.page).sizeClassPow2 with
  | none =>
      have := (large kind).2.2.1
      exact absurd fits (Nat.not_le.mpr this)
  | some c =>
      have below := (inv.classes _ c kind).2.1
      have fresh := inv.free_nodup kind
      have member : obj ∈ w.liveIn obj.page := liveIn_mem held
      have swapped {after : World}
        (live : after.live = w.live.filter fun region => region.1 ≠ obj) :
          (obj :: (w.page obj.page).freeList ++ after.liveIn obj.page).Perm
          ((w.page obj.page).freeList ++ w.liveIn obj.page) := by
        rw [liveIn_filter obj after live]
        have erased : ((w.liveIn obj.page).filter fun b => b ≠ obj) = (w.liveIn obj.page).erase
          obj := by
          rw [(List.nodup_append.mp fresh).2.1.erase_eq_filter]
          refine List.filter_congr fun b _ => ?_
          simp [bne, beq_eq_decide]
        rw [erased]
        exact List.perm_middle.symm.trans ((List.perm_cons_erase member).symm.append_left _)
      have elsewhere {after : World}
        (live : after.live = w.live.filter fun region => region.1 ≠ obj) (q : Nat)
        (ne : q ≠ obj.page) :
          after.liveIn q = w.liveIn q := by
        rw [liveIn_filter obj after live]
        refine List.filter_eq_self.mpr fun b member => ?_
        have here : b.page = q := by simpa using (List.mem_filter.mp member).2
        have apart : b ≠ obj := by
          rintro rfl
          exact ne here.symm
        simpa using apart
      have distinct : ((w.live.filter fun region => region.1 ≠ obj).map Prod.fst).Nodup :=
        inv.distinct.sublist (List.filter_sublist.map Prod.fst)
      rw [World.free, kind]
      by_cases full : (w.page obj.page).isFull % 2 = 1
      · have computed : (((w.setPage obj.page { w.page obj.page with
              freeList := obj :: (w.page obj.page).freeList, isFull :=
                (w.page obj.page).isFull + 1 }).acquireLock .fullPageList).map
            fun (locked : World) =>
              ({ locked with fullPageList := w.fullPageList.erase obj.page }.setNonFull c
              (obj.page :: w.nonFullPageLists c)).releaseLock .fullPageList) =
            .ok { (w.setPage obj.page { w.page obj.page with
                freeList := obj :: (w.page obj.page).freeList, isFull :=
                  (w.page obj.page).isFull + 1 }).setNonFull c
                  (obj.page :: w.nonFullPageLists c) with
              fullPageList := w.fullPageList.erase obj.page, held := w.held } := by
          rw [World.acquireLock, if_neg (by simp [World.setPage, inv.unlocked])]
          simp only [Except.map, World.releaseLock, World.setPage, World.setNonFull,
            held_back inv.unlocked]
        simp only [full, if_true, if_neg (Nat.not_le.mpr below)]
        refine ⟨_, computed, rfl, inv.keep (p := obj.page) ⟨rfl, rfl, rfl, rfl, rfl, rfl, rfl⟩
          (fun c' q member => ?_) (fun c' => ?_)
          (fun _ _ => swapped rfl) (elsewhere rfl)
          (fun region kept => .inl (List.mem_of_mem_filter kept)) distinct⟩
        · by_cases new : q = obj.page
          · subst new
            refine ⟨?_, ?_⟩
            · by_cases here : c' = c
              · rw [here]
                exact kind
              · have old : obj.page ∈ w.nonFullPageLists c' := by
                  simpa [World.takeBack, World.setNonFull, World.setPage, here] using member
                exact (inv.listed c' _ old).1
            · change (Function.update w.page obj.page _ obj.page).isFull % 2 = 0
              rw [Function.update_self]
              change ((w.page obj.page).isFull + 1) % 2 = 0
              omega
          · have old : q ∈ w.nonFullPageLists c' := by
              by_cases here : c' = c
              · subst here
                simpa [World.takeBack, World.setNonFull, World.setPage, new] using member
              · simpa [World.takeBack, World.setNonFull, World.setPage, here] using member
            obtain ⟨kind', even⟩ := inv.listed c' q old
            refine ⟨kind', ?_⟩
            change (Function.update w.page obj.page _ q).isFull % 2 = 0
            rw [Function.update_of_ne new]
            exact even
        · by_cases here : c' = c
          · subst here
            have absent : obj.page ∉ w.nonFullPageLists c' := fun listed => by
              have := (inv.listed c' _ listed).2
              omega
            simpa [World.takeBack, World.setNonFull, World.setPage, absent] using inv.nodup c'
          · simpa [World.takeBack, World.setNonFull, World.setPage, here] using inv.nodup c'
      · simp only [full, if_false]
        refine ⟨_, rfl, rfl, inv.keep (p := obj.page) ⟨rfl, rfl, rfl, rfl, rfl, rfl, rfl⟩
          (fun c' q member => ?_) inv.nodup
          (fun _ _ => swapped rfl) (elsewhere rfl)
          (fun region kept => .inl (List.mem_of_mem_filter kept)) distinct⟩
        obtain ⟨kind', even⟩ := inv.listed c' q member
        have kept :
          ({ w.page obj.page with freeList := obj :: (w.page obj.page).freeList } : Page).isFull =
            (w.page obj.page).isFull := rfl
        have same := update_page Page.isFull kept q
        exact ⟨kind', (congrArg (· % 2) same).trans even⟩

end Safe

/-! Runs. -/

variable {w after : World}

theorem initial_head (p : Nat) : ¬ initial.Head p := by
  rintro (small | listed)
  · cases small
  · cases listed

theorem initial_inv : Inv initial where
  unlocked := fun _ => rfl
  empty := rfl
  listed := fun _ _ member => absurd member List.not_mem_nil
  nodup := fun _ => List.nodup_nil
  within := fun p head => absurd head (initial_head p)
  apart := fun p _ head => absurd head (initial_head p)
  classes := fun _ _ small => absurd small (Option.some_ne_none _).symm
  live := fun _ member => absurd member List.not_mem_nil
  distinct := List.nodup_nil

/-- A fine call returns and keeps the invariant. -/
theorem Inv.perform (inv : Inv w) {call : Call} (fine : Fine w call) :
    ∃ after, perform w call = .ok after ∧ Inv after := by
  cases call with
  | alloc size =>
      obtain ⟨after, ptr, computed, _, kept⟩ := inv.alloc fine
      exact ⟨_, by rw [PmemSizes.perform, computed]; rfl, kept⟩
  | free obj =>
      obtain ⟨size, held, fits⟩ := fine
      obtain ⟨after, computed, _, kept⟩ := inv.free held fits
      exact ⟨_, by rw [PmemSizes.perform, computed]; rfl, kept⟩

theorem Inv.served (inv : Inv w) : Served w where
  unlocked := inv.unlocked
  disjoint := by
    have apart := List.pairwise_map.mp inv.distinct
    exact apart.imp_of_mem fun first second ne => inv.disjoint first second ne
  inside := fun region member => (inv.extent member).2.trans
    (Nat.mul_le_mul_right _ (inv.within _ (inv.live region member).1))
  links := fun p c small => ⟨(inv.classes p c small).2.1, reset_links (inv.classes p c small).1⟩

/-! What goes wrong with the other calls. -/

-- Blocks of fewer than 8 bytes do not hold a link.
theorem links_overlap (p : Nat) {c : Nat} (small : c < 3) : ¬ Links p (2 ^ c) := by
  intro links
  have two : [(⟨p, headerBytes + 0 * 2 ^ c⟩ : Block), ⟨p, headerBytes + 1 * 2 ^ c⟩].Sublist
    (resetMemoryPage p (2 ^ c)) := by
    have room : 2 ≤ usablePageSizeBytes / 2 ^ c := by
      have fits : 2 ^ c ≤ 2 ^ 2 := Nat.pow_le_pow_right (by decide) (Nat.le_of_lt_succ small)
      rw [Nat.le_div_iff_mul_le (Nat.two_pow_pos c)]
      exact (Nat.mul_le_mul_left 2 fits).trans (by decide)
    exact (List.range_sublist.mpr room).map fun i => (⟨p, headerBytes + i * 2 ^ c⟩ : Block)
  have apart := (List.pairwise_cons.mp (links.apart.sublist two)).1 _ List.mem_cons_self
  have short : 2 ^ c < 2 ^ 3 := Nat.pow_lt_pow_right (by decide) small
  simp only at apart
  omega

theorem getSizeClass_small {size : Nat} (positive : 1 ≤ size) (low : size < 5) :
    getSizeClass size < 3 := by
  interval_cases size <;> decide

theorem getSizeClass_large {size : Nat} (low : 2 ^ 15 < size) (high : size ≤ usablePageSizeBytes) :
    maxAllocPow2SizeClass ≤ getSizeClass size := by
  have bound : usablePageSizeBytes < 2 ^ 64 := by decide
  obtain ⟨below, above⟩ := bitIndexLoop_spec 64 (show 2 ^ 0 ≤ size by omega)
    (show size < 2 ^ (0 + 64) by omega)
  rw [getSizeClass, maxAllocPow2SizeClass]
  generalize bitIndexLoop size 64 0 = b at below above
  have lower : 15 ≤ b := by
    by_contra small
    have := Nat.pow_le_pow_right (show 0 < 2 by decide) (show b + 1 ≤ 15 by omega)
    omega
  split
  · omega
  · have : b ≠ 15 := by
      rintro rfl
      omega
    omega

theorem tryAlloc_class {c : Nat} {after : World} {ptr : Block}
    (popped : w.tryAlloc c = some (after, ptr)) (q : Nat) :
    (after.page q).sizeClassPow2 = (w.page q).sizeClassPow2 := by
  rw [World.tryAlloc] at popped
  split at popped
  · cases popped
  · rename_i p rest list
    split at popped
    · cases popped
    · rename_i first others blocks
      cases popped
      have kept : ({ w.page p with freeList := others } : Page).sizeClassPow2 =
        (w.page p).sizeClassPow2 := rfl
      exact update_page Page.sizeClassPow2 kept q

theorem Inv.alloc_small (inv : Inv w) {size : Nat} (positive : 1 ≤ size) (low : size < 5) :
    ∃ after, PmemSizes.perform w (.alloc size) = .ok after ∧ ¬ Served after := by
  have small := getSizeClass_small positive low
  generalize class_ : getSizeClass size = c at small
  have below : c < maxAllocPow2SizeClass := small.trans (by decide)
  have list : w.nonFullPageLists c = [] := by
    refine List.eq_nil_iff_forall_not_mem.mpr fun p member => ?_
    have := (inv.classes p _ (inv.listed _ p member).1).1
    omega
  have nothing : w.tryAlloc c = none := by rw [World.tryAlloc, list]
  obtain ⟨⟨after, ptr⟩, popped⟩ := newPage_tryAlloc w below
  have computed : w.alloc size = .ok (after, ptr) := by
    rw [World.alloc, if_pos (low.le.trans (by decide)), class_, if_neg (Nat.not_le.mpr below), list,
      World.allocLoop, nothing]
    simp only [list]
    rw [World.allocLoop, popped]
  refine ⟨after.give ptr size, by rw [PmemSizes.perform, computed]; rfl, fun served => ?_⟩
  have page : (after.page w.numAllocatedPages).sizeClassPow2 = some c := by
    rw [tryAlloc_class popped]
    simp [World.newPage, World.setNonFull, World.setPage]
  exact links_overlap _ small (served.links w.numAllocatedPages c page).2

theorem alloc_large {size : Nat} (low : 2 ^ 15 < size) (high : size ≤ usablePageSizeBytes) :
    PmemSizes.perform w (.alloc size) = .error .outOfRange := by
  rw [PmemSizes.perform, World.alloc, if_pos high, if_pos (getSizeClass_large low high)]
  rfl

-- One page for a region of almost 2 ^ 64 bytes.
theorem Inv.alloc_wraps (inv : Inv w) {size : Nat} (low : 2 ^ 64 < size + usablePageSizeBytes)
    (high : size < 2 ^ 64) :
    ∃ after, PmemSizes.perform w (.alloc size) = .ok after ∧ ¬ Served after := by
  have usable : usablePageSizeBytes = 4193832 := rfl
  have one : World.requiredPages size = 1 := by
    have wrapped : (size + (usablePageSizeBytes - 1)) % 2 ^ 64 < usablePageSizeBytes := by omega
    rw [World.requiredPages, Nat.div_eq_of_lt wrapped]
  have computed : w.alloc size =
      .ok (w.overflowed 1 size, ⟨w.numAllocatedPages, headerBytes⟩) := by
    rw [World.alloc, if_neg (by omega), inv.empty]
    simp only [one]
    exact freshPages_eq inv.unlocked 1 size
  refine ⟨_, by rw [PmemSizes.perform, computed]; rfl, fun served => ?_⟩
  have inside := served.inside _ List.mem_cons_self
  have page : pageSizeBytes = 4194304 := rfl
  change w.numAllocatedPages * pageSizeBytes + headerBytes + size ≤
    (w.numAllocatedPages + 1) * pageSizeBytes at inside
  rw [Nat.add_mul, page] at inside
  omega

theorem Inv.free_overflow (inv : Inv w) {obj : Block} {size : Nat} (held : (obj, size) ∈ w.live)
    (large : usablePageSizeBytes < size) : PmemSizes.perform w (.free obj) = .error .nullWrite := by
  have kind : (w.page obj.page).sizeClassPow2 = none := by
    cases kind : (w.page obj.page).sizeClassPow2 with
    | none => rfl
    | some c =>
        have fits := (inv.live _ held).2.1 c kind
        have below : 2 ^ c ≤ 2 ^ 15 :=
          Nat.pow_le_pow_right (by decide) (Nat.le_of_lt_succ (inv.classes _ c kind).2.1)
        have room : 2 ^ 15 ≤ usablePageSizeBytes := by decide
        simp only at fits
        omega
  rw [PmemSizes.perform, World.free, kind]
  simp [World.acquireLock, inv.unlocked, inv.empty, Except.bind, Except.map]

/-- A call in a state that the allocator reaches by fine calls is served exactly when it
is fine. -/
theorem Inv.served_iff (inv : Inv w) {call : Call} (client : Client w call) :
    (∃ after, PmemSizes.perform w call = .ok after ∧ Served after) ↔ Fine w call := by
  constructor
  · rintro ⟨after, computed, served⟩
    by_contra bad
    cases call with
    | alloc size =>
        obtain ⟨positive, word⟩ := client
        simp only [Fine, Several, not_or, not_and, Nat.not_le] at bad
        by_cases low : size < 5
        · obtain ⟨other, same, unserved⟩ := inv.alloc_small positive low
          rw [same] at computed
          cases computed
          exact unserved served
        · have large := bad.1 (Nat.le_of_not_lt low)
          by_cases page : size ≤ usablePageSizeBytes
          · rw [alloc_large large page] at computed
            cases computed
          · obtain ⟨other, same, unserved⟩ := inv.alloc_wraps (bad.2 (Nat.lt_of_not_le page)) word
            rw [same] at computed
            cases computed
            exact unserved served
    | free obj =>
        obtain ⟨size, held⟩ := client
        have large : usablePageSizeBytes < size := by
          by_contra small
          exact bad ⟨size, held, Nat.le_of_not_lt small⟩
        rw [inv.free_overflow held large] at computed
        cases computed
  · intro fine
    obtain ⟨after, computed, kept⟩ := inv.perform fine
    exact ⟨after, computed, kept.served⟩

/-! Runs. -/

theorem ServedAlong.served {calls : List Call} (along : ServedAlong w calls) : Served w := by
  cases calls with
  | nil => exact along
  | cons call rest => exact along.1

theorem Inv.along (inv : Inv w) {calls : List Call} (client : Along Client w calls) :
    ServedAlong w calls ↔ Along Fine w calls := by
  induction calls generalizing w with
  | nil => exact ⟨fun _ => trivial, fun _ => inv.served⟩
  | cons call rest ih =>
      constructor
      · rintro ⟨_, after, computed, along⟩
        have fine : Fine w call := (inv.served_iff client.1).mp ⟨after, computed, along.served⟩
        obtain ⟨next, same, kept⟩ := inv.perform fine
        refine ⟨fine, fun other computed' => ?_⟩
        cases same.symm.trans computed
        cases same.symm.trans computed'
        exact (ih kept (client.2 _ same)).mp along
      · rintro ⟨fine, later⟩
        obtain ⟨next, same, kept⟩ := inv.perform fine
        exact ⟨inv.served, next, same, (ih kept (client.2 _ same)).mpr (later _ same)⟩

/-- A sequence of calls is served throughout exactly when every size is from 5 to 2 ^ 15
or above a page and none wraps, and no region of several pages is freed. -/
theorem served_iff_fine (calls : List Call) (client : Along Client initial calls) :
    ServedAlong initial calls ↔ Along Fine initial calls :=
  initial_inv.along client

theorem two_regions_served : ServedAlong initial [.alloc 5, .alloc (2 ^ 23)] :=
  (served_iff_fine [.alloc 5, .alloc (2 ^ 23)]
    ⟨⟨by decide, by decide⟩, fun _ _ => ⟨⟨by decide, by decide⟩, fun _ _ => trivial⟩⟩).mpr
    ⟨.inl (by decide), fun _ _ => ⟨.inr ⟨by decide, by decide⟩, fun _ _ => trivial⟩⟩

theorem class_sixteen_not_served :
    ¬ ∀ calls, Along Client initial calls → ServedAlong initial calls := by
  intro served
  obtain ⟨_, after, computed, _⟩ :=
    served [.alloc 40000] ⟨⟨by decide, by decide⟩, fun _ _ => trivial⟩
  rw [alloc_large (by decide) (by decide)] at computed
  cases computed

end SetBench.PmemSizes
