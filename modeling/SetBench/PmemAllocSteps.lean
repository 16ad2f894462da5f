import SetBench.PmemAllocInv

/-! The steps of alloc and free. -/
namespace SetBench.PmemAlloc

open Transition

variable {T : Type}

section Steps

variable [DecidableEq T] {w after : World T} {tid : T} {next : Pc T} (inv : Inv w)

include inv

omit [DecidableEq T] in
theorem Inv.erase_elsewhere {page : Nat} {s : Spot T} (is_ : s.Listed) (apart : w.spot page ≠ s) :
    (w.listed s).erase page = w.listed s :=
  List.erase_of_not_mem fun member => apart ((inv.listed s is_ page).mp member)

-- No block is pushed, and the thread still looks where it would have looked.
theorem Inv.notices (pc : after.pc = Function.update w.pc tid next)
    (looks : ∀ p, w.isFull p % 2 = 1 → (w.pc tid).Notices p (w.isFull p) →
      next.Notices p (w.isFull p))
    (lists : ∀ p, after.freeList p ≠ [] ∨ after.crossThreadFreeList p ≠ [] → w.freeList p ≠ [] ∨
      w.crossThreadFreeList p ≠ [])
    (p : Nat) (odd : w.isFull p % 2 = 1)
    (blocks : after.freeList p ≠ [] ∨ after.crossThreadFreeList p ≠ []) :
    ∃ u, (after.pc u).Notices p (w.isFull p) := by
  obtain ⟨u, sees⟩ := inv.notice p odd (lists p blocks)
  by_cases self : u = tid
  · rw [self] at sees
    exact ⟨tid, by rw [pc_own pc]; exact looks p odd sees⟩
  · exact ⟨u, by rw [pc_other pc self]; exact sees⟩

theorem Inv.goto (claims : next.claims = (w.pc tid).claims)
    (hands : next.hands = (w.pc tid).hands) (inits : next.inits = (w.pc tid).inits)
    (looks : ∀ p, w.isFull p % 2 = 1 → (w.pc tid).Notices p (w.isFull p) →
      next.Notices p (w.isFull p))
    (ok : next.Ok (w.goto tid next) tid) :
    Inv (w.goto tid next) :=
  inv.quiet rfl rfl rfl rfl rfl rfl rfl claims hands inits (fun _ _ _ held => held)
    (inv.notices rfl looks fun _ blocks => blocks) ok

-- The full-list lock of `o` is free, or the thread's own.
theorem Inv.setFullLock {o : T} {holder : Option T}
    (lock : ∀ u, w.fullPageListLock o = some u → u = tid)
    (claims : next.claims = (w.pc tid).claims) (hands : next.hands = (w.pc tid).hands)
    (inits : next.inits = (w.pc tid).inits) (looks : ∀ p v, ¬ (w.pc tid).Notices p v)
    (ok : next.Ok ((w.setFullLock o holder).goto tid next) tid) :
    Inv ((w.setFullLock o holder).goto tid next) := by
  refine inv.quiet rfl rfl rfl rfl rfl ?_ rfl claims hands inits (fun u o' apart held => ?_)
    (inv.notices rfl (fun p _ sees => (looks p _ sees).elim) fun _ blocks => blocks) ok
  · funext s
    cases s <;> rfl
  · have other : o' ≠ o := fun same => apart (lock u (by rw [← same]; exact held))
    exact (Function.update_of_ne other _ _).trans held

theorem Inv.popFree {page : Nat} (silent : ∀ p v, ¬ (w.pc tid).Notices p v)
    (claims : (w.pc tid).claims = none) (hands : (w.pc tid).hands = none)
    (inits : (w.pc tid).inits = none) (popped : w.popFree tid page = some after) : Inv after := by
  unfold World.popFree at popped
  split at popped
  · cases popped
  · rename_i ptr rest here
    cases popped
    refine inv.quiet rfl rfl rfl rfl rfl ?_ rfl claims.symm hands.symm inits.symm
      (fun _ _ _ held => held)
      (inv.notices rfl (fun p _ sees => (silent p _ sees).elim) fun p blocks => ?_) trivial
    · funext s
      cases s <;> rfl
    · by_cases self : p = page
      · left
        rw [self, here]
        exact List.cons_ne_nil _ _
      · simp only [World.goto, World.setFreeList, Function.update_of_ne self] at blocks
        exact blocks

theorem Inv.crossMove {c page : Nat} (pc : w.pc tid = .crossMove c page) :
    Inv (((w.setFreeList page (w.crossThreadFreeList page)).setCross page []).goto tid
      (.crossUnlock c page)) := by
  refine inv.quiet rfl rfl rfl rfl rfl ?_ rfl (by rw [pc]; rfl) (by rw [pc]; rfl) (by rw [pc]; rfl)
    (fun _ _ _ held => held)
    (inv.notices rfl (fun p _ sees => by rw [pc] at sees; exact sees) fun p blocks => ?_) trivial
  · funext s
    cases s <;> rfl
  · simp only [World.goto, World.setCross, World.setFreeList] at blocks
    by_cases self : p = page
    · rw [self, Function.update_self, Function.update_self] at blocks
      rw [self]
      exact .inr (blocks.resolve_right fun some_ => some_ rfl)
    · rw [Function.update_of_ne self, Function.update_of_ne self] at blocks
      exact blocks

-- A free pushes its block, and will look at isFull next.
theorem Inv.pushed {page : Nat} (pc : after.pc = Function.update w.pc tid next)
    (rest : after.spot = w.spot ∧ after.isFull = w.isFull ∧ after.ownerTid = w.ownerTid ∧
      after.numAllocatedPages = w.numAllocatedPages ∧ after.listed = w.listed ∧
      after.nonFullPageLists = w.nonFullPageLists ∧ after.fullPageListLock = w.fullPageListLock)
    (lists : ∀ p, p ≠ page → after.freeList p = w.freeList p ∧
      after.crossThreadFreeList p = w.crossThreadFreeList p)
    (looks : ∀ v, next.Notices page v) (silent : ∀ p v, ¬ (w.pc tid).Notices p v)
    (claims : next.claims = (w.pc tid).claims) (hands : next.hands = (w.pc tid).hands)
    (inits : next.inits = (w.pc tid).inits) (ok : next.Ok after tid) : Inv after := by
  obtain ⟨spot, isFull, owner, num, listed, nonFull, lock⟩ := rest
  refine inv.quiet pc spot isFull owner num listed nonFull claims hands inits
    (fun _ _ _ held => by rw [lock]; exact held) (fun p odd blocks => ?_) ok
  by_cases self : p = page
  · exact ⟨tid, by rw [pc_own pc, self]; exact looks _⟩
  · rw [(lists p self).1, (lists p self).2] at blocks
    obtain ⟨u, sees⟩ := inv.notice p odd blocks
    have apart : u ≠ tid := fun same => silent p _ (by rw [← same]; exact sees)
    exact ⟨u, by rw [pc_other pc apart]; exact sees⟩

omit [DecidableEq T] in
-- Another thread that claims the page means that it is on the full list, or about to be.
theorem Inv.unclaimed {u : T} {page : Nat} (claims : (w.pc u).claims = some page)
    (apart : ∀ o, w.spot page ≠ .full o ∧ w.spot page ≠ .filled o) : False := by
  obtain ⟨o, -, -, here⟩ := inv.claimed claims
  rcases here with full | filled
  · exact (apart o).1 full
  · exact (apart o).2 filled

omit [DecidableEq T] in
theorem Inv.handed {page : Nat} {t : T} (owned : w.ownerTid page = some t) :
    page < w.numAllocatedPages := by
  by_contra high
  have := inv.num page (by omega)
  rw [this] at owned
  cases owned

omit [DecidableEq T] in
theorem Inv.not_inits {page : Nat} {t u : T} (owned : w.ownerTid page = some t) :
    (w.pc u).inits ≠ some page := by
  intro initing
  have ok := inv.threads u
  cases pc : w.pc u with
  | initPage c p =>
      rw [pc] at ok initing
      cases initing
      cases ok.2.2.symm.trans owned
  | _ =>
      rw [pc] at initing
      cases initing

-- A page goes to another place and keeps its isFull, its owner and its blocks.
theorem Inv.relocate {page : Nat} {spot' : Spot T} {o : T}
    (pc : after.pc = Function.update w.pc tid next)
    (spot : after.spot = Function.update w.spot page spot') (owned : w.ownerTid page = some o)
    (listed : ∀ s : Spot T, s.Listed → after.listed s = if s = spot' then page :: w.listed s
      else (w.listed s).erase page)
    (same : after.numAllocatedPages = w.numAllocatedPages ∧ after.isFull = w.isFull ∧
      after.ownerTid = w.ownerTid ∧ after.fullPageListLock = w.fullPageListLock ∧ after.freeList =
      w.freeList ∧ after.crossThreadFreeList = w.crossThreadFreeList)
    (placed : spot' ≠ .fresh) (left : w.spot page ≠ spot')
    (home : ∀ t, spot'.home = some t → t = o) (even : spot'.Even → w.isFull page % 2 = 0)
    (odd : ∀ t, spot' = .full t ∨ spot' = .filled t → w.isFull page % 2 = 1 ∨
      ∃ u, (after.pc u).claims = some page)
    (from_ : ∀ t, (w.spot page).holder = some t → t = tid)
    (into : ∀ t, spot'.holder = some t → t = tid ∧ next.hands = some page)
    (hands : ∀ p, (w.pc tid).hands = some p → p = page)
    (claims : ∀ p, (w.pc tid).claims = some p → p = page) (free_ : next.claims = none)
    (inits : next.inits = none)
    (claimed : ∀ u o, u ≠ tid → (w.pc u).claims = some page → w.Claimed page o →
      after.Claimed page o)
    (nonFull : ∀ u, u ≠ tid → after.nonFullPageLists u = w.nonFullPageLists u)
    (quiet : ∀ p v, ¬ (w.pc tid).Notices p v) (ok : next.Ok after tid) : Inv after := by
  obtain ⟨num, isFull, owner, lock, freeList, cross⟩ := same
  refine inv.shift pc spot listed (fun s => after.unlisted) num (fun _ _ => by rw [isFull])
    (fun _ _ => by rw [owner]) (fun _ here => by rw [owner]; exact here)
    (inv.handed owned) (by rw [owner, owned]; exact Option.some_ne_none _) placed left
    (fun t here => ?_) (fun here => by rw [isFull]; exact even here)
    (fun t either => by rw [isFull]; exact odd t either) from_ into hands claims free_ inits
    (fun _ _ => inv.not_inits owned) claimed nonFull lock quiet
    (fun _ _ => by rw [freeList, cross]; exact ⟨rfl, rfl⟩) ?_ ok
  · rw [owner, home t here]
    exact owned
  · rw [isFull, freeList, cross]
    intro high blocks
    obtain ⟨u, sees⟩ := inv.notice page high blocks
    have apart : u ≠ tid := fun self => quiet page _ (by rw [← self]; exact sees)
    exact ⟨u, by rw [pc_other pc apart]; exact sees⟩

theorem Inv.advance {c page : Nat} {rest : List Nat} (pc : w.pc tid = .advance c)
    (here : w.nonFullPageLists tid c = page :: rest) :
    Inv (((w.setNonFull tid c rest).setSpot page (.filling tid)).goto tid (.fullLock c page)) := by
  have place : w.spot page = .nonFull tid c :=
    (inv.listed (.nonFull tid c) trivial page).mp
    (by rw [World.listed, here]; exact List.mem_cons_self)
  refine inv.relocate rfl rfl (inv.home page tid (by rw [place]; rfl)) (fun s is_ => ?_)
    ⟨rfl, rfl, rfl, rfl, rfl, rfl⟩ (by simp) (by rw [place]; simp)
    (fun t same => (Option.some.inj same).symm) (fun _ => inv.even page (by rw [place]; trivial))
    (fun t either => ?_) (fun t same => ?_)
    (fun t same => ⟨(Option.some.inj same).symm, rfl⟩) (fun p same => ?_) (fun p same => ?_) rfl rfl
    (fun u o _ claims => ?_)
    (fun u apart => Function.update_of_ne apart _ _) (fun p v sees => ?_)
    (Function.update_self _ _ _)
  · have lists := w.listed_setNonFull tid c rest s
    have whole : (((w.setNonFull tid c rest).setSpot page (.filling tid)).goto tid
      (.fullLock c page)).listed s = (w.setNonFull tid c rest).listed s := by
      cases s <;> rfl
    have apart : s ≠ .filling tid := by
      rintro rfl
      exact is_
    rw [whole, lists, if_neg apart]
    by_cases first : s = .nonFull tid c
    · rw [if_pos first, first, World.listed, here, List.erase_cons_head]
    · rw [if_neg first, inv.erase_elsewhere is_ (by rw [place]; exact fun same => first same.symm)]
  · rcases either with absurd_ | absurd_ <;> cases absurd_
  · rw [place] at same
    cases same
  · rw [pc] at same
    cases same
  · rw [pc] at same
    cases same
  · exact (inv.unclaimed claims fun o => by rw [place]; simp).elim
  · rw [pc] at sees
    exact sees

theorem Inv.pushFull {c page : Nat} (pc : w.pc tid = .pushFull c page) :
    Inv (((w.setFullList tid (page :: w.fullPageList tid)).setSpot page (.full tid)).goto tid
      (.fullUnlock c)) := by
  have ok := inv.threads tid
  rw [pc] at ok
  obtain ⟨place, lock⟩ := ok
  have owned := inv.home page tid (by rw [place]; rfl)
  have pcs : (((w.setFullList tid (page :: w.fullPageList tid)).setSpot page (.full tid)).goto tid
    (.fullUnlock c)).pc = Function.update w.pc tid (.fullUnlock c) := rfl
  refine inv.relocate pcs rfl owned (fun s is_ => ?_) ⟨rfl, rfl, rfl, rfl, rfl, rfl⟩ (by simp)
    (by rw [place]; simp)
    (fun t same => (Option.some.inj same).symm) (fun absurd_ => absurd_.elim) (fun t either => ?_)
    (fun t same => ?_) (fun t same => ?_) (fun p same => ?_)
    (fun p same => ?_) rfl rfl (fun u o _ claims claimed => ?_) (fun _ _ => rfl)
    (fun p v sees => ?_) lock
  · have lists := w.listed_setFullList tid (page :: w.fullPageList tid) s
    have whole : (((w.setFullList tid (page :: w.fullPageList tid)).setSpot page (.full tid)).goto
      tid (.fullUnlock c)).listed s =
        (w.setFullList tid (page :: w.fullPageList tid)).listed s := by
      cases s <;> rfl
    rw [whole, lists]
    by_cases first : s = .full tid
    · rw [if_pos first, if_pos first, first]
      rfl
    · rw [if_neg first, if_neg first, inv.erase_elsewhere is_]
      rw [place]
      rintro rfl
      exact is_
  · refine (inv.odd page tid (.inr place)).imp_right ?_
    rintro ⟨u, claims⟩
    have apart : u ≠ tid := by
      rintro rfl
      rw [pc] at claims
      cases claims
    exact ⟨u, by rw [pc_other pcs apart]; exact claims⟩
  · rw [place] at same
    exact (Option.some.inj same).symm
  · cases same
  · rw [pc] at same
    exact (Option.some.inj same).symm
  · rw [pc] at same
    cases same
  · obtain ⟨even, owns, -⟩ := claimed
    cases owns.symm.trans owned
    exact ⟨even, owns, .inl (Function.update_self _ _ _)⟩
  · rw [pc] at sees
    exact sees

theorem Inv.unlink {page : Nat} {o : T} (pc : w.pc tid = .unlink page o) :
    Inv (((w.setFullList o ((w.fullPageList o).erase page)).setSpot page (.moving tid)).goto tid
      (if o = tid then .pushNonFull page o else .lockRecheck page o)) := by
  have ok := inv.threads tid
  rw [pc] at ok
  obtain ⟨⟨even, owned, either⟩, lock⟩ := ok
  -- The owner has left the lock, so the page is on the list.
  have place : w.spot page = .full o := by
    refine either.resolve_right fun filled => ?_
    have held := inv.hands page o (by rw [filled]; rfl)
    have theirs := inv.threads o
    cases there : w.pc o with
    | pushFull c p =>
        rw [there] at theirs
        cases theirs.2.symm.trans lock
        rw [pc] at there
        cases there
    | fullLock c p =>
        rw [there] at theirs held
        cases held
        cases filled.symm.trans theirs
    | loadFull c p | storeFull c p v | pushNonFull p o' | lockRecheck p o' | pushRecheck p o' =>
        rw [there] at theirs held
        cases held
        cases filled.symm.trans theirs.1
    | _ =>
        rw [there] at held
        cases held
  have role : (if o = tid then Pc.pushNonFull page o else .lockRecheck page o).hands = some page ∧
      (if o = tid then Pc.pushNonFull page o else .lockRecheck page o).claims = none ∧
      (if o = tid then Pc.pushNonFull page o else .lockRecheck page o).inits = none := by
    split
    · exact ⟨rfl, rfl, rfl⟩
    · exact ⟨rfl, rfl, rfl⟩
  refine inv.relocate rfl rfl owned (fun s is_ => ?_) ⟨rfl, rfl, rfl, rfl, rfl, rfl⟩ (by simp)
    (by rw [place]; simp) (fun t same => ?_) (fun _ => even)
    (fun t either => ?_) (fun t same => ?_) (fun t same => ⟨(Option.some.inj same).symm, role.1⟩)
    (fun p same => ?_) (fun p same => ?_) role.2.1 role.2.2
    (fun u o' apart claims => ?_) (fun _ _ => rfl) (fun p v sees => ?_) ?_
  · have lists := w.listed_setFullList o ((w.fullPageList o).erase page) s
    have whole : (((w.setFullList o ((w.fullPageList o).erase page)).setSpot page
      (.moving tid)).goto tid
        (if o = tid then .pushNonFull page o else .lockRecheck page o)).listed
          s = (w.setFullList o ((w.fullPageList o).erase page)).listed s := by
      cases s <;> rfl
    have apart : s ≠ .moving tid := by
      rintro rfl
      exact is_
    rw [whole, lists, if_neg apart]
    by_cases first : s = .full o
    · rw [if_pos first, first]
      rfl
    · rw [if_neg first, inv.erase_elsewhere is_ (by rw [place]; exact fun same => first same.symm)]
  · cases same
  · rcases either with absurd_ | absurd_ <;> cases absurd_
  · rw [place] at same
    cases same
  · rw [pc] at same
    cases same
  · rw [pc] at same
    exact (Option.some.inj same).symm
  · exact (apart (inv.single u tid page claims (by rw [pc]; rfl))).elim
  · rw [pc] at sees
    exact sees
  · split
    · rename_i self
      exact ⟨Function.update_self _ _ _, owned, self, lock⟩
    · exact ⟨Function.update_self _ _ _, owned, lock⟩

theorem Inv.pushNonFull {page : Nat} {o : T} (pc : w.pc tid = .pushNonFull page o) :
    Inv
      (((w.setNonFull tid (w.sizeClassPow2 page)
      (page :: w.nonFullPageLists tid (w.sizeClassPow2 page))).setSpot page
      (.nonFull tid (w.sizeClassPow2 page))).goto tid (.unlockFull o)) := by
  have ok := inv.threads tid
  rw [pc] at ok
  obtain ⟨place, owned, self, lock⟩ := ok
  generalize w.sizeClassPow2 page = c
  refine inv.relocate rfl rfl owned (fun s is_ => ?_) ⟨rfl, rfl, rfl, rfl, rfl, rfl⟩ (by simp)
    (by rw [place]; simp)
    (fun t same => (Option.some.inj same).symm.trans self.symm)
    (fun _ => inv.even page (by rw [place]; trivial)) (fun t either => ?_) (fun t same => ?_)
    (fun t same => ?_)
    (fun p same => ?_) (fun p same => ?_) rfl rfl (fun u o' _ claims => ?_)
    (fun u apart => Function.update_of_ne apart _ _) (fun p v sees => ?_) lock
  · have lists := w.listed_setNonFull tid c (page :: w.nonFullPageLists tid c) s
    have whole : (((w.setNonFull tid c (page :: w.nonFullPageLists tid c)).setSpot page
      (.nonFull tid c)).goto tid (.unlockFull o)).listed s =
        (w.setNonFull tid c (page :: w.nonFullPageLists tid c)).listed s := by
      cases s <;> rfl
    rw [whole, lists]
    by_cases first : s = .nonFull tid c
    · rw [if_pos first, if_pos first, first]
      rfl
    · rw [if_neg first, if_neg first, inv.erase_elsewhere is_]
      rw [place]
      rintro rfl
      exact is_
  · rcases either with absurd_ | absurd_ <;> cases absurd_
  · rw [place] at same
    exact (Option.some.inj same).symm
  · cases same
  · rw [pc] at same
    exact (Option.some.inj same).symm
  · rw [pc] at same
    cases same
  · exact (inv.unclaimed claims fun o => by rw [place]; simp).elim
  · rw [pc] at sees
    exact sees

theorem Inv.pushRecheck {page : Nat} {o : T} (pc : w.pc tid = .pushRecheck page o) :
    Inv
      (((w.setRecheck o (w.sizeClassPow2 page)
      (page :: w.recheckPageLists o (w.sizeClassPow2 page))).setSpot page
      (.recheck o (w.sizeClassPow2 page))).goto tid (.unlockRecheck o)) := by
  have ok := inv.threads tid
  rw [pc] at ok
  obtain ⟨place, owned, lock⟩ := ok
  generalize w.sizeClassPow2 page = c
  refine inv.relocate rfl rfl owned (fun s is_ => ?_) ⟨rfl, rfl, rfl, rfl, rfl, rfl⟩ (by simp)
    (by rw [place]; simp)
    (fun t same => (Option.some.inj same).symm) (fun _ => inv.even page (by rw [place]; trivial))
    (fun t either => ?_) (fun t same => ?_) (fun t same => ?_)
    (fun p same => ?_) (fun p same => ?_) rfl rfl (fun u o' _ claims => ?_) (fun _ _ => rfl)
    (fun p v sees => ?_) lock
  · have lists := w.listed_setRecheck o c (page :: w.recheckPageLists o c) s
    have whole : (((w.setRecheck o c (page :: w.recheckPageLists o c)).setSpot page
      (.recheck o c)).goto tid (.unlockRecheck o)).listed s =
        (w.setRecheck o c (page :: w.recheckPageLists o c)).listed s := by
      cases s <;> rfl
    rw [whole, lists]
    by_cases first : s = .recheck o c
    · rw [if_pos first, if_pos first, first]
      rfl
    · rw [if_neg first, if_neg first, inv.erase_elsewhere is_]
      rw [place]
      rintro rfl
      exact is_
  · rcases either with absurd_ | absurd_ <;> cases absurd_
  · rw [place] at same
    exact (Option.some.inj same).symm
  · cases same
  · rw [pc] at same
    exact (Option.some.inj same).symm
  · rw [pc] at same
    cases same
  · exact (inv.unclaimed claims fun o => by rw [place]; simp).elim
  · rw [pc] at sees
    exact sees

/-- The owner raises isFull of a page whose lists are both empty. -/
theorem Inv.storeFull {c page isFull : Nat} (pc : w.pc tid = .storeFull c page isFull)
    (empty : w.freeList page = [] ∧ w.crossThreadFreeList page = []) :
    Inv (((w.setIsFull page (isFull + 1)).setSpot page (.filled tid)).goto tid
      (.pushFull c page)) := by
  have ok := inv.threads tid
  rw [pc] at ok
  obtain ⟨place, lock, same⟩ := ok
  have owned := inv.home page tid (by rw [place]; rfl)
  have even := inv.even page (by rw [place]; trivial)
  have now : (((w.setIsFull page (isFull + 1)).setSpot page (.filled tid)).goto tid
    (.pushFull c page)).isFull page = isFull + 1 := Function.update_self _ _ _
  refine inv.shift rfl rfl (fun s is_ => ?_) (fun s => World.unlisted _) rfl
    (fun p other => Function.update_of_ne other _ _) (fun _ _ => rfl) (fun _ here => here)
    (inv.handed owned) ?_ (by simp) (by rw [place]; simp) (fun t here => ?_)
    (fun absurd_ => absurd_.elim) (fun t _ => .inl ?_) (fun t here => ?_)
    (fun t here => ⟨(Option.some.inj here).symm, rfl⟩) (fun p here => ?_) (fun p here => ?_) rfl rfl
    (fun _ _ => inv.not_inits owned)
    (fun u o _ claims => ?_) (fun _ _ => rfl) rfl (fun p v sees => ?_) (fun _ _ => ⟨rfl, rfl⟩)
    (fun _ blocks => ?_) ⟨Function.update_self _ _ _, lock⟩
  · have whole : (((w.setIsFull page (isFull + 1)).setSpot page (.filled tid)).goto tid
      (.pushFull c page)).listed s = w.listed s := by
      cases s <;> rfl
    have apart : s ≠ .filled tid := by
      rintro rfl
      exact is_
    rw [whole, if_neg apart, inv.erase_elsewhere is_]
    rw [place]
    rintro rfl
    exact is_
  · show w.ownerTid page ≠ none
    rw [owned]
    exact Option.some_ne_none _
  · cases here
    exact owned
  · rw [now]
    omega
  · rw [place] at here
    exact (Option.some.inj here).symm
  · rw [pc] at here
    exact (Option.some.inj here).symm
  · rw [pc] at here
    cases here
  · exact (inv.unclaimed claims fun o => by rw [place]; simp).elim
  · rw [pc] at sees
    exact sees
  · rcases blocks with some_ | some_
    · exact (some_ empty.1).elim
    · exact (some_ empty.2).elim

theorem Inv.initPage {c page : Nat} (pc : w.pc tid = .initPage c page) :
    Inv ((({ w with
      ownerTid := Function.update w.ownerTid page (some tid)
      sizeClassPow2 := Function.update w.sizeClassPow2 page c }.setIsFull page 0).setCross page
        [] |>.setFreeList page (resetMemoryPage page (2 ^ c))
        |>.setNonFull tid c [page] |>.setSpot page (.nonFull tid c)).goto tid (.tryAlloc c)) := by
  have ok := inv.threads tid
  rw [pc] at ok
  obtain ⟨empty, handed, unowned⟩ := ok
  have place := (inv.fresh page).mpr unowned
  have mine : Function.update w.ownerTid page (some tid) page = some tid :=
    Function.update_self _ _ _
  refine inv.shift rfl rfl (fun s is_ => ?_) (fun s => World.unlisted _) rfl
    (fun p other => Function.update_of_ne other _ _)
    (fun p other => Function.update_of_ne other _ _) (fun o here => ?_) handed ?_ (by simp)
    (by rw [place]; simp) (fun t here => ?_)
    (fun _ => ?_) (fun t either => ?_) (fun t here => ?_) (fun t here => ?_) (fun p here => ?_)
    (fun p here => ?_) rfl rfl (fun u apart initing => ?_)
    (fun u o _ claims => ?_) (fun u apart => Function.update_of_ne apart _ _) rfl
    (fun p v sees => ?_) (fun p other => ⟨?_, ?_⟩) (fun odd => ?_) trivial
  · have lists := w.listed_setNonFull tid c [page] s
    have whole : ((({ w with
      ownerTid := Function.update w.ownerTid page (some tid)
      sizeClassPow2 := Function.update w.sizeClassPow2 page c }.setIsFull page 0).setCross page
        [] |>.setFreeList page (resetMemoryPage page (2 ^ c))
        |>.setNonFull tid c [page] |>.setSpot page (.nonFull tid c)).goto tid (.tryAlloc c)).listed
          s = (w.setNonFull tid c [page]).listed s := by
      cases s <;> rfl
    rw [whole, lists]
    by_cases first : s = .nonFull tid c
    · rw [if_pos first, if_pos first, first, World.listed, empty]
    · rw [if_neg first, if_neg first, inv.erase_elsewhere is_]
      rw [place]
      rintro rfl
      exact is_
  · cases unowned.symm.trans here
  · exact fun none_ => by cases mine.symm.trans none_
  · cases here
    exact mine
  · show Function.update w.isFull page 0 page % 2 = 0
    rw [Function.update_self]
  · rcases either with absurd_ | absurd_ <;> cases absurd_
  · rw [place] at here
    cases here
  · cases here
  · rw [pc] at here
    cases here
  · rw [pc] at here
    cases here
  · exact apart (inv.apart u tid page initing (by rw [pc]; rfl))
  · exact (inv.unclaimed claims fun o => by rw [place]; simp).elim
  · rw [pc] at sees
    exact sees
  · exact Function.update_of_ne other _ _
  · exact Function.update_of_ne other _ _
  · have zero : Function.update w.isFull page 0 page = 0 := Function.update_self _ _ _
    exact absurd (show Function.update w.isFull page 0 page % 2 = 1 from odd) (by rw [zero]; decide)

-- A step on the lock of a crossThreadFreeList or of the recheck lists.
theorem Inv.unshared {before : World T} (silent : ∀ p v, ¬ (w.pc tid).Notices p v)
    (same : before.pc = w.pc ∧ before.spot = w.spot ∧ before.isFull = w.isFull ∧
      before.ownerTid = w.ownerTid ∧ before.numAllocatedPages = w.numAllocatedPages ∧
      before.listed = w.listed ∧ before.nonFullPageLists = w.nonFullPageLists ∧
      before.fullPageListLock = w.fullPageListLock ∧ before.freeList = w.freeList ∧
      before.crossThreadFreeList = w.crossThreadFreeList)
    (claims : next.claims = (w.pc tid).claims) (hands : next.hands = (w.pc tid).hands)
    (inits : next.inits = (w.pc tid).inits) (ok : next.Ok (before.goto tid next) tid) :
    Inv (before.goto tid next) := by
  obtain ⟨pc, spot, isFull, owner, num, listed, nonFull, lock, freeList, cross⟩ := same
  have pcs : (before.goto tid next).pc = Function.update w.pc tid next := by rw [← pc]; rfl
  refine inv.quiet pcs spot isFull owner num ?_ nonFull claims hands inits (fun u o _ held => ?_)
    (inv.notices pcs (fun p _ sees => (silent p _ sees).elim) fun p blocks => ?_) ok
  · rw [← listed]
    funext s
    cases s <;> rfl
  · show before.fullPageListLock o = some u
    rw [lock]
    exact held
  · rw [← freeList, ← cross]
    exact blocks

/-- When the owner raises isFull of a page, no free has pushed onto the page since the owner found
both of its lists empty. -/
def NotPushedMeanwhile (w : World T) : Event T → Prop
  | .move tid =>
      match w.pc tid with
      | .storeFull _ page _ => w.freeList page = [] ∧ w.crossThreadFreeList page = []
      | _ => True
  | _ => True

omit inv in
instance (w : World T) (event : Event T) : Decidable (NotPushedMeanwhile w event) := by
  unfold NotPushedMeanwhile
  split
  · split <;> infer_instance
  · infer_instance

theorem Inv.alloc (kept : NotPushedMeanwhile w (.move tid))
    (moved : allocMove w tid (w.pc tid) = some after) : Inv after := by
  have ok := inv.threads tid
  cases pc : w.pc tid with
  | tryAlloc c =>
      simp only [pc, allocMove] at moved
      split at moved
      · rename_i empty
        cases moved
        exact inv.goto (by rw [pc]; rfl) (by rw [pc]; rfl) (by rw [pc]; rfl)
          (fun p _ sees => by rw [pc] at sees; exact sees.elim) empty
      · split at moved
        · cases moved
          exact inv.goto (by rw [pc]; rfl) (by rw [pc]; rfl) (by rw [pc]; rfl)
            (fun p _ sees => by rw [pc] at sees; exact sees.elim) trivial
        · exact inv.popFree (fun p v sees => by rw [pc] at sees; exact sees) (by rw [pc]; rfl)
            (by rw [pc]; rfl) (by rw [pc]; rfl) moved
  | crossTest c page =>
      simp only [pc, allocMove] at moved
      split at moved
      · cases moved
        exact inv.goto (by rw [pc]; rfl) (by rw [pc]; rfl) (by rw [pc]; rfl)
          (fun p _ sees => by rw [pc] at sees; exact sees.elim) trivial
      · cases moved
        exact inv.goto (by rw [pc]; rfl) (by rw [pc]; rfl) (by rw [pc]; rfl)
          (fun p _ sees => by rw [pc] at sees; exact sees.elim) trivial
  | crossLock c page =>
      simp only [pc, allocMove] at moved
      obtain ⟨-, ⟨⟩⟩ := Option.ite_none_left_eq_some.mp moved
      exact inv.unshared (fun p v sees => by rw [pc] at sees; exact sees) ⟨rfl, rfl, rfl, rfl, rfl,
        rfl, rfl, rfl, rfl, rfl⟩ (by rw [pc]; rfl)
        (by rw [pc]; rfl) (by rw [pc]; rfl)
        trivial
  | crossMove c page =>
      simp only [pc, allocMove] at moved
      cases moved
      exact inv.crossMove pc
  | crossUnlock c page =>
      simp only [pc, allocMove] at moved
      cases moved
      exact inv.unshared (fun p v sees => by rw [pc] at sees; exact sees) ⟨rfl, rfl, rfl, rfl, rfl,
        rfl, rfl, rfl, rfl, rfl⟩ (by rw [pc]; rfl)
        (by rw [pc]; rfl) (by rw [pc]; rfl)
        trivial
  | pop page =>
      simp only [pc, allocMove] at moved
      exact inv.popFree (fun p v sees => by rw [pc] at sees; exact sees) (by rw [pc]; rfl)
        (by rw [pc]; rfl) (by rw [pc]; rfl) moved
  | advance c =>
      simp only [pc, allocMove] at moved
      split at moved
      · rename_i empty
        cases moved
        exact inv.goto (by rw [pc]; rfl) (by rw [pc]; rfl) (by rw [pc]; rfl)
          (fun p _ sees => by rw [pc] at sees; exact sees.elim) empty
      · rename_i page rest here
        cases moved
        exact inv.advance pc here
  | fullLock c page =>
      simp only [pc, allocMove] at moved
      rw [pc] at ok
      split at moved
      · cases moved
      · rename_i unheld
        cases moved
        exact inv.setFullLock (fun u held => by cases unheld.symm.trans held) (by rw [pc]; rfl)
          (by rw [pc]; rfl) (by rw [pc]; rfl)
          (fun p v sees => by rw [pc] at sees; exact sees) ⟨ok, Function.update_self _ _ _⟩
  | loadFull c page =>
      simp only [pc, allocMove] at moved
      rw [pc] at ok
      cases moved
      exact inv.goto (by rw [pc]; rfl) (by rw [pc]; rfl) (by rw [pc]; rfl)
        (fun p _ sees => by rw [pc] at sees; exact sees.elim) ⟨ok.1, ok.2, rfl⟩
  | storeFull c page isFull =>
      simp only [pc, allocMove] at moved
      simp only [NotPushedMeanwhile, pc] at kept
      cases moved
      exact inv.storeFull pc kept
  | pushFull c page =>
      simp only [pc, allocMove] at moved
      cases moved
      exact inv.pushFull pc
  | fullUnlock c =>
      simp only [pc, allocMove] at moved
      rw [pc] at ok
      cases moved
      have lock (u : T) (held : w.fullPageListLock tid = some u) : u = tid :=
        Option.some.inj (held.symm.trans ok)
      split
      · rename_i empty
        exact inv.setFullLock lock (by rw [pc]; rfl) (by rw [pc]; rfl) (by rw [pc]; rfl)
          (fun p v sees => by rw [pc] at sees; exact sees) empty
      · exact inv.setFullLock lock (by rw [pc]; rfl) (by rw [pc]; rfl) (by rw [pc]; rfl)
          (fun p v sees => by rw [pc] at sees; exact sees) trivial
  | recheckTest c =>
      simp only [pc, allocMove] at moved
      rw [pc] at ok
      cases moved
      split
      · exact inv.goto (by rw [pc]; rfl) (by rw [pc]; rfl) (by rw [pc]; rfl)
          (fun p _ sees => by rw [pc] at sees; exact sees.elim) ok
      · exact inv.goto (by rw [pc]; rfl) (by rw [pc]; rfl) (by rw [pc]; rfl)
          (fun p _ sees => by rw [pc] at sees; exact sees.elim) ok
  | recheckLock c =>
      simp only [pc, allocMove] at moved
      rw [pc] at ok
      obtain ⟨-, ⟨⟩⟩ := Option.ite_none_left_eq_some.mp moved
      exact inv.unshared (fun p v sees => by rw [pc] at sees; exact sees) ⟨rfl, rfl, rfl, rfl, rfl,
        rfl, rfl, rfl, rfl, rfl⟩ (by rw [pc]; rfl)
        (by rw [pc]; rfl) (by rw [pc]; rfl)
        ok
  | recheckTake c =>
      simp only [pc, allocMove] at moved
      cases moved
      exact inv.recheckTake pc
  | recheckUnlock c =>
      simp only [pc, allocMove] at moved
      cases moved
      exact inv.unshared (fun p v sees => by rw [pc] at sees; exact sees) ⟨rfl, rfl, rfl, rfl, rfl,
        rfl, rfl, rfl, rfl, rfl⟩ (by rw [pc]; rfl)
        (by rw [pc]; rfl) (by rw [pc]; rfl)
        trivial
  | newPage c =>
      simp only [pc, allocMove] at moved
      cases moved
      exact inv.newPage pc
  | initPage c page =>
      simp only [pc, allocMove] at moved
      cases moved
      exact inv.initPage pc
  | _ =>
      simp only [pc, allocMove] at moved
      cases moved

theorem Inv.free (moved : freeMove w tid (w.pc tid) = some after) : Inv after := by
  have ok := inv.threads tid
  cases pc : w.pc tid with
  | ownFree obj o =>
      simp only [pc, freeMove] at moved
      rw [pc] at ok
      cases moved
      refine inv.pushed rfl ⟨rfl, rfl, rfl, rfl, ?_, rfl, rfl⟩
        (fun p other => ⟨Function.update_of_ne other _ _, rfl⟩) (fun _ => rfl)
        (fun p v sees => by rw [pc] at sees; exact sees) (by rw [pc]; rfl) (by rw [pc]; rfl)
        (by rw [pc]; rfl) ok
      funext s
      cases s <;> rfl
  | crossFreeLock obj o =>
      simp only [pc, freeMove] at moved
      rw [pc] at ok
      obtain ⟨-, ⟨⟩⟩ := Option.ite_none_left_eq_some.mp moved
      exact inv.unshared (fun p v sees => by rw [pc] at sees; exact sees) ⟨rfl, rfl, rfl, rfl, rfl,
        rfl, rfl, rfl, rfl, rfl⟩ (by rw [pc]; rfl)
        (by rw [pc]; rfl) (by rw [pc]; rfl)
        ok
  | crossFree obj o =>
      simp only [pc, freeMove] at moved
      rw [pc] at ok
      cases moved
      refine inv.pushed rfl ⟨rfl, rfl, rfl, rfl, ?_, rfl, rfl⟩
        (fun p other => ⟨rfl, Function.update_of_ne other _ _⟩) (fun _ => rfl)
        (fun p v sees => by rw [pc] at sees; exact sees) (by rw [pc]; rfl) (by rw [pc]; rfl)
        (by rw [pc]; rfl) ok
      funext s
      cases s <;> rfl
  | crossFreeUnlock page o =>
      simp only [pc, freeMove] at moved
      rw [pc] at ok
      cases moved
      refine inv.quiet rfl rfl rfl rfl rfl ?_ rfl (by rw [pc]; rfl) (by rw [pc]; rfl)
        (by rw [pc]; rfl) (fun _ _ _ held => held)
        (inv.notices rfl (fun p _ sees => by rw [pc] at sees; exact sees) fun _ blocks => blocks) ok
      funext s
      cases s <;> rfl
  | readFull page o =>
      simp only [pc, freeMove] at moved
      rw [pc] at ok
      cases moved
      split
      · rename_i odd
        refine inv.goto (by rw [pc]; rfl) (by rw [pc]; rfl) (by rw [pc]; rfl) (fun p _ sees => ?_)
          ⟨ok, odd⟩
        rw [pc] at sees
        exact ⟨sees, by rw [show page = p from sees]⟩
      · rename_i even
        refine inv.goto (by rw [pc]; rfl) (by rw [pc]; rfl) (by rw [pc]; rfl) (fun p odd sees => ?_)
          trivial
        rw [pc] at sees
        exact (even (by rw [show page = p from sees]; exact odd)).elim
  | casFull page o isFull =>
      simp only [pc, freeMove] at moved
      split at moved
      · rename_i same
        cases moved
        exact inv.cas pc same
      · rename_i changed
        cases moved
        refine inv.goto (by rw [pc]; rfl) (by rw [pc]; rfl) (by rw [pc]; rfl) (fun p odd sees => ?_)
          trivial
        rw [pc] at sees
        exact (changed (by rw [show page = p from sees.1]; exact sees.2.symm)).elim
  | lockFull page o =>
      simp only [pc, freeMove] at moved
      rw [pc] at ok
      split at moved
      · cases moved
      · rename_i unheld
        cases moved
        exact inv.setFullLock (fun u held => by cases unheld.symm.trans held) (by rw [pc]; rfl)
          (by rw [pc]; rfl) (by rw [pc]; rfl)
          (fun p v sees => by rw [pc] at sees; exact sees) ⟨ok, Function.update_self _ _ _⟩
  | testFull page o =>
      simp only [pc, freeMove] at moved
      rw [pc] at ok
      -- The free itself has made isFull even.
      rw [if_neg (by rw [ok.1.1]; decide)] at moved
      cases moved
      exact inv.goto (by rw [pc]; rfl) (by rw [pc]; rfl) (by rw [pc]; rfl)
        (fun p _ sees => by rw [pc] at sees; exact sees.elim) ok
  | unlink page o =>
      simp only [pc, freeMove] at moved
      cases moved
      exact inv.unlink pc
  | pushNonFull page o =>
      simp only [pc, freeMove] at moved
      cases moved
      exact inv.pushNonFull pc
  | lockRecheck page o =>
      simp only [pc, freeMove] at moved
      rw [pc] at ok
      obtain ⟨-, ⟨⟩⟩ := Option.ite_none_left_eq_some.mp moved
      exact inv.unshared (fun p v sees => by rw [pc] at sees; exact sees) ⟨rfl, rfl, rfl, rfl, rfl,
        rfl, rfl, rfl, rfl, rfl⟩ (by rw [pc]; rfl)
        (by rw [pc]; rfl) (by rw [pc]; rfl)
        ok
  | pushRecheck page o =>
      simp only [pc, freeMove] at moved
      cases moved
      exact inv.pushRecheck pc
  | unlockRecheck o =>
      simp only [pc, freeMove] at moved
      rw [pc] at ok
      cases moved
      exact inv.unshared (fun p v sees => by rw [pc] at sees; exact sees) ⟨rfl, rfl, rfl, rfl, rfl,
        rfl, rfl, rfl, rfl, rfl⟩ (by rw [pc]; rfl)
        (by rw [pc]; rfl) (by rw [pc]; rfl)
        ok
  | unlockFull o =>
      simp only [pc, freeMove] at moved
      rw [pc] at ok
      cases moved
      exact inv.setFullLock (fun u held => Option.some.inj (held.symm.trans ok)) (by rw [pc]; rfl)
        (by rw [pc]; rfl) (by rw [pc]; rfl)
        (fun p v sees => by rw [pc] at sees; exact sees) trivial
  | _ =>
      simp only [pc, freeMove] at moved
      cases moved

end Steps

end SetBench.PmemAlloc
