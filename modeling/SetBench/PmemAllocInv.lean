import SetBench.PmemAlloc

/-! What the steps of PMEMAlloc keep: every page is at one place, isFull is even except on the way
to the full list and on it, and a free block of a page with odd isFull is one that a free has
just pushed. -/
namespace SetBench.PmemAlloc

open Transition

variable {T : Type}

def Spot.Listed : Spot T → Prop
  | .nonFull _ _ | .recheck _ _ | .full _ => True
  | .fresh | .filling _ | .filled _ | .moving _ => False

-- The owner of a page at this place.
def Spot.home : Spot T → Option T
  | .nonFull t _ | .recheck t _ | .full t | .filling t | .filled t => some t
  | .fresh | .moving _ => none

def Spot.Even : Spot T → Prop
  | .nonFull _ _ | .recheck _ _ | .filling _ | .moving _ => True
  | .fresh | .full _ | .filled _ => False

def Spot.holder : Spot T → Option T
  | .filling t | .filled t | .moving t => some t
  | .fresh | .nonFull _ _ | .recheck _ _ | .full _ => none

def World.listed (w : World T) : Spot T → List Nat
  | .nonFull t c => w.nonFullPageLists t c
  | .recheck t c => w.recheckPageLists t c
  | .full t => w.fullPageList t
  | .fresh | .filling _ | .filled _ | .moving _ => []

-- The page that a free has made even and not yet taken off the full list.
def Pc.claims : Pc T → Option Nat
  | .lockFull page _ | .testFull page _ | .unlink page _ => some page
  | _ => none

def Pc.hands : Pc T → Option Nat
  | .fullLock _ page | .loadFull _ page | .storeFull _ page _ | .pushFull _ page
  | .pushNonFull page _ | .lockRecheck page _ | .pushRecheck page _ => some page
  | _ => none

def Pc.inits : Pc T → Option Nat
  | .initPage _ page => some page
  | _ => none

-- The thread has pushed a block and will act on an odd isFull.
def Pc.Notices (page isFull : Nat) : Pc T → Prop
  | .crossFreeUnlock p _ | .readFull p _ => p = page
  | .casFull p _ v => p = page ∧ v = isFull
  | _ => False

def World.Claimed (w : World T) (page : Nat) (o : T) : Prop :=
  w.isFull page % 2 = 0 ∧ w.ownerTid page = some o ∧
    (w.spot page = .full o ∨ w.spot page = .filled o)

def Pc.Ok (w : World T) (t : T) : Pc T → Prop
  | .fullLock _ page => w.spot page = .filling t
  | .loadFull _ page => w.spot page = .filling t ∧ w.fullPageListLock t = some t
  | .storeFull _ page isFull =>
      w.spot page = .filling t ∧ w.fullPageListLock t = some t ∧ isFull = w.isFull page
  | .pushFull _ page => w.spot page = .filled t ∧ w.fullPageListLock t = some t
  | .fullUnlock _ => w.fullPageListLock t = some t
  | .recheckTest c | .recheckLock c | .recheckTake c | .newPage c => w.nonFullPageLists t c = []
  | .initPage c page =>
      w.nonFullPageLists t c = [] ∧ page < w.numAllocatedPages ∧ w.ownerTid page = none
  | .ownFree obj o | .crossFreeLock obj o | .crossFree obj o => w.ownerTid obj.page = some o
  | .crossFreeUnlock page o | .readFull page o => w.ownerTid page = some o
  | .casFull page o isFull => w.ownerTid page = some o ∧ isFull % 2 = 1
  | .lockFull page o => w.Claimed page o
  | .testFull page o | .unlink page o => w.Claimed page o ∧ w.fullPageListLock o = some t
  | .pushNonFull page o =>
      w.spot page = .moving t ∧ w.ownerTid page = some o ∧ o = t ∧ w.fullPageListLock o = some t
  | .lockRecheck page o | .pushRecheck page o =>
      w.spot page = .moving t ∧ w.ownerTid page = some o ∧ w.fullPageListLock o = some t
  | .unlockRecheck o | .unlockFull o => w.fullPageListLock o = some t
  | _ => True

structure Inv (w : World T) : Prop where
  num : ∀ p, w.numAllocatedPages ≤ p → w.ownerTid p = none
  fresh : ∀ p, w.spot p = .fresh ↔ w.ownerTid p = none
  listed : ∀ s : Spot T, s.Listed → ∀ p, p ∈ w.listed s ↔ w.spot p = s
  nodup : ∀ s, (w.listed s).Nodup
  home : ∀ p t, (w.spot p).home = some t → w.ownerTid p = some t
  even : ∀ p, (w.spot p).Even → w.isFull p % 2 = 0
  odd : ∀ p t, w.spot p = .full t ∨ w.spot p = .filled t → w.isFull p % 2 = 1 ∨
    ∃ u, (w.pc u).claims = some p
  hands : ∀ p t, (w.spot p).holder = some t → (w.pc t).hands = some p
  apart : ∀ u v p, (w.pc u).inits = some p → (w.pc v).inits = some p → u = v
  single : ∀ u v p, (w.pc u).claims = some p → (w.pc v).claims = some p → u = v
  notice : ∀ p, w.isFull p % 2 = 1 → w.freeList p ≠ [] ∨ w.crossThreadFreeList p ≠ [] →
    ∃ u, (w.pc u).Notices p (w.isFull p)
  threads : ∀ t, (w.pc t).Ok w t

/-- What the others leave to a thread `t`. -/
structure Frame (w after : World T) (t : T) : Prop where
  spot : ∀ p, (w.spot p).holder = some t → after.spot p = w.spot p
  isFull : ∀ p, w.spot p = .filling t → after.isFull p = w.isFull p
  owner : ∀ p o, w.ownerTid p = some o → after.ownerTid p = some o
  inits : ∀ p, (w.pc t).inits = some p → w.ownerTid p = none → after.ownerTid p = none
  num : w.numAllocatedPages ≤ after.numAllocatedPages
  nonFull : after.nonFullPageLists t = w.nonFullPageLists t
  lock : ∀ o, w.fullPageListLock o = some t → after.fullPageListLock o = some t
  claimed : ∀ p o, (w.pc t).claims = some p → w.Claimed p o → after.Claimed p o

theorem Frame.ok {w after : World T} {t : T} (frame : Frame w after t) (ok : (w.pc t).Ok w t) :
    (w.pc t).Ok after t := by
  have spot {p : Nat} {s : Spot T} (here : w.spot p = s) (held : s.holder = some t) :
    after.spot p = s :=
    (frame.spot p (by rw [here]; exact held)).trans here
  have claimed := frame.claimed
  have inits := frame.inits
  cases pc : w.pc t with
  | fullLock c page =>
      rw [pc] at ok
      exact spot ok rfl
  | loadFull c page =>
      rw [pc] at ok
      exact ⟨spot ok.1 rfl, frame.lock t ok.2⟩
  | storeFull c page isFull =>
      rw [pc] at ok
      exact ⟨spot ok.1 rfl, frame.lock t ok.2.1, ok.2.2.trans (frame.isFull page ok.1).symm⟩
  | pushFull c page =>
      rw [pc] at ok
      exact ⟨spot ok.1 rfl, frame.lock t ok.2⟩
  | recheckTest c | recheckLock c | recheckTake c | newPage c =>
      rw [pc] at ok
      exact (congrFun frame.nonFull c).trans ok
  | initPage c page =>
      rw [pc] at ok inits
      exact ⟨(congrFun frame.nonFull c).trans ok.1, ok.2.1.trans_le frame.num,
        inits page rfl ok.2.2⟩
  | ownFree obj o | crossFreeLock obj o | crossFree obj o | crossFreeUnlock page o
  | readFull page o =>
      rw [pc] at ok
      exact frame.owner _ o ok
  | casFull page o isFull =>
      rw [pc] at ok
      exact ⟨frame.owner _ o ok.1, ok.2⟩
  | lockFull page o =>
      rw [pc] at ok claimed
      exact claimed page o rfl ok
  | testFull page o | unlink page o =>
      rw [pc] at ok claimed
      exact ⟨claimed page o rfl ok.1, frame.lock o ok.2⟩
  | pushNonFull page o =>
      rw [pc] at ok
      exact ⟨spot ok.1 rfl, frame.owner _ o ok.2.1, ok.2.2.1, frame.lock o ok.2.2.2⟩
  | lockRecheck page o | pushRecheck page o =>
      rw [pc] at ok
      exact ⟨spot ok.1 rfl, frame.owner _ o ok.2.1, frame.lock o ok.2.2⟩
  | fullUnlock c =>
      rw [pc] at ok
      exact frame.lock t ok
  | unlockRecheck o | unlockFull o =>
      rw [pc] at ok
      exact frame.lock o ok
  | idle | tryAlloc | crossTest | crossLock | crossMove | crossUnlock | pop | advance
  | recheckUnlock | exited => trivial

section Lists

variable [DecidableEq T]

theorem World.listed_setNonFull (w : World T) (t : T) (c : Nat) (list : List Nat) (s : Spot T) :
    (w.setNonFull t c list).listed s = if s = .nonFull t c then list else w.listed s := by
  cases s with
  | nonFull u d =>
      simp only [World.listed, World.setNonFull, Spot.nonFull.injEq]
      by_cases first : u = t
      · subst first
        by_cases second : d = c
        · subst second
          simp
        · simp [second]
      · simp [first]
  | fresh | recheck | full | filling | filled | moving => rfl

theorem World.listed_setRecheck (w : World T) (t : T) (c : Nat) (list : List Nat) (s : Spot T) :
    (w.setRecheck t c list).listed s = if s = .recheck t c then list else w.listed s := by
  cases s with
  | recheck u d =>
      simp only [World.listed, World.setRecheck, Spot.recheck.injEq]
      by_cases first : u = t
      · subst first
        by_cases second : d = c
        · subst second
          simp
        · simp [second]
      · simp [first]
  | fresh | nonFull | full | filling | filled | moving => rfl

theorem World.listed_setFullList (w : World T) (t : T) (list : List Nat) (s : Spot T) :
    (w.setFullList t list).listed s = if s = .full t then list else w.listed s := by
  cases s with
  | full u =>
      simp only [World.listed, World.setFullList, Spot.full.injEq]
      by_cases first : u = t
      · subst first
        simp
      · simp [first]
  | fresh | nonFull | recheck | filling | filled | moving => rfl

omit [DecidableEq T] in
theorem World.unlisted (w : World T) {s : Spot T} (not_ : ¬ s.Listed) : w.listed s = [] := by
  cases s with
  | nonFull | recheck | full => exact (not_ trivial).elim
  | fresh | filling | filled | moving => rfl

end Lists

section Steps

variable [DecidableEq T] {w after : World T} {tid : T} {next : Pc T}

-- After a step of `tid`, what holds of the other threads and of `next` holds of all.
theorem threads_of (pc : after.pc = Function.update w.pc tid next) {P : T → Pc T → Prop}
    (others : ∀ u, u ≠ tid → P u (w.pc u)) (own : P tid next) (u : T) :
    P u (after.pc u) := by
  rw [pc]
  by_cases self : u = tid
  · rw [self, Function.update_self]
    exact own
  · rw [Function.update_of_ne self]
    exact others u self

theorem pc_other (pc : after.pc = Function.update w.pc tid next) {u : T} (apart : u ≠ tid) :
    after.pc u = w.pc u := by
  rw [pc, Function.update_of_ne apart]

theorem pc_own (pc : after.pc = Function.update w.pc tid next) : after.pc tid = next := by
  rw [pc, Function.update_self]

variable (inv : Inv w)

include inv

/-- A step that moves no page and leaves isFull. -/
theorem Inv.quiet (pc : after.pc = Function.update w.pc tid next) (spot : after.spot = w.spot)
    (isFull : after.isFull = w.isFull) (owner : after.ownerTid = w.ownerTid)
    (num : after.numAllocatedPages = w.numAllocatedPages) (listed : after.listed = w.listed)
    (nonFull : after.nonFullPageLists = w.nonFullPageLists)
    (claims : next.claims = (w.pc tid).claims) (hands : next.hands = (w.pc tid).hands)
    (inits : next.inits = (w.pc tid).inits)
    (lock : ∀ u o, u ≠ tid → w.fullPageListLock o = some u → after.fullPageListLock o = some u)
    (notice : ∀ p, w.isFull p % 2 = 1 → after.freeList p ≠ [] ∨ after.crossThreadFreeList p ≠ [] →
      ∃ u, (after.pc u).Notices p (w.isFull p))
    (ok : next.Ok after tid) : Inv after := by
  have same {α : Type} (f : Pc T → α) (kept : f next = f (w.pc tid)) (u : T) :
    f (after.pc u) = f (w.pc u) := by
    by_cases self : u = tid
    · rw [self, pc_own pc, kept]
    · rw [pc_other pc self]
  have claims' := same Pc.claims claims
  have inits' := same Pc.inits inits
  constructor
  · rw [num, owner]
    exact inv.num
  · rw [spot, owner]
    exact inv.fresh
  · rw [listed, spot]
    exact inv.listed
  · rw [listed]
    exact inv.nodup
  · rw [spot, owner]
    exact inv.home
  · rw [spot, isFull]
    exact inv.even
  · rw [spot, isFull]
    simp only [claims']
    exact inv.odd
  · rw [spot]
    simp only [same Pc.hands hands]
    exact inv.hands
  · simp only [inits']
    exact inv.apart
  · simp only [claims']
    exact inv.single
  · rw [isFull]
    exact notice
  · refine threads_of pc (fun u apart => Frame.ok ?_ (inv.threads u)) ok
    refine ⟨fun p _ => by rw [spot], fun p _ => by rw [isFull],
      fun p o here => by rw [owner]; exact here, fun p _ none_ => by rw [owner]; exact none_,
      num.ge, by rw [nonFull], fun o => lock u o apart, fun p o _ claimed => ?_⟩
    simp only [World.Claimed, spot, isFull, owner]
    exact claimed

/-- A step that takes one page to another place. -/
theorem Inv.shift {page : Nat} {spot' : Spot T} (pc : after.pc = Function.update w.pc tid next)
    (spot : after.spot = Function.update w.spot page spot')
    (listed : ∀ s : Spot T, s.Listed → after.listed s = if s = spot' then page :: w.listed s
      else (w.listed s).erase page)
    (unlisted : ∀ s : Spot T, ¬ s.Listed → after.listed s = [])
    (num : after.numAllocatedPages = w.numAllocatedPages)
    (isFull : ∀ p, p ≠ page → after.isFull p = w.isFull p)
    (owner : ∀ p, p ≠ page → after.ownerTid p = w.ownerTid p)
    (kept : ∀ o, w.ownerTid page = some o → after.ownerTid page = some o)
    (handed : page < w.numAllocatedPages)
    (mine : after.ownerTid page ≠ none) (placed : spot' ≠ .fresh) (left : w.spot page ≠ spot')
    (home : ∀ t, spot'.home = some t → after.ownerTid page = some t)
    (even : spot'.Even → after.isFull page % 2 = 0)
    (odd : ∀ t, spot' = .full t ∨ spot' = .filled t → after.isFull page % 2 = 1 ∨
      ∃ u, (after.pc u).claims = some page)
    (from_ : ∀ t, (w.spot page).holder = some t → t = tid) (into : ∀ t, spot'.holder = some t →
      t = tid ∧ next.hands = some page)
    (hands : ∀ p, (w.pc tid).hands = some p → p = page) (claims : ∀ p, (w.pc tid).claims = some p →
      p = page) (free_ : next.claims = none)
    (inits : next.inits = none) (others : ∀ u, u ≠ tid → (w.pc u).inits ≠ some page)
    (claimed : ∀ u o, u ≠ tid → (w.pc u).claims = some page → w.Claimed page o →
      after.Claimed page o)
    (nonFull : ∀ u, u ≠ tid → after.nonFullPageLists u = w.nonFullPageLists u)
    (lock : after.fullPageListLock = w.fullPageListLock)
    (quiet : ∀ p v, ¬ (w.pc tid).Notices p v)
    (lists : ∀ p, p ≠ page → after.freeList p = w.freeList p ∧
    after.crossThreadFreeList p = w.crossThreadFreeList p)
    (notice : after.isFull page % 2 = 1 → after.freeList page ≠ [] ∨
      after.crossThreadFreeList page ≠ [] →
      ∃ u, (after.pc u).Notices page (after.isFull page))
    (ok : next.Ok after tid) : Inv after := by
  have moved : after.spot page = spot' := by rw [spot, Function.update_self]
  have stays {p : Nat} (other : p ≠ page) : after.spot p = w.spot p := by
    rw [spot, Function.update_of_ne other]
  have claimer {u : T} {p : Nat} (here : (after.pc u).claims = some p) : u ≠ tid ∧ (w.pc u).claims =
    some p := by
    by_cases self : u = tid
    · rw [self, pc_own pc, free_] at here
      cases here
    · rw [pc_other pc self] at here
      exact ⟨self, here⟩
  have initer {u : T} {p : Nat} (here : (after.pc u).inits = some p) : u ≠ tid ∧ (w.pc u).inits =
    some p := by
    by_cases self : u = tid
    · rw [self, pc_own pc, inits] at here
      cases here
    · rw [pc_other pc self] at here
      exact ⟨self, here⟩
  constructor
  · intro p high
    rw [num] at high
    rw [owner p (by omega)]
    exact inv.num p high
  · intro p
    by_cases self : p = page
    · rw [self, moved]
      exact ⟨fun same => (placed same).elim, fun none_ => (mine none_).elim⟩
    · rw [stays self, owner p self]
      exact inv.fresh p
  · intro s is_ p
    rw [listed s is_]
    by_cases there : s = spot'
    · rw [if_pos there, List.mem_cons]
      by_cases self : p = page
      · rw [self, moved]
        exact ⟨fun _ => there.symm, fun _ => .inl rfl⟩
      · rw [stays self, inv.listed s is_]
        exact ⟨fun either => either.resolve_left self, .inr⟩
    · rw [if_neg there, (inv.nodup s).mem_erase_iff]
      by_cases self : p = page
      · rw [self, moved]
        exact ⟨fun both => (both.1 rfl).elim, fun same => (there same.symm).elim⟩
      · rw [stays self, inv.listed s is_]
        exact ⟨And.right, fun here => ⟨self, here⟩⟩
  · intro s
    by_cases is_ : s.Listed
    · rw [listed s is_]
      by_cases there : s = spot'
      · rw [if_pos there]
        refine List.nodup_cons.mpr ⟨fun already => left ?_, inv.nodup s⟩
        rw [(inv.listed s is_ page).mp already, there]
      · rw [if_neg there]
        exact (inv.nodup s).erase page
    · rw [unlisted s is_]
      exact List.nodup_nil
  · intro p t here
    by_cases self : p = page
    · rw [self, moved] at here
      rw [self]
      exact home t here
    · rw [stays self] at here
      rw [owner p self]
      exact inv.home p t here
  · intro p here
    by_cases self : p = page
    · rw [self, moved] at here
      rw [self]
      exact even here
    · rw [stays self] at here
      rw [isFull p self]
      exact inv.even p here
  · intro p t here
    by_cases self : p = page
    · rw [self, moved] at here
      rw [self]
      exact odd t here
    · rw [stays self] at here
      rw [isFull p self]
      refine (inv.odd p t here).imp_right ?_
      rintro ⟨u, claiming⟩
      have apart : u ≠ tid := fun same => self (claims p (by rw [← same]; exact claiming))
      exact ⟨u, by rw [pc_other pc apart]; exact claiming⟩
  · intro p t here
    by_cases self : p = page
    · rw [self, moved] at here
      obtain ⟨rfl, held⟩ := into t here
      rw [self, pc_own pc]
      exact held
    · rw [stays self] at here
      have held := inv.hands p t here
      have apart : t ≠ tid := fun same => self (hands p (by rw [← same]; exact held))
      rw [pc_other pc apart]
      exact held
  · intro u v p first second
    exact inv.apart u v p (initer first).2 (initer second).2
  · intro u v p first second
    exact inv.single u v p (claimer first).2 (claimer second).2
  · intro p high blocks
    by_cases self : p = page
    · rw [self] at high blocks ⊢
      exact notice high blocks
    · rw [isFull p self] at high ⊢
      rw [(lists p self).1, (lists p self).2] at blocks
      obtain ⟨u, sees⟩ := inv.notice p high blocks
      have apart : u ≠ tid := fun same => quiet p _ (by rw [← same]; exact sees)
      exact ⟨u, by rw [pc_other pc apart]; exact sees⟩
  · refine threads_of pc (fun u apart => Frame.ok ?_ (inv.threads u)) ok
    have foreign {p : Nat} (held : (w.spot p).holder = some u) : p ≠ page :=
      fun same => apart (from_ u (by rw [← same]; exact held))
    refine ⟨fun p held => stays (foreign held),
      fun p here => isFull p (foreign (by rw [here]; rfl)), fun p o here =>
      ?_, fun p initing none_ => ?_, num.ge,
      nonFull u apart, fun o held => by rw [lock]; exact held, fun p o claiming here => ?_⟩
    · by_cases self : p = page
      · rw [self] at here ⊢
        exact kept o here
      · rw [owner p self]
        exact here
    · have self : p ≠ page := fun same => others u apart (by rw [← same]; exact initing)
      rw [owner p self]
      exact none_
    · by_cases self : p = page
      · rw [self] at claiming here ⊢
        exact claimed u o apart claiming here
      · simp only [World.Claimed, stays self, isFull p self, owner p self]
        exact here

-- A page with odd isFull is on the full list of its owner, or about to be.
omit [DecidableEq T] in
theorem Inv.place_of_odd {page : Nat} {o : T} (owned : w.ownerTid page = some o)
    (odd : w.isFull page % 2 = 1) :
    w.spot page = .full o ∨ w.spot page = .filled o := by
  have even := inv.even page
  have home := inv.home page
  cases here : w.spot page with
  | fresh =>
      rw [(inv.fresh page).mp here] at owned
      cases owned
  | full t =>
      rw [here] at home
      cases (home t rfl).symm.trans owned
      exact .inl rfl
  | filled t =>
      rw [here] at home
      cases (home t rfl).symm.trans owned
      exact .inr rfl
  | nonFull | recheck | filling | moving =>
      rw [here] at even
      have := even trivial
      omega

omit [DecidableEq T] in
theorem Inv.claimed {u : T} {page : Nat} (claims : (w.pc u).claims = some page) :
    ∃ o, w.Claimed page o := by
  have ok := inv.threads u
  cases pc : w.pc u with
  | lockFull p o =>
      rw [pc] at ok claims
      cases claims
      exact ⟨o, ok⟩
  | testFull p o | unlink p o =>
      rw [pc] at ok claims
      cases claims
      exact ⟨o, ok.1⟩
  | idle | tryAlloc | crossTest | crossLock | crossMove | crossUnlock | pop | advance | fullLock
  | loadFull | storeFull | pushFull | fullUnlock | recheckTest
  | recheckLock | recheckTake | recheckUnlock | newPage | initPage | ownFree | crossFreeLock
  | crossFree | crossFreeUnlock | readFull | casFull | pushNonFull
  | lockRecheck | pushRecheck | unlockRecheck | unlockFull | exited =>
      rw [pc] at claims
      cases claims

theorem Inv.cas {page isFull : Nat} {o : T} (pc : w.pc tid = .casFull page o isFull)
    (same : w.isFull page = isFull) :
    Inv ((w.setIsFull page (isFull + 1)).goto tid (.lockFull page o)) := by
  have ok := inv.threads tid
  rw [pc] at ok
  obtain ⟨owned, odd⟩ := ok
  have high : w.isFull page % 2 = 1 := by rw [same]; exact odd
  have place := inv.place_of_odd owned high
  have pcs : ((w.setIsFull page (isFull + 1)).goto tid (.lockFull page o)).pc =
    Function.update w.pc tid (.lockFull page o) := rfl
  have now : ((w.setIsFull page (isFull + 1)).goto tid (.lockFull page o)).isFull page =
    isFull + 1 := Function.update_self _ _ _
  have stays {p : Nat} (other : p ≠ page) :
    ((w.setIsFull page (isFull + 1)).goto tid (.lockFull page o)).isFull p = w.isFull p :=
    Function.update_of_ne other _ _
  have claimer {u : T} {p : Nat} (claims : (w.pc u).claims = some p) : p ≠ page ∧ u ≠ tid := by
    obtain ⟨_, even, -⟩ := inv.claimed claims
    refine ⟨fun here => ?_, fun here => ?_⟩
    · rw [here] at even
      omega
    · rw [here, pc] at claims
      cases claims
  have evens (p : Nat) (here : (w.spot p).Even) : p ≠ page := by
    intro self
    rw [self] at here
    have := inv.even page here
    omega
  constructor
  · exact inv.num
  · exact inv.fresh
  · exact inv.listed
  · exact inv.nodup
  · exact inv.home
  · intro p here
    rw [stays (evens p here)]
    exact inv.even p here
  · intro p t here
    by_cases self : p = page
    · exact .inr ⟨tid, by rw [pc_own pcs, self]; rfl⟩
    · rw [stays self]
      refine (inv.odd p t here).imp_right ?_
      rintro ⟨u, claims⟩
      exact ⟨u, by rw [pc_other pcs (claimer claims).2]; exact claims⟩
  · intro p t here
    have held := inv.hands p t here
    have apart : t ≠ tid := by
      rintro rfl
      rw [pc] at held
      cases held
    rw [pc_other pcs apart]
    exact held
  · have initer {u : T} {p : Nat}
      (here : (((w.setIsFull page (isFull + 1)).goto tid (.lockFull page o)).pc u).inits = some p) :
      (w.pc u).inits = some p := by
      by_cases self : u = tid
      · rw [self, pc_own pcs] at here
        cases here
      · rw [pc_other pcs self] at here
        exact here
    exact fun u v p first second => inv.apart u v p (initer first) (initer second)
  · have only {u : T} {p : Nat}
      (here : (((w.setIsFull page (isFull + 1)).goto tid (.lockFull page o)).pc
      u).claims = some p) :
        u = tid ∧ p = page ∨ (w.pc u).claims = some p := by
      by_cases self : u = tid
      · rw [self, pc_own pcs] at here
        cases here
        exact .inl ⟨self, rfl⟩
      · rw [pc_other pcs self] at here
        exact .inr here
    intro u v p first second
    rcases only first with ⟨rfl, rfl⟩ | before
    · rcases only second with ⟨rfl, -⟩ | before
      · rfl
      · exact ((claimer before).1 rfl).elim
    · rcases only second with ⟨rfl, rfl⟩ | before'
      · exact ((claimer before).1 rfl).elim
      · exact inv.single u v p before before'
  · intro p high' blocks
    by_cases self : p = page
    · rw [self, now] at high'
      omega
    · rw [stays self] at high' ⊢
      obtain ⟨u, sees⟩ := inv.notice p high' blocks
      have apart : u ≠ tid := by
        rintro rfl
        rw [pc] at sees
        exact self sees.1.symm
      exact ⟨u, by rw [pc_other pcs apart]; exact sees⟩
  · refine threads_of pcs (fun u apart => Frame.ok ?_ (inv.threads u)) ⟨?_, owned, place⟩
    · refine ⟨fun _ _ => rfl, fun p here => stays (evens p (by rw [here]; trivial)),
        fun _ _ here => here, fun _ _ none_ => none_, Nat.le_refl _, rfl,
        fun _ here => here, fun p o' claims here => ⟨?_, here.2⟩⟩
      rw [stays (claimer claims).1]
      exact here.1
    · rw [now]
      omega

theorem Inv.newPage {c : Nat} (pc : w.pc tid = .newPage c) :
    Inv ({ w with numAllocatedPages := w.numAllocatedPages + 1 }.goto tid
      (.initPage c w.numAllocatedPages)) := by
  have empty := inv.threads tid
  rw [pc] at empty
  have pcs : ({ w with numAllocatedPages := w.numAllocatedPages + 1 }.goto tid
    (.initPage c w.numAllocatedPages)).pc =
      Function.update w.pc tid (.initPage c w.numAllocatedPages) := rfl
  have claims (u : T) : (({ w with numAllocatedPages := w.numAllocatedPages + 1 }.goto tid
    (.initPage c w.numAllocatedPages)).pc u).claims = (w.pc u).claims := by
    by_cases self : u = tid
    · rw [self, pc_own pcs, pc]
      rfl
    · rw [pc_other pcs self]
  have initer {u : T} {p : Nat}
    (here : (({ w with numAllocatedPages := w.numAllocatedPages + 1 }.goto tid
    (.initPage c w.numAllocatedPages)).pc u).inits = some p) :
      u = tid ∧ p = w.numAllocatedPages ∨ p < w.numAllocatedPages ∧ (w.pc u).inits = some p := by
    by_cases self : u = tid
    · rw [self, pc_own pcs] at here
      cases here
      exact .inl ⟨self, rfl⟩
    · rw [pc_other pcs self] at here
      refine .inr ⟨?_, here⟩
      have ok := inv.threads u
      cases there : w.pc u with
      | initPage c' p' =>
          rw [there] at ok here
          cases here
          exact ok.2.1
      | _ =>
          rw [there] at here
          cases here
  constructor
  · intro p high
    exact inv.num p (by have : w.numAllocatedPages + 1 ≤ p := high; omega)
  · exact inv.fresh
  · exact inv.listed
  · exact inv.nodup
  · exact inv.home
  · exact inv.even
  · simp only [claims]
    exact inv.odd
  · intro p t here
    have held := inv.hands p t here
    have apart : t ≠ tid := by
      rintro rfl
      rw [pc] at held
      cases held
    rw [pc_other pcs apart]
    exact held
  · intro u v p first second
    rcases initer first with ⟨rfl, rfl⟩ | ⟨low, before⟩
    · rcases initer second with ⟨rfl, -⟩ | ⟨low, -⟩
      · rfl
      · omega
    · rcases initer second with ⟨rfl, rfl⟩ | ⟨-, before'⟩
      · omega
      · exact inv.apart u v p before before'
  · simp only [claims]
    exact inv.single
  · intro p high blocks
    obtain ⟨u, sees⟩ := inv.notice p high blocks
    have apart : u ≠ tid := by
      rintro rfl
      rw [pc] at sees
      exact sees
    exact ⟨u, by rw [pc_other pcs apart]; exact sees⟩
  · refine threads_of pcs (fun u apart => Frame.ok ?_ (inv.threads u)) ⟨empty, Nat.lt_succ_self _,
      inv.num _ (Nat.le_refl _)⟩
    exact ⟨fun _ _ => rfl, fun _ _ => rfl, fun _ _ here => here, fun _ _ none_ => none_,
      Nat.le_succ _, rfl, fun _ here => here, fun _ _ _ here => here⟩

theorem Inv.recheckTake {c : Nat} (pc : w.pc tid = .recheckTake c) :
    Inv ({ (w.setNonFull tid c (w.recheckPageLists tid c)).setRecheck tid c [] with
      spot := fun page => if w.spot page = Spot.recheck tid c then Spot.nonFull tid c
        else w.spot page }.goto tid (.recheckUnlock c)) := by
  have empty := inv.threads tid
  rw [pc] at empty
  have none_ (p : Nat) : w.spot p ≠ .nonFull tid c := by
    intro here
    have := (inv.listed (.nonFull tid c) trivial p).mpr here
    rw [World.listed, empty] at this
    cases this
  generalize same : ({ (w.setNonFull tid c (w.recheckPageLists tid c)).setRecheck tid c [] with
      spot := fun page => if w.spot page = Spot.recheck tid c then Spot.nonFull tid c
        else w.spot page }.goto tid (.recheckUnlock c)) = after
  have pcs : after.pc = Function.update w.pc tid (.recheckUnlock c) := by rw [← same]; rfl
  have spot (p : Nat) : after.spot p = if w.spot p = Spot.recheck tid c then Spot.nonFull tid c
    else w.spot p := by rw [← same]; rfl
  have stays {p : Nat} (apart : w.spot p ≠ .recheck tid c) : after.spot p = w.spot p := by
    rw [spot, if_neg apart]
  have keeps {p : Nat} {s : Spot T} (here : after.spot p = s) (apart : s ≠ .nonFull tid c) :
    w.spot p = s := by
    rw [spot] at here
    split at here
    · exact (apart here.symm).elim
    · exact here
  have claims (u : T) : (after.pc u).claims = (w.pc u).claims := by
    by_cases self : u = tid
    · rw [self, pc_own pcs, pc]
      rfl
    · rw [pc_other pcs self]
  have inits (u : T) : (after.pc u).inits = (w.pc u).inits := by
    by_cases self : u = tid
    · rw [self, pc_own pcs, pc]
      rfl
    · rw [pc_other pcs self]
  have listed (s : Spot T) : after.listed s = if s = .nonFull tid c then w.listed (.recheck tid c)
    else if s = .recheck tid c then [] else w.listed s := by
    have lists := (w.setNonFull tid c (w.recheckPageLists tid c)).listed_setRecheck tid c [] s
    rw [World.listed_setNonFull] at lists
    have whole : after.listed s =
      ((w.setNonFull tid c (w.recheckPageLists tid c)).setRecheck tid c []).listed s := by
      rw [← same]
      cases s <;> rfl
    rw [whole, lists]
    by_cases first : s = .nonFull tid c
    · rw [if_pos first, if_pos first, if_neg (by rw [first]; simp)]
      rfl
    · rw [if_neg first, if_neg first]
  have owner : after.ownerTid = w.ownerTid := by rw [← same]; rfl
  have isFull : after.isFull = w.isFull := by rw [← same]; rfl
  have rest : after.numAllocatedPages = w.numAllocatedPages ∧ after.freeList = w.freeList ∧
    after.crossThreadFreeList = w.crossThreadFreeList ∧
      after.fullPageListLock = w.fullPageListLock := by
    rw [← same]
    exact ⟨rfl, rfl, rfl, rfl⟩
  have nonFull {u : T} (apart : u ≠ tid) : after.nonFullPageLists u = w.nonFullPageLists u := by
    rw [← same]
    exact Function.update_of_ne apart _ _
  clear same
  constructor
  · rw [rest.1, owner]
    exact inv.num
  · intro p
    rw [owner, ← inv.fresh p, spot]
    split
    · rename_i here
      rw [here]
      exact ⟨fun absurd_ => (by cases absurd_), fun absurd_ => (by cases absurd_)⟩
    · rfl
  · intro s is_ p
    rw [listed, spot]
    by_cases first : s = .nonFull tid c
    · rw [if_pos first, inv.listed (.recheck tid c) trivial, first]
      split
      · rename_i here
        exact ⟨fun _ => rfl, fun _ => here⟩
      · rename_i here
        exact ⟨fun there => (here there).elim, fun there => (none_ p there).elim⟩
    · rw [if_neg first]
      by_cases second : s = .recheck tid c
      · rw [if_pos second, second]
        split
        · exact ⟨fun member => (by cases member), fun absurd_ => (by cases absurd_)⟩
        · rename_i here
          exact ⟨fun member => (by cases member), fun there => (here there).elim⟩
      · rw [if_neg second, inv.listed s is_]
        split
        · rename_i here
          exact ⟨fun there => (second (there.symm.trans here)).elim,
            fun there => (first there.symm).elim⟩
        · rfl
  · intro s
    rw [listed]
    split
    · exact inv.nodup _
    · split
      · exact List.nodup_nil
      · exact inv.nodup s
  · intro p t here
    rw [owner]
    by_cases taken : w.spot p = .recheck tid c
    · rw [spot, if_pos taken] at here
      exact inv.home p t (by rw [taken]; exact here)
    · rw [stays taken] at here
      exact inv.home p t here
  · intro p here
    rw [isFull]
    by_cases taken : w.spot p = .recheck tid c
    · exact inv.even p (by rw [taken]; trivial)
    · rw [stays taken] at here
      exact inv.even p here
  · intro p t here
    rw [isFull]
    simp only [claims]
    exact inv.odd p t (here.imp (fun there => keeps there (by simp)) fun there => keeps there
      (by simp))
  · intro p t here
    have held : (w.pc t).hands = some p := by
      by_cases taken : w.spot p = .recheck tid c
      · rw [spot, if_pos taken] at here
        cases here
      · rw [stays taken] at here
        exact inv.hands p t here
    have apart : t ≠ tid := by
      rintro rfl
      rw [pc] at held
      cases held
    rw [pc_other pcs apart]
    exact held
  · simp only [inits]
    exact inv.apart
  · simp only [claims]
    exact inv.single
  · intro p high blocks
    rw [isFull] at high ⊢
    rw [rest.2.1, rest.2.2.1] at blocks
    obtain ⟨u, sees⟩ := inv.notice p high blocks
    have apart : u ≠ tid := by
      rintro rfl
      rw [pc] at sees
      exact sees
    exact ⟨u, by rw [pc_other pcs apart]; exact sees⟩
  · refine threads_of pcs (fun u apart => Frame.ok ?_ (inv.threads u)) trivial
    refine ⟨fun p held => stays fun taken => ?_, fun p _ => by rw [isFull],
      fun p o here => by rw [owner]; exact here, fun p _ here => by rw [owner]; exact here,
      rest.1.ge, nonFull apart, fun o here => by rw [rest.2.2.2]; exact here, fun p o _ here => ?_⟩
    · rw [taken] at held
      cases held
    · refine ⟨by rw [isFull]; exact here.1, by rw [owner]; exact here.2.1, ?_⟩
      rw [stays (fun taken => by
        rcases here.2.2 with there | there <;> cases taken.symm.trans there)]
      exact here.2.2

end Steps

end SetBench.PmemAlloc
