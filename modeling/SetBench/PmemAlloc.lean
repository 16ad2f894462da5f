import Mathlib
import SetBench.Transition

/-! The size-class path of PMEMAlloc of common/artifact_flock/pmem_alloc.h. One step is one
access to a word that other threads may write: isFull, a lock, the head of a
crossThreadFreeList or of a recheck list. What a thread does to a list of pages whose lock it
holds, or to lists that are its own, is one step; the next and prev links are the order of the
list. isFull does not wrap, and memory is not exhausted. -/
namespace SetBench.PmemAlloc

open Transition

def pageSizeBytes : Nat := 4 * 1024 * 1024

-- sizeof(MemoryPage): 88 bytes of fields and three paddings of 128.
def headerBytes : Nat := 472

def usablePageSizeBytes : Nat := pageSizeBytes - headerBytes

def bitIndexLoop (size : Nat) : Nat → Nat → Nat
  | 0, bitIndex => bitIndex
  | fuel + 1, bitIndex =>
      if size >>> (bitIndex + 1) ≠ 0 then bitIndexLoop size fuel (bitIndex + 1) else bitIndex

def getSizeClass (size : Nat) : Nat :=
  let bitIndex := bitIndexLoop size 64 0
  if 2 ^ bitIndex < size then bitIndex + 1 else bitIndex

structure Block where
  page : Nat
  offset : Nat
  deriving DecidableEq

-- The blocks behind the header, in the order of their addresses.
def resetMemoryPage (page sizeClassSize : Nat) : List Block :=
  (List.range (usablePageSizeBytes / sizeClassSize)).map fun i =>
  ⟨page, headerBytes + i * sizeClassSize⟩

/-- Where a page is: on its way to the full list of its owner, `filling` before and `filled` after
isFull is raised, or `moving` back in the hands of a free. The code has no such field. -/
inductive Spot (T : Type) where
  | fresh
  | nonFull (t : T) (sizeClass : Nat)
  | recheck (t : T) (sizeClass : Nat)
  | full (t : T)
  | filling (t : T)
  | filled (t : T)
  | moving (t : T)
  deriving DecidableEq

inductive Pc (T : Type) where
  | idle
  | tryAlloc (sizeClass : Nat)
  | crossTest (sizeClass page : Nat)
  | crossLock (sizeClass page : Nat)
  | crossMove (sizeClass page : Nat)
  | crossUnlock (sizeClass page : Nat)
  | pop (page : Nat)
  | advance (sizeClass : Nat)
  | fullLock (sizeClass page : Nat)
  | loadFull (sizeClass page : Nat)
  | storeFull (sizeClass page isFull : Nat)
  | pushFull (sizeClass page : Nat)
  | fullUnlock (sizeClass : Nat)
  | recheckTest (sizeClass : Nat)
  | recheckLock (sizeClass : Nat)
  | recheckTake (sizeClass : Nat)
  | recheckUnlock (sizeClass : Nat)
  | newPage (sizeClass : Nat)
  | initPage (sizeClass pageIndex : Nat)
  | ownFree (obj : Block) (ownerTid : T)
  | crossFreeLock (obj : Block) (ownerTid : T)
  | crossFree (obj : Block) (ownerTid : T)
  | crossFreeUnlock (page : Nat) (ownerTid : T)
  | readFull (page : Nat) (ownerTid : T)
  | casFull (page : Nat) (ownerTid : T) (isFull : Nat)
  | lockFull (page : Nat) (ownerTid : T)
  | testFull (page : Nat) (ownerTid : T)
  | unlink (page : Nat) (ownerTid : T)
  | pushNonFull (page : Nat) (ownerTid : T)
  | lockRecheck (page : Nat) (ownerTid : T)
  | pushRecheck (page : Nat) (ownerTid : T)
  | unlockRecheck (ownerTid : T)
  | unlockFull (ownerTid : T)
  | exited
  deriving DecidableEq

structure World (T : Type) where
  numAllocatedPages : Nat
  ownerTid : Nat → Option T
  sizeClassPow2 : Nat → Nat
  isFull : Nat → Nat
  freeList : Nat → List Block
  crossThreadFreeList : Nat → List Block
  crossThreadFreeListLock : Nat → Bool
  nonFullPageLists : T → Nat → List Nat
  fullPageList : T → List Nat
  fullPageListLock : T → Option T
  recheckPageLists : T → Nat → List Nat
  recheckPageListLock : T → Bool
  live : List Block
  pc : T → Pc T
  spot : Nat → Spot T

def initial {T : Type} : World T where
  numAllocatedPages := 0
  ownerTid := fun _ => none
  sizeClassPow2 := fun _ => 0
  isFull := fun _ => 0
  freeList := fun _ => []
  crossThreadFreeList := fun _ => []
  crossThreadFreeListLock := fun _ => false
  nonFullPageLists := fun _ _ => []
  fullPageList := fun _ => []
  fullPageListLock := fun _ => none
  recheckPageLists := fun _ _ => []
  recheckPageListLock := fun _ => false
  live := []
  pc := fun _ => .idle
  spot := fun _ => .fresh

inductive Event (T : Type) where
  | alloc (tid : T) (size : Nat)
  | free (tid : T) (obj : Block)
  | move (tid : T)

variable {T : Type} [DecidableEq T]

def World.goto (w : World T) (tid : T) (pc : Pc T) : World T :=
  { w with pc := Function.update w.pc tid pc }

def World.setFreeList (w : World T) (page : Nat) (list : List Block) : World T :=
  { w with freeList := Function.update w.freeList page list }

def World.setCross (w : World T) (page : Nat) (list : List Block) : World T :=
  { w with crossThreadFreeList := Function.update w.crossThreadFreeList page list }

def World.setCrossLock (w : World T) (page : Nat) (held : Bool) : World T :=
  { w with crossThreadFreeListLock := Function.update w.crossThreadFreeListLock page held }

def World.setIsFull (w : World T) (page isFull : Nat) : World T :=
  { w with isFull := Function.update w.isFull page isFull }

def World.setFullLock (w : World T) (t : T) (holder : Option T) : World T :=
  { w with fullPageListLock := Function.update w.fullPageListLock t holder }

def World.setRecheckLock (w : World T) (t : T) (held : Bool) : World T :=
  { w with recheckPageListLock := Function.update w.recheckPageListLock t held }

def World.setNonFull (w : World T) (t : T) (sizeClass : Nat) (list : List Nat) : World T :=
  { w with
    nonFullPageLists := Function.update w.nonFullPageLists t
      (Function.update (w.nonFullPageLists t) sizeClass list) }

def World.setRecheck (w : World T) (t : T) (sizeClass : Nat) (list : List Nat) : World T :=
  { w with
    recheckPageLists := Function.update w.recheckPageLists t
      (Function.update (w.recheckPageLists t) sizeClass list) }

def World.setFullList (w : World T) (t : T) (list : List Nat) : World T :=
  { w with fullPageList := Function.update w.fullPageList t list }

def World.setSpot (w : World T) (page : Nat) (spot : Spot T) : World T :=
  { w with spot := Function.update w.spot page spot }

-- `return ptr`, with the head of the free list.
def World.popFree (w : World T) (tid : T) (page : Nat) : Option (World T) :=
  match w.freeList page with
  | [] => none
  | ptr :: rest => some (({ w with live := ptr :: w.live }.setFreeList page rest).goto tid .idle)

def allocMove (w : World T) (tid : T) : Pc T → Option (World T)
  | .tryAlloc c =>
      match w.nonFullPageLists tid c with
      | [] => some (w.goto tid (.recheckTest c))
      | page :: _ =>
          if w.freeList page = [] then some (w.goto tid (.crossTest c page)) else w.popFree tid page
  | .crossTest c page =>
      if w.crossThreadFreeList page = [] then some (w.goto tid (.advance c))
      else some (w.goto tid (.crossLock c page))
  | .crossLock c page =>
      if w.crossThreadFreeListLock page then none
      else some ((w.setCrossLock page true).goto tid (.crossMove c page))
  | .crossMove c page =>
      some (((w.setFreeList page (w.crossThreadFreeList page)).setCross page []).goto tid
        (.crossUnlock c page))
  | .crossUnlock _ page => some ((w.setCrossLock page false).goto tid (.pop page))
  | .pop page => w.popFree tid page
  -- The head of the list is full: the list goes on to the next page.
  | .advance c =>
      match w.nonFullPageLists tid c with
      | [] => some (w.goto tid (.recheckTest c))
      | page :: rest =>
          some (((w.setNonFull tid c rest).setSpot page (.filling tid)).goto tid (.fullLock c page))
  | .fullLock c page =>
      match w.fullPageListLock tid with
      | some _ => none
      | none => some ((w.setFullLock tid (some tid)).goto tid (.loadFull c page))
  | .loadFull c page => some (w.goto tid (.storeFull c page (w.isFull page)))
  | .storeFull c page isFull =>
      some (((w.setIsFull page (isFull + 1)).setSpot page (.filled tid)).goto tid
        (.pushFull c page))
  | .pushFull c page =>
      some (((w.setFullList tid (page :: w.fullPageList tid)).setSpot page (.full tid)).goto tid
        (.fullUnlock c))
  | .fullUnlock c =>
      some ((w.setFullLock tid none).goto tid (if w.nonFullPageLists tid c = [] then .recheckTest c
        else .tryAlloc c))
  | .recheckTest c =>
      some (w.goto tid (if w.recheckPageLists tid c = [] then .newPage c else .recheckLock c))
  | .recheckLock c =>
      if w.recheckPageListLock tid then none
      else some ((w.setRecheckLock tid true).goto tid (.recheckTake c))
  | .recheckTake c =>
      some ({ (w.setNonFull tid c (w.recheckPageLists tid c)).setRecheck tid c [] with
        spot := fun page => if w.spot page = Spot.recheck tid c then Spot.nonFull tid c
          else w.spot page }.goto tid (.recheckUnlock c))
  | .recheckUnlock c => some ((w.setRecheckLock tid false).goto tid (.tryAlloc c))
  | .newPage c =>
      some ({ w with numAllocatedPages := w.numAllocatedPages + 1 }.goto tid
        (.initPage c w.numAllocatedPages))
  | .initPage c page =>
      some ((({ w with
        ownerTid := Function.update w.ownerTid page (some tid)
        sizeClassPow2 := Function.update w.sizeClassPow2 page c }.setIsFull page 0).setCross page
          [] |>.setFreeList page (resetMemoryPage page (2 ^ c))
          |>.setNonFull tid c [page] |>.setSpot page (.nonFull tid c)).goto tid (.tryAlloc c))
  | _ => none

def freeMove (w : World T) (tid : T) : Pc T → Option (World T)
  | .ownFree obj o =>
      some ((w.setFreeList obj.page (obj :: w.freeList obj.page)).goto tid (.readFull obj.page o))
  | .crossFreeLock obj o =>
      if w.crossThreadFreeListLock obj.page then none
      else some ((w.setCrossLock obj.page true).goto tid (.crossFree obj o))
  | .crossFree obj o =>
      some ((w.setCross obj.page (obj :: w.crossThreadFreeList obj.page)).goto tid
        (.crossFreeUnlock obj.page o))
  | .crossFreeUnlock page o => some ((w.setCrossLock page false).goto tid (.readFull page o))
  | .readFull page o =>
      some (w.goto tid (if w.isFull page % 2 = 1 then .casFull page o (w.isFull page) else .idle))
  | .casFull page o isFull =>
      if w.isFull page = isFull then
        some ((w.setIsFull page (isFull + 1)).goto tid (.lockFull page o))
      else some (w.goto tid .idle)
  | .lockFull page o =>
      match w.fullPageListLock o with
      | some _ => none
      | none => some ((w.setFullLock o (some tid)).goto tid (.testFull page o))
  | .testFull page o =>
      if w.isFull page % 2 = 1 then some ((w.setFullLock o none).goto tid .exited)
      else some (w.goto tid (.unlink page o))
  | .unlink page o =>
      some (((w.setFullList o ((w.fullPageList o).erase page)).setSpot page (.moving tid)).goto tid
        (if o = tid then .pushNonFull page o else .lockRecheck page o))
  | .pushNonFull page o =>
      let c := w.sizeClassPow2 page
      some (((w.setNonFull tid c (page :: w.nonFullPageLists tid c)).setSpot page
        (.nonFull tid c)).goto tid (.unlockFull o))
  | .lockRecheck page o =>
      if w.recheckPageListLock o then none
      else some ((w.setRecheckLock o true).goto tid (.pushRecheck page o))
  | .pushRecheck page o =>
      let c := w.sizeClassPow2 page
      some (((w.setRecheck o c (page :: w.recheckPageLists o c)).setSpot page (.recheck o c)).goto
        tid (.unlockRecheck o))
  | .unlockRecheck o => some ((w.setRecheckLock o false).goto tid (.unlockFull o))
  | .unlockFull o => some ((w.setFullLock o none).goto tid .idle)
  | _ => none

/-- A call of alloc or free, by a thread that is in none, or one step of the call. -/
def step (w : World T) : Event T → Option (World T)
  | .alloc tid size =>
      if w.pc tid = .idle ∧ 8 ≤ size ∧ size ≤ 2 ^ 15 then
        some (w.goto tid (.tryAlloc (getSizeClass size)))
      else none
  | .free tid obj =>
      if w.pc tid = .idle ∧ obj ∈ w.live then
        (w.ownerTid obj.page).map fun o =>
          { w with live := w.live.erase obj }.goto tid
            (if o = tid then .ownFree obj o else .crossFreeLock obj o)
      else none
  | .move tid => (allocMove w tid (w.pc tid)).or (freeMove w tid (w.pc tid))

end SetBench.PmemAlloc
