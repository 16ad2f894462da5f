import SetBench.PmemAlloc

/-! Every request size of PMEMAlloc of common/artifact_flock/pmem_alloc.h, by the calls of
one thread: the size classes, and the regions of several pages with their lists. No other
thread frees, so no page comes to a crossThreadFreeList or a recheck list. What init leaves
alone starts as zero. Memory is not exhausted. -/
namespace SetBench.PmemSizes

open PmemAlloc (Block pageSizeBytes headerBytes usablePageSizeBytes getSizeClass bitIndexLoop
    resetMemoryPage)

def maxAllocPow2SizeClass : Nat := 16

inductive Lock where
  | fullPageList
  | overflowPageList
  | emptyOverFlowPageList
  deriving DecidableEq

inductive Fault where
  | outOfRange
  | nullWrite
  | neverReturns
  | assertion
  deriving DecidableEq

-- `sizeClassPow2` is none for OVERFLOW_PAGE_SIZE_CLASS_POW2.
structure Page where
  sizeClassPow2 : Option Nat
  sizeClassSize : Nat
  isFull : Nat
  freeList : List Block

/-- `live` are the regions that the caller holds, with the sizes it asked for. -/
structure World where
  numAllocatedPages : Nat
  page : Nat → Page
  nonFullPageLists : Nat → List Nat
  fullPageList : List Nat
  overflowPageList : List Nat
  emptyOverFlowPageList : List Nat
  held : Lock → Bool
  live : List (Block × Nat)

def initial : World := ⟨0, fun _ => ⟨none, 0, 0, []⟩, fun _ => [], [], [], [], fun _ => false, []⟩

namespace World

variable (w : World)

def acquireLock (lock : Lock) : Except Fault World :=
  if w.held lock then .error .neverReturns
  else .ok { w with held := Function.update w.held lock true }

def releaseLock (lock : Lock) : World := { w with held := Function.update w.held lock false }

def setPage (p : Nat) (page : Page) : World := { w with page := Function.update w.page p page }

def setNonFull (sizeClass : Nat) (list : List Nat) : World :=
  { w with nonFullPageLists := Function.update w.nonFullPageLists sizeClass list }

def tryAlloc (sizeClass : Nat) : Option (World × Block) :=
  match w.nonFullPageLists sizeClass with
  | [] => none
  | p :: _ =>
      match (w.page p).freeList with
      | [] => none
      | ptr :: rest => some (w.setPage p { w.page p with freeList := rest }, ptr)

-- The head of the list has no free block: it goes to the full list.
def moveToFull (sizeClass p : Nat) (rest : List Nat) : Except Fault World :=
  if (w.page p).isFull % 2 = 1 then .error .assertion
  else
    ((w.setNonFull sizeClass rest).acquireLock .fullPageList).map fun locked =>
      ({ locked with fullPageList := p :: w.fullPageList }.setPage p
        { w.page p with isFull := (w.page p).isFull + 1 }).releaseLock .fullPageList

def newPage (sizeClass : Nat) : World :=
  ({ w with numAllocatedPages := w.numAllocatedPages + 1 }.setPage w.numAllocatedPages
    ⟨some sizeClass, 2 ^ sizeClass, 0, resetMemoryPage w.numAllocatedPages
      (2 ^ sizeClass)⟩).setNonFull sizeClass
      [w.numAllocatedPages]

-- The loop of alloc for a size that fits into a page.
def allocLoop (sizeClass : Nat) : Nat → World → Except Fault (World × Block)
  | 0, _ => .error .neverReturns
  | fuel + 1, w =>
      match w.tryAlloc sizeClass with
      | some result => .ok result
      | none =>
          match w.nonFullPageLists sizeClass with
          | [] => allocLoop sizeClass fuel (w.newPage sizeClass)
          | [p] =>
              (w.moveToFull sizeClass p []).bind fun moved =>
              allocLoop sizeClass fuel (moved.newPage sizeClass)
          | p :: rest =>
              (w.moveToFull sizeClass p rest).bind fun moved => allocLoop sizeClass fuel moved

-- In uint64_t, where the sum wraps for the largest sizes.
@[irreducible] def requiredPages (size : Nat) : Nat :=
  (size + (usablePageSizeBytes - 1)) % 2 ^ 64 / usablePageSizeBytes + 1

-- `count` pages of their own for one region. memset clears pages whose headers no call reads.
def freshPages (count size : Nat) : Except Fault (World × Block) :=
  (({ w with numAllocatedPages := w.numAllocatedPages + count }.setPage w.numAllocatedPages
    ⟨none, size, 0, []⟩).acquireLock .overflowPageList).map fun (locked : World) =>
      ({ locked with overflowPageList := w.numAllocatedPages :: w.overflowPageList }.releaseLock
        .overflowPageList,
        ⟨w.numAllocatedPages, headerBytes⟩)

def alloc (size : Nat) : Except Fault (World × Block) :=
  if size ≤ usablePageSizeBytes then
    if maxAllocPow2SizeClass ≤ getSizeClass size then .error .outOfRange
    else allocLoop (getSizeClass size) ((w.nonFullPageLists (getSizeClass size)).length + 2) w
  else
    match w.emptyOverFlowPageList with
    | [] => w.freshPages (requiredPages size) size
    -- The search never leaves the first page of the list.
    | _ => (w.acquireLock .emptyOverFlowPageList).bind fun _ => .error .neverReturns

def free (obj : Block) : Except Fault World :=
  match (w.page obj.page).sizeClassPow2 with
  | some sizeClass =>
      let freed := { w.page obj.page with freeList := obj :: (w.page obj.page).freeList }
      if freed.isFull % 2 = 1 then
        if maxAllocPow2SizeClass ≤ sizeClass then .error .outOfRange
        else
          ((w.setPage obj.page { freed with isFull := freed.isFull + 1 }).acquireLock
            .fullPageList).map fun locked =>
            ({ locked with fullPageList := w.fullPageList.erase obj.page }.setNonFull sizeClass
              (obj.page :: w.nonFullPageLists sizeClass)).releaseLock .fullPageList
      else .ok (w.setPage obj.page freed)
  | none =>
      (w.acquireLock .overflowPageList).bind fun locked =>
      (locked.acquireLock .emptyOverFlowPageList).bind fun locked =>
        match w.emptyOverFlowPageList with
        -- The head of the list is null, and its prev is written.
        | [] => .error .nullWrite
        | _ => .ok (({ locked with
            overflowPageList := w.overflowPageList.erase obj.page
            emptyOverFlowPageList := obj.page :: w.emptyOverFlowPageList }.releaseLock
              .emptyOverFlowPageList).releaseLock
              .overflowPageList)

end World

inductive Call where
  | alloc (size : Nat)
  | free (obj : Block)

-- What the caller knows of its regions.
def World.give (w : World) (ptr : Block) (size : Nat) : World :=
  { w with live := (ptr, size) :: w.live }

def World.takeBack (w : World) (obj : Block) : World :=
  { w with live := w.live.filter fun region => region.1 ≠ obj }

def perform (w : World) : Call → Except Fault World
  | .alloc size => (w.alloc size).map fun result => result.1.give result.2 size
  | .free obj => (w.free obj).map fun after => after.takeBack obj

/-- What every caller keeps; a size is a size_t. -/
def Client (w : World) : Call → Prop
  | .alloc size => 1 ≤ size ∧ size < 2 ^ 64
  | .free obj => ∃ size, (obj, size) ∈ w.live

/-- More than one page holds, and so few that the number of pages does not wrap. -/
def Several (size : Nat) : Prop :=
  usablePageSizeBytes < size ∧ size + usablePageSizeBytes ≤ 2 ^ 64

/-- The sizes that the allocator serves; regions of several pages are never freed. -/
def Fine (w : World) : Call → Prop
  | .alloc size => (5 ≤ size ∧ size ≤ 2 ^ 15) ∨ Several size
  | .free obj => ∃ size, (obj, size) ∈ w.live ∧ size ≤ usablePageSizeBytes

def start (obj : Block) : Nat := obj.page * pageSizeBytes + obj.offset

def Disjoint (one other : Block × Nat) : Prop :=
  start one.1 + one.2 ≤ start other.1 ∨ start other.1 + other.2 ≤ start one.1

/-- The links that resetMemoryPage writes, one word into each block, lie in the page and do
not overlap. Where they do, the free list is no longer the list of blocks. -/
structure Links (p sizeClassSize : Nat) : Prop where
  inside : ∀ b ∈ resetMemoryPage p sizeClassSize, b.page = p ∧ headerBytes ≤ b.offset ∧
    b.offset + 8 ≤ pageSizeBytes
  apart : (resetMemoryPage p sizeClassSize).Pairwise fun one other => one.offset + 8 ≤ other.offset

/-- What the allocator promises between two calls. -/
structure Served (w : World) : Prop where
  unlocked : ∀ lock, w.held lock = false
  disjoint : w.live.Pairwise Disjoint
  inside : ∀ region ∈ w.live, start region.1 + region.2 ≤ w.numAllocatedPages * pageSizeBytes
  links : ∀ p c, (w.page p).sizeClassPow2 = some c → c < maxAllocPow2SizeClass ∧ Links p (2 ^ c)

/-- Every call is made in a state that meets the condition. -/
def Along (ok : World → Call → Prop) : World → List Call → Prop
  | _, [] => True
  | w, call :: rest => ok w call ∧ ∀ after, perform w call = .ok after → Along ok after rest

/-- Every call returns, and the promise holds before and after it. -/
def ServedAlong : World → List Call → Prop
  | w, [] => Served w
  | w, call :: rest => Served w ∧ ∃ after, perform w call = .ok after ∧ ServedAlong after rest

/-! Size classes and the blocks of a page. -/

theorem bitIndexLoop_spec {size : Nat} (fuel : Nat) {b : Nat} (low : 2 ^ b ≤ size)
    (enough : size < 2 ^ (b + fuel)) :
    2 ^ bitIndexLoop size fuel b ≤ size ∧ size < 2 ^ (bitIndexLoop size fuel b + 1) := by
  induction fuel generalizing b with
  | zero =>
      rw [Nat.add_zero] at enough
      omega
  | succ fuel ih =>
      rw [bitIndexLoop]
      have bit : size >>> (b + 1) ≠ 0 ↔ 2 ^ (b + 1) ≤ size := by
        rw [Nat.shiftRight_eq_div_pow, ne_eq, Nat.div_eq_zero_iff]
        have := Nat.two_pow_pos (b + 1)
        omega
      by_cases more : 2 ^ (b + 1) ≤ size
      · rw [if_pos (bit.mpr more)]
        exact ih more (by rw [show b + 1 + fuel = b + (fuel + 1) by omega]; exact enough)
      · rw [if_neg fun differs => more (bit.mp differs)]
        exact ⟨low, by omega⟩

theorem getSizeClass_fits {size : Nat} (low : 5 ≤ size) (high : size ≤ 2 ^ 15) :
    3 ≤ getSizeClass size ∧ getSizeClass size < maxAllocPow2SizeClass ∧
      size ≤ 2 ^ getSizeClass size := by
  obtain ⟨below, above⟩ := bitIndexLoop_spec 64 (show 2 ^ 0 ≤ size by omega)
    (show size < 2 ^ (0 + 64) by omega)
  have grow := @Nat.pow_le_pow_right 2
  rw [getSizeClass, maxAllocPow2SizeClass]
  generalize bitIndexLoop size 64 0 = b at below above
  have upper : b < 16 := by
    by_contra large
    have := grow (by decide) (show 16 ≤ b by omega)
    omega
  have lower : 2 ≤ b := by
    by_contra small
    have := grow (by decide) (show b + 1 ≤ 2 by omega)
    omega
  split
  · have : b ≠ 15 := by
      rintro rfl
      omega
    have : b ≠ 2 ∨ b = 2 := by omega
    exact ⟨by omega, by omega, above.le⟩
  · have : b ≠ 2 := by
      rintro rfl
      omega
    exact ⟨by omega, by omega, by omega⟩

section Blocks

variable {p size : Nat}

theorem mem_reset {b : Block} : b ∈ resetMemoryPage p size ↔
    ∃ i, i < usablePageSizeBytes / size ∧ b = ⟨p, headerBytes + i * size⟩ := by
  rw [resetMemoryPage, List.mem_map]
  constructor
  · rintro ⟨i, low, rfl⟩
    exact ⟨i, List.mem_range.mp low, rfl⟩
  · rintro ⟨i, low, rfl⟩
    exact ⟨i, List.mem_range.mpr low, rfl⟩

theorem reset_inside {b : Block} (member : b ∈ resetMemoryPage p size) :
    b.page = p ∧ headerBytes ≤ b.offset ∧ b.offset + size ≤ pageSizeBytes := by
  obtain ⟨i, low, rfl⟩ := mem_reset.mp member
  refine ⟨rfl, Nat.le_add_right _ _, ?_⟩
  have within : (i + 1) * size ≤ usablePageSizeBytes :=
    (Nat.mul_le_mul_right size low).trans (Nat.div_mul_le_self _ _)
  rw [Nat.add_mul, Nat.one_mul] at within
  have whole : usablePageSizeBytes + headerBytes = pageSizeBytes := rfl
  simp only
  omega

theorem reset_apart {one other : Block} (first : one ∈ resetMemoryPage p size)
    (second : other ∈ resetMemoryPage p size) (ne : one ≠ other) :
    one.offset + size ≤ other.offset ∨ other.offset + size ≤ one.offset := by
  obtain ⟨i, _, rfl⟩ := mem_reset.mp first
  obtain ⟨j, _, rfl⟩ := mem_reset.mp second
  have apart : i ≠ j := by
    rintro rfl
    exact ne rfl
  simp only
  rcases Nat.lt_or_gt_of_ne apart with below | above
  · have := Nat.mul_le_mul_right size below
    rw [Nat.succ_mul] at this
    omega
  · have := Nat.mul_le_mul_right size above
    rw [Nat.succ_mul] at this
    omega

theorem reset_pairwise :
    (resetMemoryPage p size).Pairwise fun one other => one.offset + size ≤ other.offset := by
  rw [resetMemoryPage, List.pairwise_map]
  refine List.pairwise_lt_range.imp fun {i j} below => ?_
  have := Nat.mul_le_mul_right size (Nat.succ_le_of_lt below)
  rw [Nat.succ_mul] at this
  simp only
  omega

theorem reset_nodup (positive : 0 < size) : (resetMemoryPage p size).Nodup := by
  refine reset_pairwise.imp fun {one other} apart same => ?_
  rw [same] at apart
  omega

theorem reset_links {c : Nat} (large : 3 ≤ c) : Links p (2 ^ c) := by
  have word : 2 ^ 3 ≤ 2 ^ c := Nat.pow_le_pow_right (by decide) large
  refine ⟨fun b member => ?_, reset_pairwise.imp fun {one other} apart => by omega⟩
  obtain ⟨here, low, high⟩ := reset_inside member
  exact ⟨here, low, by omega⟩

end Blocks

/-! The invariant. -/

def World.liveIn (w : World) (p : Nat) : List Block :=
  (w.live.map Prod.fst).filter fun b => b.page = p

/-- The pages that belong to a page with this header. -/
def Page.span (page : Page) : Nat :=
  page.sizeClassPow2.elim (World.requiredPages page.sizeClassSize) fun _ => 1

def World.Head (w : World) (p : Nat) : Prop :=
  (w.page p).sizeClassPow2.isSome ∨ p ∈ w.overflowPageList

structure Inv (w : World) : Prop where
  unlocked : ∀ lock, w.held lock = false
  empty : w.emptyOverFlowPageList = []
  listed : ∀ c, ∀ p ∈ w.nonFullPageLists c, (w.page p).sizeClassPow2 = some c ∧
    (w.page p).isFull % 2 = 0
  nodup : ∀ c, (w.nonFullPageLists c).Nodup
  within : ∀ p, w.Head p → p + (w.page p).span ≤ w.numAllocatedPages
  apart : ∀ p q, w.Head p → w.Head q → p ≠ q → p + (w.page p).span ≤ q ∨ q + (w.page q).span ≤ p
  classes : ∀ p c, (w.page p).sizeClassPow2 = some c → 3 ≤ c ∧ c < maxAllocPow2SizeClass ∧
    ((w.page p).freeList ++ w.liveIn p).Perm (resetMemoryPage p (2 ^ c))
  live : ∀ region ∈ w.live, w.Head region.1.page ∧
    (∀ c, (w.page region.1.page).sizeClassPow2 = some c → region.2 ≤ 2 ^ c) ∧
    ((w.page region.1.page).sizeClassPow2 = none → region.1.offset = headerBytes ∧
      region.2 = (w.page region.1.page).sizeClassSize ∧ Several region.2)
  distinct : (w.live.map Prod.fst).Nodup

section Safe

variable {w : World}

theorem liveIn_mem {region : Block × Nat} (member : region ∈ w.live) :
    region.1 ∈ w.liveIn region.1.page := by
  rw [World.liveIn, List.mem_filter]
  exact ⟨List.mem_map_of_mem member, by simp⟩

theorem Inv.block (inv : Inv w) {region : Block × Nat} (member : region ∈ w.live) {c : Nat}
    (small : (w.page region.1.page).sizeClassPow2 = some c) :
    region.1 ∈ resetMemoryPage region.1.page (2 ^ c) :=
  (inv.classes _ c small).2.2.mem_iff.mp (List.mem_append_right _ (liveIn_mem member))

theorem required_fits {size : Nat} (few : size + usablePageSizeBytes ≤ 2 ^ 64) :
    headerBytes + size ≤ World.requiredPages size * pageSizeBytes := by
  have positive : 0 < usablePageSizeBytes := by decide
  have divided := Nat.div_add_mod (size + (usablePageSizeBytes - 1)) usablePageSizeBytes
  have rest := Nat.mod_lt (size + (usablePageSizeBytes - 1))
    (show 0 < usablePageSizeBytes by decide)
  have whole : usablePageSizeBytes + headerBytes = pageSizeBytes := rfl
  rw [World.requiredPages, Nat.mod_eq_of_lt (by omega), ← whole, Nat.add_mul, Nat.mul_add,
    Nat.one_mul, Nat.mul_comm _ usablePageSizeBytes]
  omega

/-- Each region lies in the pages of its header. -/
theorem Inv.extent (inv : Inv w) {region : Block × Nat} (member : region ∈ w.live) :
    region.1.page * pageSizeBytes ≤ start region.1 ∧
      start region.1 + region.2 ≤ (region.1.page + (w.page
        region.1.page).span) * pageSizeBytes := by
  obtain ⟨_, small, large⟩ := inv.live region member
  refine ⟨Nat.le_add_right _ _, ?_⟩
  rw [start, Nat.add_mul]
  cases kind : (w.page region.1.page).sizeClassPow2 with
  | some c =>
      obtain ⟨_, _, inside⟩ := reset_inside (inv.block member kind)
      have fits := small c kind
      rw [Page.span, kind, Option.elim_some, Nat.one_mul]
      omega
  | none =>
      obtain ⟨offset, size, several⟩ := large kind
      have fits := required_fits several.2
      rw [Page.span, kind, Option.elim_none, ← size, offset]
      omega

theorem Inv.disjoint (inv : Inv w) {one other : Block × Nat} (first : one ∈ w.live)
    (second : other ∈ w.live) (ne : one.1 ≠ other.1) : Disjoint one other := by
  obtain ⟨low, high⟩ := inv.extent first
  obtain ⟨low', high'⟩ := inv.extent second
  obtain ⟨head, small, large⟩ := inv.live one first
  obtain ⟨head', small', large'⟩ := inv.live other second
  by_cases same : one.1.page = other.1.page
  · cases kind : (w.page one.1.page).sizeClassPow2 with
    | some c =>
        have block := inv.block first kind
        have kind' : (w.page other.1.page).sizeClassPow2 = some c := by rw [← same]; exact kind
        have block' := inv.block second kind'
        rw [← same] at block'
        have fits := small c kind
        have fits' := small' c kind'
        rw [Disjoint, start, start, same]
        rcases reset_apart block block' ne with before | behind
        · exact .inl (by omega)
        · exact .inr (by omega)
    | none =>
        have kind' : (w.page other.1.page).sizeClassPow2 = none := by rw [← same]; exact kind
        have offset := (large kind).1
        have offset' := (large' kind').1
        obtain ⟨⟨page, place⟩, size⟩ := one
        obtain ⟨⟨page', place'⟩, size'⟩ := other
        simp only at same offset offset' ne
        rw [same, offset, offset'] at ne
        exact absurd rfl ne
  · rcases inv.apart _ _ head head' same with before | behind
    · have := Nat.mul_le_mul_right pageSizeBytes before
      exact .inl (by omega)
    · have := Nat.mul_le_mul_right pageSizeBytes behind
      exact .inr (by omega)

end Safe

end SetBench.PmemSizes
