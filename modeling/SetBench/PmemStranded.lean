import SetBench.PmemAllocSteps

/-! Where a freed block is found again. The owner looks at the two free lists of a page first and
raises isFull later; a free pushes its block first and looks at isFull later. -/
namespace SetBench.PmemAlloc

open Transition

variable {T : Type}

theorem initial_inv : Inv (initial : World T) where
  num := fun _ _ => rfl
  fresh := fun _ => ⟨fun _ => rfl, fun _ => rfl⟩
  listed := fun s is_ p => by
    cases s with
    | nonFull | recheck | full =>
        exact ⟨fun member => absurd member List.not_mem_nil, fun same => by cases same⟩
    | fresh | filling | filled | moving => exact is_.elim
  nodup := fun s => by cases s <;> exact List.nodup_nil
  home := fun _ _ same => by cases same
  even := fun _ _ => rfl
  odd := fun _ _ either => by rcases either with same | same <;> cases same
  hands := fun _ _ same => by cases same
  apart := fun _ _ _ same => by cases same
  single := fun _ _ _ same => by cases same
  notice := fun _ odd => absurd (show 0 % 2 = 1 from odd) (by decide)
  threads := fun _ => trivial

variable [DecidableEq T]

theorem step_inv (before : World T) (event : Event T) (after : World T) (inv : Inv before)
    (kept : NotPushedMeanwhile before event) (stepped : step before event = some after) :
    Inv after := by
  cases event with
  | alloc tid size =>
      obtain ⟨⟨idle, -⟩, ⟨⟩⟩ := Option.ite_none_right_eq_some.mp stepped
      exact inv.goto (by rw [idle]; rfl) (by rw [idle]; rfl) (by rw [idle]; rfl)
        (fun p _ sees => by rw [idle] at sees; exact sees.elim) trivial
  | free tid obj =>
      obtain ⟨⟨idle, -⟩, found⟩ := Option.ite_none_right_eq_some.mp stepped
      obtain ⟨o, owned, rfl⟩ := Option.map_eq_some_iff.mp found
      split
      · exact inv.unshared (fun p v sees => by rw [idle] at sees; exact sees)
          ⟨rfl, rfl, rfl, rfl, rfl, rfl, rfl, rfl, rfl, rfl⟩ (by rw [idle]; rfl)
          (by rw [idle]; rfl) (by rw [idle]; rfl) owned
      · exact inv.unshared (fun p v sees => by rw [idle] at sees; exact sees)
          ⟨rfl, rfl, rfl, rfl, rfl, rfl, rfl, rfl, rfl, rfl⟩ (by rw [idle]; rfl)
          (by rw [idle]; rfl) (by rw [idle]; rfl) owned
  | move tid =>
      simp only [step, Option.or_eq_some_iff] at stepped
      rcases stepped with moved | ⟨-, moved⟩
      · exact inv.alloc kept moved
      · exact inv.free moved

/-- With no call in progress, what lies on a full-page list has no free block, and every page
with a free block is on the non-full or the recheck list of its owner, where alloc looks. -/
structure NoneStranded (w : World T) : Prop where
  full : ∀ t, ∀ p ∈ w.fullPageList t, w.freeList p = [] ∧ w.crossThreadFreeList p = []
  found : ∀ p, w.freeList p ≠ [] ∨ w.crossThreadFreeList p ≠ [] → ∀ o, w.ownerTid p = some o →
    ∃ c, p ∈ w.nonFullPageLists o c ∨ p ∈ w.recheckPageLists o c

omit [DecidableEq T] in
theorem Inv.none_stranded {w : World T} (inv : Inv w) (idle : ∀ t, w.pc t = .idle) :
    NoneStranded w := by
  have empty (p : Nat) (t : T) (here : w.spot p = .full t) : w.freeList p = [] ∧
    w.crossThreadFreeList p = [] := by
    by_contra some_
    have odd : w.isFull p % 2 = 1 := by
      refine (inv.odd p t (.inl here)).resolve_right ?_
      rintro ⟨u, claims⟩
      rw [idle u] at claims
      cases claims
    obtain ⟨u, sees⟩ := inv.notice p odd (by rw [← not_and_or]; exact some_)
    rw [idle u] at sees
    exact sees
  refine ⟨fun t p member => empty p t ((inv.listed (.full t) trivial p).mp member),
    fun p blocks o owned => ?_⟩
  have home := inv.home p
  have hands := inv.hands p
  cases here : w.spot p with
  | fresh => cases ((inv.fresh p).mp here).symm.trans owned
  | nonFull t c =>
      rw [here] at home
      cases (home t rfl).symm.trans owned
      exact ⟨c, .inl ((inv.listed (.nonFull o c) trivial p).mpr here)⟩
  | recheck t c =>
      rw [here] at home
      cases (home t rfl).symm.trans owned
      exact ⟨c, .inr ((inv.listed (.recheck o c) trivial p).mpr here)⟩
  | full t =>
      obtain ⟨none_, none'⟩ := empty p t here
      exact (blocks.elim (fun some_ => some_ none_) fun some_ => some_ none').elim
  | filling t | filled t | moving t =>
      rw [here] at hands
      have held := hands t rfl
      rw [idle t] at held
      cases held

/-- In every run in which no free pushes onto a page between its owner's look at the free lists and
the raising of isFull, no free block is stranded whenever no call is in progress. -/
theorem no_stranded_block {events : List (Event T)} {w : World T}
    (run : Run step NotPushedMeanwhile initial events w) (idle : ∀ t, w.pc t = .idle) :
    NoneStranded w :=
  (run_invariant Inv initial_inv step_inv run).none_stranded idle

def moves (tid : Fin 2) (count : Nat) : List (Event (Fin 2)) := List.replicate count (.move tid)

-- Thread 0 takes all 127 blocks of a page of blocks of 2^15 bytes.
def firstPage : List (Event (Fin 2)) :=
  [.alloc 0 (2 ^ 15)] ++ moves 0 5 ++ (List.replicate 126 [.alloc 0 (2 ^ 15), .move 0]).flatten

-- Thread 0 looks for another block, finds the page full, and raises isFull after `between`.
def nextPage (between : List (Event (Fin 2))) : List (Event (Fin 2)) :=
  firstPage ++ [.alloc 0 (2 ^ 15)] ++ moves 0 2 ++ between ++ moves 0 10

def freeFirst : List (Event (Fin 2)) := .free 1 ⟨0, headerBytes⟩ :: moves 1 4

theorem both_idle {w : World (Fin 2)} (first : w.pc 0 = .idle) (second : w.pc 1 = .idle)
    (t : Fin 2) : w.pc t = .idle := by
  match t with
  | 0 => exact first
  | 1 => exact second

-- Freed after the page has gone to the full list, the block takes the page to the recheck list.
theorem freed_page_found :
    ∃ w : World (Fin 2), Run step NotPushedMeanwhile initial
      (nextPage [] ++ freeFirst ++ moves 1 8) w ∧
    w.recheckPageLists 0 15 = [0] ∧ NoneStranded w := by
  have replayed : (replay step NotPushedMeanwhile (nextPage [] ++ freeFirst ++ moves 1 8)
    (initial : World (Fin 2))).map (fun w =>
      (decide (w.pc 0 = .idle), decide (w.pc 1 = .idle), w.recheckPageLists 0 15)) = some (true,
      true, [0]) := by
    decide +kernel
  obtain ⟨w, same, values⟩ := Option.map_eq_some_iff.mp replayed
  simp only [Prod.mk.injEq, decide_eq_true_eq] at values
  have run := run_of_replay _ same
  exact ⟨w, run, values.2.2, no_stranded_block run (both_idle values.1 values.2.1)⟩

-- Thread 1 frees the first block of the page after thread 0 has looked at the crossThreadFreeList.
theorem freed_block_stranded :
    ¬ ∀ (events : List (Event (Fin 2))) (w : World (Fin 2)), Run step Transition.free initial
      events w →
    (∀ t, w.pc t = .idle) → ∀ t, ∀ p ∈ w.fullPageList t, w.freeList p = [] ∧
    w.crossThreadFreeList p = [] := by
  intro always
  have replayed : (replay step Transition.free (nextPage freeFirst) (initial : World (Fin 2))).map
    (fun w =>
      (decide (w.pc 0 = .idle), decide (w.pc 1 = .idle), w.fullPageList 0,
        w.crossThreadFreeList 0)) = some (true, true, [0], [⟨0, headerBytes⟩]) := by
    decide +kernel
  obtain ⟨w, same, values⟩ := Option.map_eq_some_iff.mp replayed
  simp only [Prod.mk.injEq, decide_eq_true_eq] at values
  obtain ⟨first, second, listed, blocks⟩ := values
  have empty := (always _ w (run_of_replay _ same) (both_idle first second) 0 0
    (by rw [listed]; exact List.mem_singleton_self 0)).2
  rw [blocks] at empty
  cases empty

end SetBench.PmemAlloc
