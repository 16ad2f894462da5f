import Mathlib
import SetBench.AbRestructureSafe

/-! An order on the nodes in which every thread takes its locks. A node has an interval
and a rank for life: the children of a node divide its interval from left to right, and
rank below it. -/
namespace SetBench.AbRestructure

open Transition
open AbPersist (Word clean markDirty entry)

variable {degree : Nat} {w after : World} {tid : Nat} {height : Nat → Nat} {info : Info}

/-- `cut n i` is the left end of the slot `i` of `n`. -/
structure Rank where
  lo : Nat → ℚ
  hi : Nat → ℚ
  up : Nat → ℚ
  cut : Nat → Nat → ℚ

variable {r late : Rank}

structure Placed (r : Rank) (n i c : Nat) : Prop where
  inside : n ≠ entry → r.lo c = r.cut n i ∧ r.hi c = r.cut n (i + 1) ∧ r.up c < r.up n
  top : n = entry → r.lo c = 0 ∧ r.hi c = 1

structure Ranked (r : Rank) (w : World) : Prop where
  width : ∀ n, n < w.fresh → n ≠ entry → r.lo n < r.hi n
  first : ∀ n, n < w.fresh → w.leaf n = false → n ≠ entry → r.cut n 0 = r.lo n
  last : ∀ n, n < w.fresh → w.leaf n = false → n ≠ entry → r.cut n (w.size n) = r.hi n
  rising : ∀ n, n < w.fresh → w.leaf n = false → n ≠ entry → ∀ i, i < w.size n →
    r.cut n i < r.cut n (i + 1)
  slots : ∀ n, n < w.fresh → w.leaf n = false → ∀ i, i < w.size n → Placed r n i (w.slot n i).value

/-- The lock order: further left first, then further down; the entry is last. -/
def Before (r : Rank) (n m : Nat) : Prop :=
  n ≠ entry ∧ (m = entry ∨ r.hi n < r.hi m ∨ (r.hi n = r.hi m ∧ r.up n < r.up m))

theorem Before.irrefl (n : Nat) : ¬ Before r n n := by
  rintro ⟨other, same | less | ⟨_, less⟩⟩
  · exact other same
  · exact lt_irrefl _ less
  · exact lt_irrefl _ less

theorem Before.trans {n m k : Nat} (one : Before r n m) (two : Before r m k) : Before r n k := by
  refine ⟨one.1, ?_⟩
  rcases two.2 with top | less | ⟨same, less⟩
  · exact .inl top
  · rcases one.2 with top | before | ⟨equal, _⟩
    · exact absurd top two.1
    · exact .inr (.inl (before.trans less))
    · exact .inr (.inl (equal.trans_lt less))
  · rcases one.2 with top | before | ⟨equal, lower⟩
    · exact absurd top two.1
    · exact .inr (.inl (before.trans_eq same))
    · exact .inr (.inr ⟨equal.trans same, lower.trans less⟩)

section Cuts

variable {n : Nat}

theorem Ranked.cut_le (ranked : Ranked r w) (less : n < w.fresh) (inner : w.leaf n = false)
    (other : n ≠ entry) {i : Nat} (bound : i ≤ w.size n) : r.cut n i ≤ r.hi n := by
  rw [← ranked.last n less inner other]
  -- from the right end to the left
  induction bound using Nat.decreasingInduction with
  | self => exact le_rfl
  | of_succ i within ih => exact (ranked.rising n less inner other i within).le.trans ih

theorem Placed.before (ranked : Ranked r w) (less : n < w.fresh) (inner : w.leaf n = false)
    {i c : Nat} (bound : i < w.size n) (placed : Placed r n i c) (other : c ≠ entry) :
    Before r c n := by
  refine ⟨other, ?_⟩
  by_cases top : n = entry
  · exact .inl top
  · obtain ⟨_, hi, up⟩ := placed.inside top
    rcases (ranked.cut_le less inner top (Nat.succ_le_of_lt bound)).lt_or_eq with less | same
    · exact .inr (.inl (hi.trans_lt less))
    · exact .inr (.inr ⟨hi.trans same, up⟩)

theorem Placed.left_before (ranked : Ranked r w) (less : n < w.fresh) (inner : w.leaf n = false)
    (other : n ≠ entry) {i c d : Nat} (bound : i + 1 < w.size n) (left : Placed r n i c)
    (right : Placed r n (i + 1) d) (notEntry : c ≠ entry) : Before r c d := by
  refine ⟨notEntry, .inr (.inl ?_)⟩
  rw [(left.inside other).2.1, (right.inside other).2.1]
  exact ranked.rising n less inner other (i + 1) bound

end Cuts

/-! What a thread knows of the order, and what it holds. -/

structure InfoRank (r : Rank) (info : Info) : Prop where
  node : Placed r info.parent.value info.nodeIndex info.node.value
  parent : ∀ g, info.gParent = some g → Placed r g.value info.parentIndex info.parent.value

def FixRank (r : Rank) : Fix → Prop
  | .overflow info | .tag info => InfoRank r info
  | .underfull info sibling =>
      InfoRank r info ∧ Placed r info.parent.value info.siblingIndex sibling.value

def acquires (todo : List Check) : List Nat :=
  todo.filterMap fun check => match check with
    | .acquire p => p.map Word.value
    | _ => none

def Pc.held : Pc → List Nat
  | .leaf _ info => [info.node.value]
  | .locking _ _ held => held.map Word.value
  | .run acts _ => unlocks acts
  | _ => []

/-- The locks held and the locks to come, in the order they are taken, ascend. -/
def Pc.Ranked (r : Rank) : Pc → Prop
  | .idle | .start _ => True
  | .at _ info | .root info | .next info | .sibling info | .lockLeaf _ info | .leaf _ info =>
      InfoRank r info
  | .locking fix todo held =>
      FixRank r fix ∧ ((held.map Word.value).reverse ++ acquires todo).Pairwise (Before r)
  | .run acts _ => ∀ g i x, Act.store g i x ∈ acts → Placed r g.value i x.value

structure Ordered (r : Rank) (w : World) : Prop where
  ranked : Ranked r w
  held : ∀ n t, w.lock n = some t → n ∈ (w.pc t).held
  threads : ∀ t, (w.pc t).Ranked r

def World.waits (w : World) (t : Nat) : Option Nat :=
  match w.pc t with
  | .lockLeaf _ info => some info.node.value
  | .locking _ (.acquire p :: _) _ => p.map Word.value
  | _ => none

/-- Thread `t` waits in Lock::acquire for a node that `u` has locked. -/
def WaitsFor (w : World) (t u : Nat) : Prop := ∃ n, w.waits t = some n ∧ w.lock n = some u

theorem Ordered.waits_above (ordered : Ordered r w) {t n m : Nat} (waits : w.waits t = some n)
    (held : w.lock m = some t) :
    Before r m n := by
  have mine := ordered.threads t
  have among := ordered.held m t held
  unfold World.waits at waits
  split at waits
  · rename_i here
    rw [here] at among
    cases among
  · rename_i fix p rest held here
    rw [here] at among mine
    have pairs := mine.2
    obtain ⟨q, same, rfl⟩ := Option.map_eq_some_iff.mp waits
    subst same
    rw [List.pairwise_append] at pairs
    refine pairs.2.2 m (List.mem_reverse.mpr among) q.value ?_
    exact List.mem_cons_self
  · cases waits

/-- Along a chain of waiting threads the locks waited for ascend. -/
theorem Ordered.no_cycle (ordered : Ordered r w) (t : Nat) :
    ¬ Relation.TransGen (WaitsFor w) t t := by
  have ascends {t u : Nat} (chain : Relation.TransGen (WaitsFor w) t u) : ∀ n, w.waits t = some n →
      ∃ m, w.lock m = some u ∧ (m = n ∨ Before r n m) := by
    induction chain with
    | single step =>
        obtain ⟨n, waits, held⟩ := step
        intro k same
        cases waits.symm.trans same
        exact ⟨n, held, .inl rfl⟩
    | tail _ step ih =>
        obtain ⟨k, waits, held⟩ := step
        intro n first
        obtain ⟨m, lock, order⟩ := ih n first
        have above := ordered.waits_above waits lock
        refine ⟨k, held, .inr ?_⟩
        rcases order with rfl | order
        · exact above
        · exact order.trans above
  intro cycle
  obtain ⟨n, waits⟩ : ∃ n, w.waits t = some n := by
    obtain ⟨_, ⟨n, waits, _⟩, _⟩ := Relation.TransGen.head'_iff.mp cycle
    exact ⟨n, waits⟩
  obtain ⟨m, held, order⟩ := ascends cycle n waits
  have above := ordered.waits_above waits held
  rcases order with rfl | order
  · exact Before.irrefl m above
  · exact Before.irrefl m (above.trans order)

/-! Steps that make no node. -/

theorem Ordered.goto {pc : Pc} (ordered : Ordered r w) (pcs : after.pc = w.pc)
    (ranked : Ranked r after)
    (others : ∀ n t, t ≠ tid → after.lock n = some t → w.lock n = some t)
    (held : ∀ n, after.lock n = some tid → n ∈ pc.held) (mine : pc.Ranked r) :
    Ordered r (after.goto tid pc) := by
  refine ⟨⟨ranked.width, ranked.first, ranked.last, ranked.rising, ranked.slots⟩, ?_, fun t => ?_⟩
  · intro n t locked
    by_cases owner : t = tid
    · subst owner
      have here : (after.goto t pc).pc t = pc := Function.update_self ..
      rw [here]
      exact held n locked
    · have there : (after.goto tid pc).pc t = w.pc t :=
        (Function.update_of_ne owner ..).trans (congrFun pcs t)
      rw [there]
      exact ordered.held n t (others n t owner locked)
  · by_cases owner : t = tid
    · subst owner
      have here : (after.goto t pc).pc t = pc := Function.update_self ..
      rw [here]
      exact mine
    · have there : (after.goto tid pc).pc t = w.pc t :=
        (Function.update_of_ne owner ..).trans (congrFun pcs t)
      rw [there]
      exact ordered.threads t

theorem Ordered.moved {pc : Pc} (ordered : Ordered r w)
    (held : ∀ n ∈ (w.pc tid).held, n ∈ pc.held) (mine : pc.Ranked r) :
    Ordered r (w.goto tid pc) :=
  ordered.goto rfl ordered.ranked (fun _ _ _ locked => locked)
    (fun n locked => held n (ordered.held n tid locked)) mine

theorem Ordered.acquire (ordered : Ordered r w) {n : Nat} {pc : Pc} (held : n ∈ pc.held)
    (kept : ∀ m ∈ (w.pc tid).held, m ∈ pc.held) (mine : pc.Ranked r)
    (stepped : w.acquire tid n pc = some after) : Ordered r after := by
  simp only [World.acquire] at stepped
  split at stepped
  · cases stepped
    set locked : World := { w with lock := Function.update w.lock n (some tid) } with def_
    have stays {m t : Nat} (now : locked.lock m = some t) (other : m ≠ n) : w.lock m = some t :=
      (Function.update_of_ne other ..).symm.trans now
    have ranked := ordered.ranked
    refine ordered.goto rfl ⟨ranked.width, ranked.first, ranked.last, ranked.rising, ranked.slots⟩
      ?_ ?_ mine
    · intro m t other now
      refine stays now fun same => ?_
      rw [same] at now
      have owner : locked.lock n = some tid := Function.update_self ..
      exact other (Option.some.inj (now.symm.trans owner))
    · intro m now
      by_cases same : m = n
      · rw [same]
        exact held
      · exact kept m (ordered.held m tid (stays now same))
  · cases stepped

theorem Ordered.act (ordered : Ordered r w) {act : Act} {rest : List Act} {next : Option Job}
    (here : w.pc tid = .run (act :: rest) next) :
    Ordered r ((w.act act).goto tid (.run rest next)) := by
  have mine := ordered.threads tid
  rw [here] at mine
  have ranked := ordered.ranked
  have tail : (Pc.run rest next).Ranked r := fun g i x member =>
    mine g i x (List.mem_cons_of_mem _ member)
  have held (n : Nat) (locked : w.lock n = some tid) : n ∈ unlocks (act :: rest) := by
    have among := ordered.held n tid locked
    rw [here] at among
    exact among
  cases act with
  | store g i x =>
      refine ordered.goto rfl ⟨ranked.width, ranked.first, ranked.last, ranked.rising, ?_⟩
        (fun _ _ _ locked => locked) held tail
      intro n less inner j bound
      have old := ranked.slots n less inner j bound
      by_cases same : n = g.value ∧ j = i
      · obtain ⟨rfl, rfl⟩ := same
        have now : (w.act (.store g j x)).slot g.value j = x := by simp [World.act]
        rw [now]
        exact mine g j x List.mem_cons_self
      · have stays : (w.act (.store g i x)).slot n j = w.slot n j := by
          by_cases equal : n = g.value
          · subst equal
            have apart : j ≠ i := fun equal => same ⟨rfl, equal⟩
            simp [World.act, apart]
          · simp [World.act, equal]
        rw [stays]
        exact old
  | mark p =>
      exact ordered.goto rfl ⟨ranked.width, ranked.first, ranked.last, ranked.rising, ranked.slots⟩
        (fun _ _ _ locked => locked) held tail
  | unlock p =>
      have stays {m t : Nat} (now : (w.act (.unlock p)).lock m = some t) : m ≠ p.value ∧ w.lock m =
        some t := by
        have other : m ≠ p.value := by
          intro same
          rw [same] at now
          have open_ : (w.act (.unlock p)).lock p.value = none := Function.update_self ..
          cases open_.symm.trans now
        exact ⟨other, (Function.update_of_ne other ..).symm.trans now⟩
      refine ordered.goto rfl ⟨ranked.width, ranked.first, ranked.last, ranked.rising, ranked.slots⟩
        (fun _ _ _ now => (stays now).2) (fun n now => ?_) tail
      exact (List.mem_cons.mp (held n (stays now).2)).resolve_left (stays now).1

end SetBench.AbRestructure
