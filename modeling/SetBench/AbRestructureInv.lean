import SetBench.AbRestructure

/-! The shape that every replacement keeps, whatever node it is hung under: children of a
node other than the entry are on one weighted level, which a node keeps for life. -/
namespace SetBench.AbRestructure

open Transition
open AbPersist (Word clean markDirty entry)

variable {degree : Nat} {w after : World} {tid : Nat} {height tall : Nat → Nat} {info : Info}

/-- What a pointer in a slot of `n` may be. -/
structure Child (height : Nat → Nat) (w : World) (n c : Nat) : Prop where
  notEntry : c ≠ entry
  born : c < w.fresh
  level : n ≠ entry → height c + (w.weight c).toNat = height n
  top : n = entry → w.weight c = true ∧ (w.leaf c = false → 2 ≤ w.size c)

structure Shape (height : Nat → Nat) (w : World) : Prop where
  entry_leaf : w.leaf entry = false
  entry_size : w.size entry = 1
  entry_weight : w.weight entry = true
  born : entry < w.fresh
  tag : ∀ n, n < w.fresh → w.weight n = false → w.leaf n = false
  inner : ∀ n, n < w.fresh → w.leaf n = false → 1 ≤ w.size n
  ground : ∀ n, n < w.fresh → (w.leaf n = true ↔ height n = 0)
  slots : ∀ n, n < w.fresh → w.leaf n = false → ∀ i, i < w.size n →
    Child height w n (w.slot n i).value

structure Real (w : World) (p : Word) : Prop where
  clean : p.dirty = false
  born : p.value < w.fresh

structure Inner (w : World) (p : Word) : Prop extends Real w p where
  inner : w.leaf p.value = false

def Grand (height : Nat → Nat) (w : World) (info : Info) : Option Word → Prop
  | none => info.parent = AbPersist.clean entry
  | some g =>
      Inner w g ∧ info.parentIndex < w.size g.value ∧ Child height w g.value info.parent.value

structure InfoOk (height : Nat → Nat) (w : World) (info : Info) : Prop where
  clean : info.node.dirty = false
  child : Child height w info.parent.value info.node.value
  parent : Inner w info.parent
  index : info.nodeIndex < w.size info.parent.value
  grand : Grand height w info info.gParent

/-- The parent in a cleanup has passed its tests. -/
def Passed (w : World) (info : Info) : Prop :=
  w.weight info.parent.value = true ∧ (info.parent.value ≠ entry → 2 ≤ w.size info.parent.value)

def FixOk (height : Nat → Nat) (w : World) : Fix → Prop
  | .overflow info => InfoOk height w info ∧ w.leaf info.node.value = true
  | .tag info => InfoOk height w info ∧ Passed w info ∧ w.weight info.node.value = false
  | .underfull info sibling =>
      InfoOk height w info ∧ Passed w info ∧ w.weight info.node.value = true ∧
      info.parent.value ≠ entry ∧ sibling.dirty = false ∧ Child height w info.parent.value
        sibling.value

def Check.word : Check → Option Word
  | .acquire p | .unmarked p => p
  | .light p | .weighed p => some p

structure LockOk (w : World) (t : Nat) (fix : Fix) (todo : List Check) (held : List Word) :
    Prop where
  mine : ∀ p ∈ held, Real w p ∧ w.lock p.value = some t
  once : (held.map Word.value).Nodup
  owned : ∀ p ∈ fix.reads, Check.acquire p ∈ todo ∨ ∃ q ∈ held, p = some q
  real : ∀ check ∈ todo, ∃ q, check.word = some q ∧ Real w q
  weighed : ∀ info sibling, fix = .underfull info sibling → Check.weighed sibling ∈ todo ∨
    w.weight sibling.value = true

def unlocks (acts : List Act) : List Nat :=
  acts.filterMap fun act => match act with
    | .unlock p => some p.value
    | _ => none

/-- A pointer stored with its mark is stored without it next, before its node is released. -/
def RunOk (height : Nat → Nat) (w : World) : List Act → Prop
  | [] => True
  | .store g i x :: rest =>
      Inner w g ∧ i < w.size g.value ∧ Child height w g.value x.value ∧ g.value ∈ unlocks rest ∧
      (x.dirty = true → ∃ y tail, rest = .store g i y :: tail ∧ y.dirty = false) ∧
      RunOk height w rest
  | .mark p :: rest => Real w p ∧ RunOk height w rest
  | .unlock p :: rest => Real w p ∧ p.value ∉ unlocks rest ∧ RunOk height w rest

def Pc.Ok (height : Nat → Nat) (w : World) (t : Nat) : Pc → Prop
  | .idle | .start _ => True
  | .at job info => InfoOk height w info ∧ (job = .cleanup → Passed w info)
  | .root info => InfoOk height w info ∧ Passed w info ∧ w.weight info.node.value = true
  | .next info => InfoOk height w info ∧ w.weight info.node.value = true ∧
      (w.leaf info.node.value = false → 2 ≤ w.size info.node.value)
  | .sibling info =>
      InfoOk height w info ∧ Passed w info ∧ w.weight info.node.value = true ∧
        info.parent.value ≠ entry
  | .lockLeaf _ info => InfoOk height w info ∧ w.leaf info.node.value = true
  | .leaf _ info =>
      InfoOk height w info ∧ w.leaf info.node.value = true ∧ w.lock info.node.value = some t
  | .locking fix todo held => FixOk height w fix ∧ LockOk w t fix todo held
  | .run acts _ => RunOk height w acts ∧ ∀ n ∈ unlocks acts, w.lock n = some t

/-- A slot is dirty only while its writer is between the two stores. -/
structure Inv (height : Nat → Nat) (w : World) : Prop where
  shape : Shape height w
  dirty : ∀ n i, (w.slot n i).dirty = true → ∃ t g x rest next, w.lock n = some t ∧
    w.pc t = .run (.store g i x :: rest) next ∧ g.value = n ∧ x.dirty = false
  unused : ∀ n, w.fresh ≤ n → w.lock n = none
  threads : ∀ t, (w.pc t).Ok height w t

theorem initial_inv : Inv (fun n => if n = entry then 1 else 0) initial := by
  refine ⟨⟨rfl, rfl, rfl, by decide, ?_, ?_, ?_, ?_⟩, ?_, fun _ _ => rfl, fun _ => trivial⟩
  · intro _ _ tagged
    cases tagged
  · intro n less inner
    have less : n < 2 := less
    interval_cases n
    · exact le_rfl
    · cases inner
  · intro n less
    have less : n < 2 := less
    interval_cases n <;> simp [initial, entry]
  · intro n less inner i bound
    have less : n < 2 := less
    interval_cases n
    · have first : (initial.slot 0 i).value = 1 := rfl
      rw [first]
      exact ⟨by decide, by decide, fun no => absurd rfl no,
        fun _ => ⟨rfl, by simp [initial, clean]⟩⟩
    · cases inner
  · intro n i marked
    cases marked

/-! A sound state is safe. -/

theorem Child.real {n c : Nat} (child : Child height w n c) {p : Word} (same : p.value = c)
    (unmarked : p.dirty = false) : Real w p :=
  ⟨unmarked, same ▸ child.born⟩

theorem InfoOk.node (ok : InfoOk height w info) : Real w info.node :=
  ok.child.real rfl ok.clean

theorem InfoOk.grand_some (ok : InfoOk height w info) (other : info.parent.value ≠ entry) :
    ∃ g, info.gParent = some g ∧ Inner w g ∧ info.parentIndex < w.size g.value ∧
      Child height w g.value info.parent.value := by
  have grand := ok.grand
  cases found : info.gParent with
  | none =>
      rw [found] at grand
      exact absurd (congrArg Word.value grand) other
  | some g =>
      rw [found] at grand
      exact ⟨g, rfl, grand⟩

theorem siblingIndex_lt (ok : InfoOk height w info) (passed : Passed w info)
    (other : info.parent.value ≠ entry) :
    info.siblingIndex < w.size info.parent.value := by
  have enough := passed.2 other
  have index := ok.index
  unfold Info.siblingIndex
  split <;> omega

-- The parent of a tagged node is not the entry.
theorem InfoOk.tag_parent (ok : InfoOk height w info) (tagged : w.weight info.node.value = false) :
    info.parent.value ≠ entry := by
  intro same
  have heavy := (ok.child.top same).1
  rw [tagged] at heavy
  cases heavy

theorem FixOk.reads (fix : Fix) (ok : FixOk height w fix) :
    ∀ p ∈ fix.reads, ∃ q, p = some q ∧ Real w q := by
  cases fix with
  | overflow info =>
      intro p member
      simp only [Fix.reads, List.mem_cons, List.not_mem_nil, or_false] at member
      rcases member with rfl | rfl
      · exact ⟨_, rfl, ok.1.node⟩
      · exact ⟨_, rfl, ok.1.parent.toReal⟩
  | tag info =>
      obtain ⟨g, found, inner, _⟩ := ok.1.grand_some (ok.1.tag_parent ok.2.2)
      intro p member
      simp only [Fix.reads, List.mem_cons, List.not_mem_nil, or_false] at member
      rcases member with rfl | rfl | rfl
      · exact ⟨_, rfl, ok.1.node⟩
      · exact ⟨_, rfl, ok.1.parent.toReal⟩
      · exact ⟨g, found, inner.toReal⟩
  | underfull info sibling =>
      obtain ⟨info_ok, passed, heavy, other, unmarked, child⟩ := ok
      obtain ⟨g, found, inner, _⟩ := info_ok.grand_some other
      intro p member
      simp only [Fix.reads, List.mem_cons, List.not_mem_nil, or_false] at member
      rcases member with rfl | rfl | rfl | rfl
      · exact ⟨_, rfl, info_ok.node⟩
      · exact ⟨_, rfl, info_ok.parent.toReal⟩
      · exact ⟨g, found, inner.toReal⟩
      · exact ⟨_, rfl, child.real rfl unmarked⟩

theorem Pc.Ok.touched (shape : Shape height w) {t : Nat} {pc : Pc} (ok : pc.Ok height w t) :
    ∀ p ∈ touchedAt pc, ∃ q, p = some q ∧ Real w q := by
  have one {q : Word} (real : Real w q) : ∀ p ∈ [some q], ∃ q, p = some q ∧ Real w q := by
    intro p member
    exact ⟨q, List.mem_singleton.mp member, real⟩
  have top : Real w (clean entry) := ⟨rfl, shape.born⟩
  cases pc with
  | idle => rintro _ ⟨⟩
  | start job => exact one top
  | «at» job info => exact one ok.1.node
  | root info =>
      intro p member
      simp only [touchedAt, List.mem_cons, List.not_mem_nil, or_false] at member
      rcases member with rfl | rfl
      · exact ⟨_, rfl, ok.1.node⟩
      · exact ⟨_, rfl, top⟩
  | next info => exact one ok.1.node
  | sibling info => exact one ok.1.parent.toReal
  | lockLeaf job info => exact one ok.1.node
  | leaf job info => exact one ok.1.node
  | locking fix todo held =>
      cases todo with
      | nil => exact FixOk.reads fix ok.1
      | cons check rest =>
          obtain ⟨q, same, real⟩ := ok.2.real check List.mem_cons_self
          have only : touchedAt (.locking fix (check :: rest) held) = [some q] := by
            rw [← same]
            cases check <;> rfl
          rw [only]
          exact one real
  | run acts next =>
      cases acts with
      | nil => rintro _ ⟨⟩
      | cons act rest =>
          cases act with
          | store g i x => exact one ok.1.1.toReal
          | mark p => exact one ok.1.1
          | unlock p => exact one ok.1.1

theorem Inv.safe (inv : Inv height w) (event : Event) (steady : Steady w event) :
    Safe degree w event := by
  have ok := inv.threads event.tid
  refine ⟨?_, ?_, ?_⟩
  · intro p member
    obtain ⟨q, same, real⟩ := ok.touched inv.shape p member
    exact ⟨q, same, real.clean, real.born⟩
  · rintro info (⟨here, tagged⟩ | ⟨here, differs⟩)
    · rw [here] at ok
      obtain ⟨g, found, _⟩ := ok.1.grand_some (ok.1.tag_parent tagged)
      exact found ▸ rfl
    · rw [here] at ok
      unfold Steady at steady
      rw [here] at steady
      have other : info.parent.value ≠ entry := by
        intro same
        refine differs (steady ?_).symm
        have unmarked := ok.1.parent.clean
        cases held : info.parent with
        | mk value dirty =>
            rw [held] at same unmarked
            simp only at same unmarked
            rw [same, unmarked]
            rfl
      obtain ⟨g, found, _⟩ := ok.1.grand_some other
      exact found ▸ rfl
  · intro info here
    rw [here] at ok
    exact siblingIndex_lt ok.1 ok.2.1 ok.2.2.2

end SetBench.AbRestructure
