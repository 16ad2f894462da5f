import Mathlib

/-! Blocks chained through their next fields, each of which is in the chain, in the
hands of one call, or outside. Nothing here depends on how the head is exchanged. -/
namespace SetBench.LinkedBlocks

universe u v
variable {Block : Type u} {Thread : Type v}

inductive Chain (next : Block → Option Block) : Option Block → List Block → Prop where
  | nil : Chain next none []
  | cons {b : Block} {rest : List Block} (tail : Chain next (next b) rest) :
    Chain next (some b) (b :: rest)

theorem Chain.congr {next other : Block → Option Block} {head : Option Block}
    {blocks : List Block} (chain : Chain next head blocks) (same : ∀ b ∈ blocks, other b = next b) :
    Chain other head blocks := by
  induction chain with
  | nil => exact .nil
  | cons tail ih =>
      rename_i b rest
      apply Chain.cons
      rw [same b List.mem_cons_self]
      exact ih fun a member => same a (List.mem_cons_of_mem b member)

theorem Chain.some {next : Block → Option Block} {b : Block} {blocks : List Block}
    (chain : Chain next (some b) blocks) :
    ∃ rest, blocks = b :: rest ∧ Chain next (next b) rest := by
  cases chain with
  | cons tail => exact ⟨_, rfl, tail⟩

/-- Where the blocks are. `outside` holds of the blocks that belong to nobody's call and
are not in the chain; `holds` is the block that a call of the thread works on. -/
structure Custody (next : Block → Option Block) (head : Option Block) (outside : Block → Bool)
    (holds : Thread → Option Block)
    (blocks : List Block) : Prop where
  chain : Chain next head blocks
  nodup : blocks.Nodup
  inside : ∀ b ∈ blocks, outside b = false
  apart : ∀ b ∈ blocks, ∀ t, holds t ≠ some b
  taken : ∀ t b, holds t = some b → outside b = false
  unique : ∀ t s b, holds t = some b → holds s = some b → t = s
  somewhere : ∀ b, outside b = false → b ∈ blocks ∨ ∃ t, holds t = some b

section Custody

variable [DecidableEq Block] [DecidableEq Thread] {next : Block → Option Block}
    {head : Option Block} {outside : Block → Bool}
  {holds : Thread → Option Block} {blocks : List Block}
    (custody : Custody next head outside holds blocks)

include custody

omit [DecidableEq Block] [DecidableEq Thread] in
theorem Custody.congr {other : Thread → Option Block} (same : ∀ t, other t = holds t) :
    Custody next head outside other blocks := by
  rw [show other = holds from funext same]
  exact custody

omit [DecidableEq Thread] in
-- A next field outside the chain is rewritten.
theorem Custody.write {b : Block} {value : Option Block} (absent : b ∉ blocks) :
    Custody (Function.update next b value) head outside holds blocks := by
  refine { custody with chain := ?_ }
  refine custody.chain.congr fun a member => ?_
  have other : a ≠ b := by
    rintro rfl
    exact absent member
  exact Function.update_of_ne other value next

omit [DecidableEq Block] [DecidableEq Thread] in
theorem Custody.held_absent {t : Thread} {b : Block} (held : holds t = some b) : b ∉ blocks :=
  fun member => custody.apart b member t held

omit [DecidableEq Block] [DecidableEq Thread] in
theorem Custody.outside_absent {b : Block} (free : outside b = true) : b ∉ blocks := by
  intro member
  rw [custody.inside b member] at free
  cases free

omit [DecidableEq Block] [DecidableEq Thread] in
-- While no call works on a block, the blocks inside are those of the chain.
theorem Custody.settled (quiet : ∀ t, holds t = none) (b : Block) :
    b ∈ blocks ↔ outside b = false := by
  refine ⟨custody.inside b, fun inside => ?_⟩
  rcases custody.somewhere b inside with member | ⟨t, held⟩
  · exact member
  · rw [quiet t] at held
    cases held

-- A call receives a block from outside.
theorem Custody.take {t : Thread} {b : Block} (free : outside b = true) (empty : holds t = none) :
    Custody next head (Function.update outside b false) (Function.update holds t (some b))
      blocks := by
  have absent := custody.outside_absent free
  have unheld (s : Thread) : holds s ≠ some b := by
    intro held
    rw [custody.taken s b held] at free
    cases free
  refine ⟨custody.chain, custody.nodup, fun a member => ?_, fun a member s held => ?_,
    fun s a held => ?_, fun s r a first second => ?_,
    fun a inside => ?_⟩
  · have other : a ≠ b := by
      rintro rfl
      exact absent member
    rw [Function.update_of_ne other]
    exact custody.inside a member
  · by_cases self : s = t
    · rw [self, Function.update_self] at held
      cases held
      exact absent member
    · rw [Function.update_of_ne self] at held
      exact custody.apart a member s held
  · by_cases self : a = b
    · rw [self, Function.update_self]
    · rw [Function.update_of_ne self]
      by_cases mine : s = t
      · rw [mine, Function.update_self] at held
        exact absurd (Option.some.inj held).symm self
      · rw [Function.update_of_ne mine] at held
        exact custody.taken s a held
  · by_cases mine : s = t
    · by_cases yours : r = t
      · rw [mine, yours]
      · rw [mine, Function.update_self] at first
        rw [Function.update_of_ne yours, ← first] at second
        exact absurd second (unheld r)
    · rw [Function.update_of_ne mine] at first
      by_cases yours : r = t
      · rw [yours, Function.update_self] at second
        rw [← second] at first
        exact absurd first (unheld s)
      · rw [Function.update_of_ne yours] at second
        exact custody.unique s r a first second
  · by_cases self : a = b
    · exact .inr ⟨t, by rw [Function.update_self, self]⟩
    · rw [Function.update_of_ne self] at inside
      rcases custody.somewhere a inside with member | ⟨s, held⟩
      · exact .inl member
      · refine .inr ⟨s, ?_⟩
        rwa [Function.update_of_ne]
        rintro rfl
        rw [empty] at held
        cases held

-- A call hands its block over, to the chain or to the outside.
omit [DecidableEq Block] in
theorem Custody.release_unique {t s r : Thread} {a : Block}
    (first : Function.update holds t none s = some a)
    (second : Function.update holds t none r = some a) : s = r := by
  by_cases mine : s = t
  · rw [mine, Function.update_self] at first
    cases first
  · by_cases yours : r = t
    · rw [yours, Function.update_self] at second
      cases second
    · rw [Function.update_of_ne mine] at first
      rw [Function.update_of_ne yours] at second
      exact custody.unique s r a first second

omit custody [DecidableEq Block] in
theorem released {t s : Thread} {a : Block} (held : Function.update holds t none s = some a) :
    s ≠ t ∧ holds s = some a := by
  by_cases mine : s = t
  · rw [mine, Function.update_self] at held
    cases held
  · rw [Function.update_of_ne mine] at held
    exact ⟨mine, held⟩

omit [DecidableEq Block] in
theorem Custody.push {t : Thread} {b : Block} (held : holds t = some b) (linked : next b = head) :
    Custody next (some b) outside (Function.update holds t none) (b :: blocks) := by
  refine ⟨?_, List.nodup_cons.mpr ⟨custody.held_absent held, custody.nodup⟩, fun a member => ?_,
    fun a member s owned => ?_,
    fun s a owned => custody.taken s a (released owned).2, fun s r a => custody.release_unique,
      fun a inside => ?_⟩
  · apply Chain.cons
    rw [linked]
    exact custody.chain
  · rcases List.mem_cons.mp member with rfl | old
    · exact custody.taken t a held
    · exact custody.inside a old
  · obtain ⟨mine, owned⟩ := released owned
    rcases List.mem_cons.mp member with rfl | old
    · exact mine (custody.unique s t a owned held)
    · exact custody.apart a old s owned
  · rcases custody.somewhere a inside with member | ⟨s, owned⟩
    · exact .inl (List.mem_cons_of_mem b member)
    · by_cases mine : s = t
      · rw [mine, held] at owned
        cases owned
        exact .inl List.mem_cons_self
      · exact .inr ⟨s, by rwa [Function.update_of_ne mine]⟩

theorem Custody.give {t : Thread} {b : Block} (held : holds t = some b) :
    Custody next head (Function.update outside b true) (Function.update holds t none) blocks := by
  have absent := custody.held_absent held
  refine ⟨custody.chain, custody.nodup, fun a member => ?_,
    fun a member s owned => custody.apart a member s (released owned).2,
    fun s a owned => ?_, fun s r a => custody.release_unique, fun a inside => ?_⟩
  · have other : a ≠ b := by
      rintro rfl
      exact absent member
    rw [Function.update_of_ne other]
    exact custody.inside a member
  · obtain ⟨mine, owned⟩ := released owned
    rw [Function.update_of_ne]
    · exact custody.taken s a owned
    · rintro rfl
      exact mine (custody.unique s t a owned held)
  · by_cases self : a = b
    · rw [self, Function.update_self] at inside
      cases inside
    · rw [Function.update_of_ne self] at inside
      rcases custody.somewhere a inside with member | ⟨s, owned⟩
      · exact .inl member
      · refine .inr ⟨s, ?_⟩
        rwa [Function.update_of_ne]
        rintro rfl
        rw [held] at owned
        exact self (Option.some.inj owned).symm

omit [DecidableEq Block] in
theorem Custody.pop {t : Thread} {b : Block} (empty : holds t = none) (top : head = some b) :
    ∃ rest, blocks = b :: rest ∧ Custody next (next b) outside (Function.update holds t (some b))
      rest := by
  obtain ⟨rest, rfl, tail⟩ := Chain.some (top ▸ custody.chain)
  have fresh := List.nodup_cons.mp custody.nodup
  have unheld := custody.apart b List.mem_cons_self
  refine ⟨rest, rfl, tail, fresh.2, fun a member => custody.inside a
    (List.mem_cons_of_mem b member), fun a member s owned => ?_,
    fun s a owned => ?_, fun s r a first second => ?_, fun a inside => ?_⟩
  · by_cases mine : s = t
    · rw [mine, Function.update_self] at owned
      cases owned
      exact fresh.1 member
    · rw [Function.update_of_ne mine] at owned
      exact custody.apart a (List.mem_cons_of_mem b member) s owned
  · by_cases mine : s = t
    · rw [mine, Function.update_self] at owned
      cases owned
      exact custody.inside b List.mem_cons_self
    · rw [Function.update_of_ne mine] at owned
      exact custody.taken s a owned
  · by_cases mine : s = t
    · by_cases yours : r = t
      · rw [mine, yours]
      · rw [mine, Function.update_self] at first
        rw [Function.update_of_ne yours, ← first] at second
        exact absurd second (unheld r)
    · rw [Function.update_of_ne mine] at first
      by_cases yours : r = t
      · rw [yours, Function.update_self] at second
        rw [← second] at first
        exact absurd first (unheld s)
      · rw [Function.update_of_ne yours] at second
        exact custody.unique s r a first second
  · rcases custody.somewhere a inside with member | ⟨s, owned⟩
    · rcases List.mem_cons.mp member with rfl | old
      · exact .inr ⟨t, Function.update_self t _ _⟩
      · exact .inl old
    · refine .inr ⟨s, ?_⟩
      rwa [Function.update_of_ne]
      rintro rfl
      rw [empty] at owned
      cases owned

end Custody

theorem custody_initial {next : Block → Option Block} :
    Custody next none (fun _ => true) (fun _ : Thread => none) [] :=
  ⟨.nil, List.nodup_nil, nofun, nofun, nofun, nofun, nofun⟩

/-! The history of the calls: which blocks were added and which returned. -/

inductive Act (Block : Type u) where
  | added (b : Block)
  | returned (b : Block)
  deriving DecidableEq, Repr

variable [DecidableEq Block]

def Balanced (history : List (Act Block)) (outside : Block → Bool) : Prop :=
  ∀ b, history.count (.added b) = history.count (.returned b) + if outside b then 0 else 1

theorem balanced_initial : Balanced ([] : List (Act Block)) fun _ => true := fun _ => rfl

theorem Balanced.add {history : List (Act Block)} {outside : Block → Bool}
    (balanced : Balanced history outside) {b : Block} (free : outside b = true) :
    Balanced (history ++ [.added b]) (Function.update outside b false) := by
  intro a
  have before := balanced a
  by_cases self : a = b
  · subst self
    rw [free] at before
    simp only [List.count_append, Function.update_self, List.count_singleton]
    simpa using before
  · simp only [List.count_append, Function.update_of_ne self, List.count_singleton]
    simpa [Ne.symm self] using before

theorem Balanced.return {history : List (Act Block)} {outside : Block → Bool}
    (balanced : Balanced history outside) {b : Block} (inside : outside b = false) :
    Balanced (history ++ [.returned b]) (Function.update outside b true) := by
  intro a
  have before := balanced a
  by_cases self : a = b
  · subst self
    rw [inside] at before
    simp only [List.count_append, Function.update_self, List.count_singleton]
    simpa using before
  · simp only [List.count_append, Function.update_of_ne self, List.count_singleton]
    simpa [Ne.symm self] using before

theorem Balanced.inside_iff {history : List (Act Block)} {outside : Block → Bool}
    (balanced : Balanced history outside) (b : Block) :
    outside b = false ↔ history.count (.returned b) < history.count (.added b) := by
  have counts := balanced b
  cases place : outside b with
  | false =>
      rw [place, if_neg Bool.false_ne_true] at counts
      exact iff_of_true rfl (by omega)
  | true =>
      rw [place, if_pos rfl] at counts
      exact iff_of_false Bool.true_eq_false.mp (by omega)

theorem Balanced.at_most_once {history : List (Act Block)} {outside : Block → Bool}
    (balanced : Balanced history outside) (b : Block) :
    history.count (.returned b) ≤ history.count (.added b) := by
  have counts := balanced b
  omega

end SetBench.LinkedBlocks
