import Mathlib

/-! A log kept in linked arrays of a fixed length, against the list it stands for. Entries are
written once, arrays are linked once, and a cursor is an array with a count. -/
namespace SetBench.LinkedLog

variable {E : Type} (len : Nat)

structure Spine (entries : Nat → Nat → Option E) (next : Nat → Option Nat) (chain : List Nat)
    (log : List E) : Prop where
  linked : ∀ i a, chain[i]? = some a → next a = chain[i + 1]?
  holds : ∀ i a slot, chain[i]? = some a → slot < len → entries a slot = log[len * i + slot]?
  room : log.length ≤ len * chain.length
  nodup : chain.Nodup
  bare : ∀ a, a ∉ chain → next a = none ∧ ∀ slot, entries a slot = none

/-- The cursor stands after `p` entries; a full array is left for the next one only when it
moves. -/
def Place (chain : List Nat) (vals count p : Nat) : Prop :=
  ∃ i, chain[i]? = some vals ∧ count ≤ len ∧ p = len * i + count

variable {len} {entries : Nat → Nat → Option E} {next : Nat → Option Nat} {chain : List Nat}
    {log : List E} {vals count p : Nat}

theorem Place.grow (place : Place len chain vals count p) (a : Nat) :
    Place len (chain ++ [a]) vals count p := by
  obtain ⟨i, at_i, fits, same⟩ := place
  have inside := (List.getElem?_eq_some_iff.mp at_i).1
  exact ⟨i, (List.getElem?_append_left inside).trans at_i, fits, same⟩

theorem Place.forward (place : Place len chain vals count p) (open_ : count ≠ len) :
    Place len chain vals (count + 1) (p + 1) := by
  obtain ⟨i, at_i, fits, same⟩ := place
  exact ⟨i, at_i, by omega, by omega⟩

theorem Place.follow (spine : Spine len entries next chain log)
    (place : Place len chain vals len p) {a : Nat} (link : next vals = some a) (room : 0 < len) :
    Place len chain a 1 (p + 1) := by
  obtain ⟨i, at_i, fits, same⟩ := place
  refine ⟨i + 1, ?_, room, ?_⟩
  · rw [← spine.linked i vals at_i, link]
  · rw [same, Nat.mul_add, Nat.mul_one]

-- The array of a full cursor with no successor is the last one.
theorem Place.last (spine : Spine len entries next chain log) (place : Place len chain vals len p)
    (unlinked : next vals = none) :
    p = len * chain.length ∧ chain[chain.length - 1]? = some vals := by
  obtain ⟨i, at_i, fits, same⟩ := place
  have beyond : chain.length ≤ i + 1 := by
    rw [← List.getElem?_eq_none_iff, ← spine.linked i vals at_i, unlinked]
  have inside := (List.getElem?_eq_some_iff.mp at_i).1
  have last : i + 1 = chain.length := by omega
  constructor
  · rw [same, ← last, Nat.mul_add, Nat.mul_one]
  · rwa [show chain.length - 1 = i by omega]

theorem Spine.link (spine : Spine len entries next chain log) (place : Place len chain vals len p)
    (unlinked : next vals = none) {a : Nat} (fresh : a ∉ chain) (room : 0 < len) :
    Spine len entries (Function.update next vals (some a)) (chain ++ [a]) log ∧
      Place len (chain ++ [a]) a 1 (p + 1) := by
  obtain ⟨at_end, at_last⟩ := place.last spine unlinked
  have member : vals ∈ chain := List.mem_of_getElem? at_last
  have other : a ≠ vals := fun same => fresh (same ▸ member)
  constructor
  · constructor
    case linked =>
      intro i b at_i
      by_cases inside : i < chain.length
      · rw [List.getElem?_append_left inside] at at_i
        by_cases same : b = vals
        · subst same
          have index : i = chain.length - 1 :=
            (List.getElem?_inj inside spine.nodup).mp (at_i.trans at_last.symm)
          rw [Function.update_self, List.getElem?_append_right (by omega),
            show i + 1 - chain.length = 0 by omega]
          rfl
        · rw [Function.update_of_ne same, spine.linked i b at_i]
          have more : i + 1 < chain.length := by
            rcases Nat.lt_or_ge (i + 1) chain.length with more | done
            · exact more
            · rw [show chain.length - 1 = i by omega] at at_last
              exact absurd (Option.some.inj (at_i.symm.trans at_last)) same
          exact (List.getElem?_append_left more).symm
      · rw [List.getElem?_append_right (by omega)] at at_i
        have zero : i - chain.length = 0 := by
          have := (List.getElem?_eq_some_iff.mp at_i).1
          simpa using this
        rw [zero] at at_i
        cases Option.some.inj at_i
        rw [Function.update_of_ne other, (spine.bare a fresh).1]
        exact (List.getElem?_eq_none (by simp; omega)).symm
    case holds =>
      intro i b slot at_i small
      by_cases inside : i < chain.length
      · rw [List.getElem?_append_left inside] at at_i
        exact spine.holds i b slot at_i small
      · rw [List.getElem?_append_right (by omega)] at at_i
        have member : b ∈ [a] := List.mem_of_getElem? at_i
        cases List.mem_singleton.mp member
        rw [(spine.bare a fresh).2 slot]
        have filled : len * chain.length ≤ len * i := Nat.mul_le_mul_left len (by omega)
        exact (List.getElem?_eq_none (by have := spine.room; omega)).symm
    case room =>
      rw [List.length_append]
      exact spine.room.trans (Nat.mul_le_mul_left len (Nat.le_add_right _ _))
    case nodup =>
      exact List.nodup_append.mpr ⟨spine.nodup, List.nodup_singleton a,
        fun b old c new same => fresh (List.mem_singleton.mp new ▸ same ▸ old)⟩
    case bare =>
      intro b absent
      have old : b ∉ chain := fun old => absent (List.mem_append_left _ old)
      have apart : b ≠ vals := fun same => old (same ▸ member)
      rw [Function.update_of_ne apart]
      exact spine.bare b old
  · refine ⟨chain.length, ?_, room, ?_⟩
    · rw [List.getElem?_append_right (Nat.le_refl _), Nat.sub_self]
      rfl
    · rw [at_end]

/-- The entry behind a cursor that has moved is the entry of the list. -/
theorem Spine.read (spine : Spine len entries next chain log)
    (place : Place len chain vals count (p + 1)) (moved : 0 < count) :
    entries vals (count - 1) = log[p]? := by
  obtain ⟨i, at_i, fits, same⟩ := place
  rw [spine.holds i vals (count - 1) at_i (by omega), show len * i + (count - 1) = p by omega]

theorem Spine.write (spine : Spine len entries next chain log)
    (place : Place len chain vals count (log.length + 1)) (moved : 0 < count) (entry : E) :
    Spine len (Function.update entries vals
      (Function.update (entries vals) (count - 1) (some entry))) next chain (log ++ [entry]) := by
  obtain ⟨i, at_i, fits, same⟩ := place
  have inside := (List.getElem?_eq_some_iff.mp at_i).1
  constructor
  case linked => exact spine.linked
  case holds =>
    intro j b slot at_j small
    by_cases array : b = vals
    · subst array
      have index : j = i :=
        (List.getElem?_inj ((List.getElem?_eq_some_iff.mp at_j).1) spine.nodup).mp
        (at_j.trans at_i.symm)
      subst index
      rw [Function.update_self]
      by_cases here : slot = count - 1
      · subst here
        rw [Function.update_self, show len * j + (count - 1) = log.length by omega,
          List.getElem?_concat_length]
      · rw [Function.update_of_ne here, spine.holds j b slot at_i small]
        rcases Nat.lt_or_ge (len * j + slot) log.length with before | beyond
        · exact (List.getElem?_append_left before).symm
        · rw [List.getElem?_eq_none beyond,
            List.getElem?_eq_none (by rw [List.length_append, List.length_singleton]; omega)]
    · rw [Function.update_of_ne array, spine.holds j b slot at_j small]
      rcases Nat.lt_or_ge (len * j + slot) log.length with before | beyond
      · exact (List.getElem?_append_left before).symm
      · have other : j ≠ i := by
          rintro rfl
          exact array (Option.some.inj (at_j.symm.trans at_i))
        have apart : len * j + slot ≠ log.length := by
          intro clash
          rcases Nat.lt_or_gt_of_ne other with less | more
          · have := Nat.mul_le_mul_left len (show j + 1 ≤ i from less)
            rw [Nat.mul_add] at this
            omega
          · have := Nat.mul_le_mul_left len (show i + 1 ≤ j from more)
            rw [Nat.mul_add] at this
            omega
        rw [List.getElem?_eq_none beyond,
          List.getElem?_eq_none (by rw [List.length_append, List.length_singleton]; omega)]
  case room =>
    have := Nat.mul_le_mul_left len (show i + 1 ≤ chain.length from inside)
    rw [Nat.mul_add] at this
    rw [List.length_append, List.length_singleton]
    omega
  case nodup => exact spine.nodup
  case bare =>
    intro b absent
    have apart : b ≠ vals := fun clash => absent (clash ▸ List.mem_of_getElem? at_i)
    rw [Function.update_of_ne apart]
    exact spine.bare b absent

-- Writing an entry that is there already changes nothing.
theorem Spine.rewrite (spine : Spine len entries next chain log)
    (place : Place len chain vals count (p + 1)) (moved : 0 < count) {entry : E}
    (there : log[p]? = some entry) :
    Function.update entries vals (Function.update (entries vals) (count - 1) (some entry)) =
      entries := by
  rw [← there, ← spine.read place moved, Function.update_eq_self, Function.update_eq_self]

theorem spine_initial : Spine len (fun _ _ => (none : Option E)) (fun _ => none) [0] [] where
  linked := by
    intro i a at_i
    have := (List.getElem?_eq_some_iff.mp at_i).1
    exact (List.getElem?_eq_none (by simp at this ⊢)).symm
  holds := fun _ _ _ _ _ => rfl
  room := Nat.zero_le _
  nodup := List.nodup_singleton 0
  bare := fun _ _ => ⟨rfl, fun _ => rfl⟩

end SetBench.LinkedLog
