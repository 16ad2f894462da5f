import SetBench.DoubleLogCopy
import SetBench.SingleLog

/-! A slot whose bodies act on finds that are still true: no key twice, log entries only
for what they change, and successful calls by turns. -/
namespace SetBench.SingleLog

open Radix KeyVals MapSpec
open ArtThreads (Kind kinds Alternates kinds_append)
open DoubleLog (Lists)

variable {K V : Type} [RadixKey K]

def Has (entries : List (K × V)) (k : K) : Prop := ∃ v, (k, v) ∈ entries

namespace Leaf

structure Ok (l : Leaf K V) : Prop where
  sorted : Sorted l.keyVals
  logged : ∀ e, l.log = some e → e.Consistent l.keyVals
  small : l.isLog = false → l.log = none

variable {l : Leaf K V} {k : K}

theorem plain_ok {isLog : Bool} {entries : List (K × V)} (sorted : Sorted entries) :
    Ok (⟨isLog, entries, none⟩ : Leaf K V) :=
  ⟨sorted, (fun _ absurd => nomatch absurd), fun _ => rfl⟩

theorem contents_none (empty : l.log = none) : l.contents = l.keyVals := by
  simp [contents, empty]

theorem contents_some {log : LogEntry K V} (held : l.log = some log) :
    l.contents = log.applyTo l.keyVals := by
  simp [contents, held]

theorem Ok.distinct (ok : Ok l) : Distinct l.contents := by
  cases held : l.log with
  | none =>
      rw [contents_none held]
      exact ok.sorted.distinct
  | some log =>
      rw [contents_some held]
      exact (ok.logged log held).distinct ok.sorted.distinct

theorem Ok.find_iff (ok : Ok l) (k : K) (v : V) : l.find k = some v ↔ (k, v) ∈ l.contents := by
  have base := find_some_iff ok.sorted k v
  cases held : l.log with
  | none =>
      rw [contents_none held]
      simpa [find, held] using base
  | some log =>
      rw [contents_some held]
      simpa [find, held] using (ok.logged log held).find_iff base

theorem Ok.find_isSome (ok : Ok l) (k : K) : (l.find k).isSome = true ↔ Has l.contents k := by
  rw [Option.isSome_iff_exists]
  exact exists_congr fun v => ok.find_iff k v

end Leaf

/-! The constructors, on arrays that the log entry is consistent with. -/

section Arrays

variable {base : List (K × V)} {log : LogEntry K V} {key : K} (sorted : Sorted base)
    (consistent : log.Consistent base)
include sorted consistent

theorem insertLogged_lists (absent : ¬ Has (log.applyTo base) key) (value : V) :
    Lists (insertLogged base log key value) (fun entry => entry ∈ log.applyTo base ∨
      entry = (key, value)) ∧
    (insertLogged base log key value).length = if log.isDelete then base.length
    else base.length + 2 := by
  unfold insertLogged
  cases kind : log.isDelete with
  | true =>
      obtain ⟨v, member⟩ := consistent.present kind
      have length := length_without sorted member
      simp only [if_true]
      refine ⟨⟨merge_sorted sorted (List.pairwise_singleton _ _) ?_, fun entry => ?_⟩, ?_⟩
      · intro kv pending entry old kept same
        rw [List.mem_singleton.mp pending] at same
        have same : entry.1 = key := same
        refine absent ⟨entry.2, (LogEntry.mem_delete kind _).mpr ⟨by rw [← same]; exact old, ?_⟩⟩
        rw [← same]
        simpa using kept
      · simp only [mem_merge, LogEntry.mem_delete kind, List.mem_singleton]
      · rw [length_merge, List.length_singleton]
        omega
  | false =>
      have apart : (key, value).1 ≠ log.pair.1 := by
        rintro same
        refine absent ⟨log.value, (LogEntry.mem_insert kind _).mpr (.inr ?_)⟩
        exact Prod.ext same rfl
      simp only [Bool.false_eq_true, if_false]
      refine ⟨⟨merge_sorted sorted (ordered_sorted apart) ?_, fun entry => ?_⟩, ?_⟩
      · intro kv pending entry old _ same
        rcases (mem_ordered _ _ kv).mp pending with rfl | rfl
        · have same : entry.1 = key := same
          exact absent ⟨entry.2, (LogEntry.mem_insert kind _).mpr
            (.inl (by rw [← same]; exact old))⟩
        · have same : entry.1 = log.key := same
          exact consistent.absent kind entry.2 (by rw [← same]; exact old)
      · simp only [mem_merge, LogEntry.mem_insert kind, mem_ordered, List.not_mem_nil,
          not_false_eq_true, and_true]
        tauto
      · have two : (ordered (key, value) log.pair).length = 2 := by
          unfold ordered
          split <;> rfl
        have all : without [] base = base := List.filter_eq_self.mpr (by simp)
        rw [length_merge, two, all]

theorem insertLogged_spec (absent : ¬ Has (log.applyTo base) key) (value : V) :
    Sorted (insertLogged base log key value) ∧
    ∀ k, Has (insertLogged base log key value) k ↔ k = key ∨ Has (log.applyTo base) k := by
  obtain ⟨⟨order, members⟩, _⟩ := insertLogged_lists sorted consistent absent value
  refine ⟨order, fun k => ?_⟩
  simp only [Has, members, Prod.mk.injEq]
  constructor
  · rintro ⟨v, old | ⟨rfl, _⟩⟩
    · exact .inr ⟨v, old⟩
    · exact .inl rfl
  · rintro (rfl | ⟨v, old⟩)
    · exact ⟨value, .inr ⟨rfl, rfl⟩⟩
    · exact ⟨v, .inl old⟩

-- The copy of the old pairs and the merge: the size that is set cuts nothing off.
theorem cowAdd_eq (absent : ¬ Has (log.applyTo base) key) (value : V) :
    cowAdd base log key value = if log.isDelete = true ∧ log.key = key then base
      else insertLogged base log key value := by
  obtain ⟨_, length⟩ := insertLogged_lists sorted consistent absent value
  unfold cowAdd
  cases kind : log.isDelete with
  | true =>
      rw [kind] at length
      simp only [if_true, true_and] at length ⊢
      by_cases same : log.key = key
      · rw [if_neg (not_not.mpr same.symm), if_pos same, List.take_length]
      · rw [if_pos (Ne.symm same), if_neg same, List.take_of_length_le length.le]
  | false =>
      rw [kind] at length
      simp only [Bool.false_eq_true, if_false, false_and] at length ⊢
      exact List.take_of_length_le length.le

theorem cowAdd_spec (absent : ¬ Has (log.applyTo base) key) (value : V) :
    Sorted (cowAdd base log key value) ∧ ∀ k, Has (cowAdd base log key value) k ↔ k = key ∨
      Has (log.applyTo base) k := by
  rw [cowAdd_eq sorted consistent absent value]
  split
  · -- the deleted key comes back, with the value it had
    rename_i back
    obtain ⟨kind, rfl⟩ := back
    refine ⟨sorted, fun k => ?_⟩
    obtain ⟨v, member⟩ := consistent.present kind
    simp only [Has, LogEntry.mem_delete kind]
    constructor
    · rintro ⟨v, old⟩
      by_cases mine : k = log.key
      · exact .inl mine
      · exact .inr ⟨v, old, mine⟩
    · rintro (rfl | ⟨v, old, _⟩)
      · exact ⟨v, member⟩
      · exact ⟨v, old⟩
  · exact insertLogged_spec sorted consistent absent value

theorem cowRemove_lists (present : Has (log.applyTo base) key) :
    Lists (cowRemove base log key) (fun entry => entry ∈ log.applyTo base ∧ entry.1 ≠ key) ∧
    ((cowRemove base log key).length : Int) = if log.isDelete then (base.length : Int) - 2
    else base.length := by
  obtain ⟨v, member⟩ := present
  unfold cowRemove
  cases kind : log.isDelete with
  | true =>
      obtain ⟨v', logged⟩ := consistent.present kind
      obtain ⟨old, apart⟩ := (LogEntry.mem_delete kind _).mp member
      have first := length_without sorted logged
      have second := length_without (without_sorted sorted [log.key])
        ((mem_without (key, v)).mpr ⟨old, by simpa using apart⟩)
      have both : without [key] (without [log.key] base) = without [log.key, key] base := by
        simp only [without, List.filter_filter]
        refine List.filter_congr fun kv _ => ?_
        simp [and_comm]
      rw [both] at second
      simp only [if_true]
      rw [List.take_of_length_le (by omega)]
      refine ⟨⟨without_sorted sorted _, fun entry => ?_⟩, by omega⟩
      simp only [mem_without, LogEntry.mem_delete kind, List.mem_cons, List.not_mem_nil, or_false,
        not_or]
      tauto
  | false =>
      simp only [Bool.false_eq_true, if_false]
      by_cases same : log.key = key
      · rw [if_pos same, List.take_length]
        refine ⟨⟨sorted, fun entry => ?_⟩, rfl⟩
        simp only [LogEntry.mem_insert kind]
        constructor
        · intro old
          refine ⟨.inl old, fun mine => consistent.absent kind entry.2 ?_⟩
          rw [same, ← mine]
          exact old
        · rintro ⟨old | logged, other⟩
          · exact old
          · exact absurd ((congrArg Prod.fst logged).trans same) other
      · have old : (key, v) ∈ base := by
          rcases (LogEntry.mem_insert kind _).mp member with old | logged
          · exact old
          · exact absurd (congrArg Prod.fst logged).symm same
        have length := length_without sorted old
        have total : (merge [key] [log.pair] base).length = base.length := by
          rw [length_merge, List.length_singleton]
          omega
        rw [if_neg same, List.take_of_length_le total.le, total]
        refine ⟨⟨merge_sorted sorted (List.pairwise_singleton _ _) ?_, fun entry => ?_⟩, rfl⟩
        · intro kv pending entry there _ equal
          rw [List.mem_singleton.mp pending] at equal
          have equal : entry.1 = log.key := equal
          exact consistent.absent kind entry.2 (by rw [← equal]; exact there)
        · simp only [mem_merge, LogEntry.mem_insert kind, List.mem_singleton]
          constructor
          · rintro (⟨there, kept⟩ | logged)
            · exact ⟨.inl there, kept⟩
            · exact ⟨.inr logged, fun mine => same ((congrArg Prod.fst logged).symm.trans mine)⟩
          · rintro ⟨there | logged, other⟩
            · exact .inl ⟨there, other⟩
            · exact .inr logged

theorem cowRemove_spec (present : Has (log.applyTo base) key) :
    Sorted (cowRemove base log key) ∧ ∀ k, Has (cowRemove base log key) k ↔ k ≠ key ∧
      Has (log.applyTo base) k := by
  obtain ⟨⟨order, members⟩, _⟩ := cowRemove_lists sorted consistent present
  refine ⟨order, fun k => ?_⟩
  simp only [Has, members]
  exact ⟨fun ⟨v, old, other⟩ => ⟨other, v, old⟩, fun ⟨other, v, old⟩ => ⟨v, old, other⟩⟩

end Arrays

/-! The bodies. -/

/-- The leaves in the slot after a body, given the leaf it found. -/
def Outcome.leaves (c : Option (Leaf K V)) : Outcome K V → List (Leaf K V)
  | .append e => (c.map fun l => { l with log := some e }).toList
  | .copy l => [l]
  | .divide leaves => leaves
  | .clear => []

def together (leaves : List (Leaf K V)) : List (K × V) := leaves.flatMap Leaf.contents

/-- Sound leaves that share no key and hold the keys of `P`. -/
structure Holds (leaves : List (Leaf K V)) (P : K → Prop) : Prop where
  ok : ∀ l ∈ leaves, Leaf.Ok l
  distinct : Distinct (together leaves)
  has : ∀ k, Has (together leaves) k ↔ P k

theorem holds_one {l : Leaf K V} {P : K → Prop} (ok : Leaf.Ok l)
    (has : ∀ k, Has l.contents k ↔ P k) : Holds [l] P := by
  have same : together [l] = l.contents := by simp [together]
  refine ⟨?_, by rw [same]; exact ok.distinct, by rw [same]; exact has⟩
  intro m member
  rw [List.mem_singleton.mp member]
  exact ok

theorem holds_plain {isLog : Bool} {entries : List (K × V)} {P : K → Prop} (sorted : Sorted entries)
    (has : ∀ k, Has entries k ↔ P k) : Holds [(⟨isLog, entries, none⟩ : Leaf K V)] P :=
  holds_one (Leaf.plain_ok sorted) has

theorem append_holds {l : Leaf K V} {e : LogEntry K V} {P : K → Prop} (ok : Leaf.Ok l)
    (kind : l.isLog = true) (consistent : e.Consistent l.keyVals)
    (has : ∀ k, Has (e.applyTo l.keyVals) k ↔ P k) :
    Holds ((Outcome.append e).leaves (some l)) P := by
  refine holds_one ⟨ok.sorted, ?_, fun small => ?_⟩ has
  · rintro _ ⟨⟩
    exact consistent
  · have small : l.isLog = false := small
    rw [kind] at small
    cases small

theorem divide_holds (bytePos : Nat) {entries : List (K × V)} {P : K → Prop}
    (sorted : Sorted entries) (has : ∀ k, Has entries k ↔ P k) :
    Holds (divide bytePos entries) P := by
  cases entries with
  | nil =>
      refine ⟨?_, List.Pairwise.nil, has⟩
      rintro _ ⟨⟩
  | cons start rest =>
      have flat := splitLoop_flatten bytePos start [] rest
      have same : together (divide bytePos (start :: rest)) = start :: rest := by
        rw [together, divide, List.flatMap_map]
        simpa [newLeaf, Leaf.contents, List.flatMap] using flat
      refine ⟨?_, by rw [same]; exact sorted.distinct, by rw [same]; exact has⟩
      intro l member
      obtain ⟨group, here, rfl⟩ := List.mem_map.mp member
      exact Leaf.plain_ok (List.Pairwise.sublist (splitLoop_sublist here) sorted)

theorem insertBody_holds {c : Option (Leaf K V)} {k : K} (bytePos : Nat) (v : V)
    (ok : ∀ l, c = some l → Leaf.Ok l) (absent : ∀ l, c = some l → ¬ Has l.contents k) :
    Holds ((insertBody bytePos c k v).leaves c) fun k' => k' = k ∨ Has (together c.toList) k' := by
  cases c with
  | none =>
      refine holds_plain (List.pairwise_singleton _ _) fun k' => ?_
      simp [Has, together]
  | some l =>
      have ok := ok l rfl
      have absent := absent l rfl
      have before : together (some l).toList = l.contents := by simp [together]
      rw [before]
      cases kind : l.isLog with
      | false =>
          have empty := Leaf.contents_none (ok.small kind)
          rw [empty] at absent ⊢
          simp only [insertBody, kind, Bool.false_eq_true, if_false]
          refine holds_plain (insert_sorted ok.sorted v fun v' member => absent ⟨v', member⟩)
            fun k' => ?_
          simp only [Has, mem_insert, Prod.mk.injEq]
          constructor
          · rintro ⟨v', old | ⟨same, _⟩⟩
            · exact .inr ⟨v', old⟩
            · exact .inl same
          · rintro (same | ⟨v', old⟩)
            · exact ⟨v, .inr ⟨same, rfl⟩⟩
            · exact ⟨v', .inl old⟩
      | true =>
          cases held : l.log with
          | none =>
              have empty := Leaf.contents_none held
              rw [empty] at absent ⊢
              have consistent : (⟨false, k, v⟩ : LogEntry K V).Consistent l.keyVals :=
                ⟨(fun absurd => nomatch absurd), fun there => absurd there absent⟩
              have inserts : (⟨false, k, v⟩ : LogEntry K V).isDelete = false := rfl
              simp only [insertBody, kind, held, if_true]
              refine append_holds ok kind consistent fun k' => ?_
              simp only [Has, LogEntry.mem_insert inserts, LogEntry.pair, Prod.mk.injEq]
              constructor
              · rintro ⟨v', old | ⟨same, _⟩⟩
                · exact .inr ⟨v', old⟩
                · exact .inl same
              · rintro (same | ⟨v', old⟩)
                · exact ⟨v, .inr ⟨same, rfl⟩⟩
                · exact ⟨v', .inl old⟩
          | some log =>
              have logged := Leaf.contents_some held
              rw [logged] at absent ⊢
              have consistent := ok.logged log held
              simp only [insertBody, kind, held, if_true]
              split
              · obtain ⟨order, members⟩ := cowAdd_spec ok.sorted consistent absent v
                exact holds_plain order members
              · obtain ⟨order, members⟩ := insertLogged_spec ok.sorted consistent absent v
                exact divide_holds bytePos order members

theorem removeBody_holds {l : Leaf K V} {k : K} (noValue : V) (ok : Leaf.Ok l)
    (present : Has l.contents k) :
    Holds ((removeBody noValue l k).leaves (some l)) fun k' => k' ≠ k ∧ Has l.contents k' := by
  cases kind : l.isLog with
  | false =>
      have empty := Leaf.contents_none (ok.small kind)
      rw [empty] at present ⊢
      obtain ⟨v, member⟩ := present
      simp only [removeBody, kind, Bool.false_eq_true, if_false]
      split
      · rename_i one
        obtain ⟨kv, single⟩ := List.length_eq_one_iff.mp one
        refine ⟨?_, List.Pairwise.nil, fun k' => ?_⟩
        · rintro _ ⟨⟩
        · rw [single] at member ⊢
          simp only [Has, Outcome.leaves, together, List.flatMap_nil, List.not_mem_nil,
            exists_false, false_iff, List.mem_singleton]
          rintro ⟨other, v', there⟩
          rw [← List.mem_singleton.mp member] at there
          exact other (congrArg Prod.fst there)
      · have length := length_without ok.sorted member
        rw [List.take_of_length_le
          (show (without [k] l.keyVals).length ≤ l.size - 1 by unfold Leaf.size; omega)]
        refine holds_plain (without_sorted ok.sorted [k]) fun k' => ?_
        simp only [Has, mem_without, List.mem_singleton]
        constructor
        · rintro ⟨v', there, other⟩
          exact ⟨other, v', there⟩
        · rintro ⟨other, v', there⟩
          exact ⟨v', there, other⟩
  | true =>
      cases held : l.log with
      | none =>
          have empty := Leaf.contents_none held
          rw [empty] at present ⊢
          have consistent : (⟨true, k, noValue⟩ : LogEntry K V).Consistent l.keyVals :=
            ⟨fun _ => present, fun _ => rfl⟩
          have deletes : (⟨true, k, noValue⟩ : LogEntry K V).isDelete = true := rfl
          simp only [removeBody, kind, held, if_true]
          refine append_holds ok kind consistent fun k' => ?_
          simp only [Has, LogEntry.mem_delete deletes]
          constructor
          · rintro ⟨v', there, other⟩
            exact ⟨other, v', there⟩
          · rintro ⟨other, v', there⟩
            exact ⟨v', there, other⟩
      | some log =>
          have logged := Leaf.contents_some held
          rw [logged] at present ⊢
          simp only [removeBody, kind, held, if_true]
          obtain ⟨order, members⟩ := cowRemove_spec ok.sorted (ok.logged log held) present
          exact holds_plain order members

/-! Runs. -/

def World.leaves (w : World K V) : List (Leaf K V) :=
  match w.slot with
  | .null => []
  | .leaf id => (w.leaf id).toList
  | .inner leaves => leaves

structure Inv (w : World K V) : Prop where
  ok : ∀ id l, w.leaf id = some l → Leaf.Ok l
  allocated : ∀ id, w.slot = .leaf id → ∃ l, w.leaf id = some l
  unused : ∀ id, w.fresh ≤ id → w.leaf id = none
  distinct : Distinct (together w.leaves)
  history : ∀ k, Alternates (kinds k w.links) ∧
    (Has (together w.leaves) k ↔ (kinds k w.links).length % 2 = 1)

variable {w after : World K V} {c : Option Nat}

omit [RadixKey K] in
theorem pointer_null (here : w.slot.pointer = some none) : w.slot = .null := by
  cases slot : w.slot <;> simp_all [Slot.pointer]

omit [RadixKey K] in
theorem pointer_leaf {id : Nat} (here : w.slot.pointer = some (some id)) : w.slot = .leaf id := by
  cases slot : w.slot <;> simp_all [Slot.pointer]

omit [RadixKey K] in
-- What the slot holds is what its pointer leads to.
theorem leaves_deref (here : w.slot.pointer = some c) : w.leaves = (w.deref c).toList := by
  cases c with
  | none => simp [World.leaves, pointer_null here, World.deref]
  | some id => simp [World.leaves, pointer_leaf here, World.deref]

omit [RadixKey K] in
theorem write_leaves (here : w.slot.pointer = some c) (outcome : Outcome K V) :
    (w.write c outcome).leaves = outcome.leaves (w.deref c) := by
  cases outcome with
  | append e =>
      cases c with
      | none => simp [World.write, World.leaves, pointer_null here, Outcome.leaves, World.deref]
      | some id => simp [World.write, World.leaves, pointer_leaf here, Outcome.leaves, World.deref]
  | copy l => simp [World.write, World.leaves, Outcome.leaves]
  | divide leaves => rfl
  | clear => rfl

omit [RadixKey K] in
theorem write_links (w : World K V) (c : Option Nat) (outcome : Outcome K V) :
    (w.write c outcome).links = w.links := by
  cases outcome <;> cases c <;> rfl

theorem write_inv (inv : Inv w) (here : w.slot.pointer = some c) {outcome : Outcome K V}
    {P : K → Prop} (holds : Holds (outcome.leaves (w.deref c)) P) {links : List (K × Kind)}
    (history : ∀ k, Alternates (kinds k links) ∧ (P k ↔ (kinds k links).length % 2 = 1)) :
    Inv { w.write c outcome with links := links } := by
  have leaves : World.leaves { w.write c outcome with links := links } = outcome.leaves
    (w.deref c) := write_leaves here outcome
  refine ⟨?_, ?_, ?_, by rw [leaves]; exact holds.distinct, fun k => ?_⟩
  · intro id l held
    cases outcome with
    | append e =>
        cases c with
        | none => exact inv.ok id l held
        | some there =>
            simp only [World.write] at held
            by_cases same : id = there
            · subst same
              rw [Function.update_self] at held
              obtain ⟨old, before, rfl⟩ := Option.map_eq_some_iff.mp held
              exact holds.ok _ (by simp [Outcome.leaves, World.deref, before])
            · rw [Function.update_of_ne same] at held
              exact inv.ok id l held
    | copy new =>
        simp only [World.write] at held
        by_cases same : id = w.fresh
        · subst same
          rw [Function.update_self] at held
          cases held
          exact holds.ok l (.head _)
        · rw [Function.update_of_ne same] at held
          exact inv.ok id l held
    | divide leaves => exact inv.ok id l held
    | clear => exact inv.ok id l held
  · intro id slot
    cases outcome with
    | append e =>
        cases c with
        | none => exact inv.allocated id slot
        | some there =>
            obtain ⟨l, held⟩ := inv.allocated id slot
            simp only [World.write]
            by_cases same : id = there
            · subst same
              exact ⟨_, by rw [Function.update_self, held]; rfl⟩
            · exact ⟨l, by rw [Function.update_of_ne same]; exact held⟩
    | copy new =>
        cases slot
        exact ⟨new, Function.update_self _ _ _⟩
    | divide leaves => cases slot
    | clear => cases slot
  · intro id late
    cases outcome with
    | append e =>
        cases c with
        | none => exact inv.unused id late
        | some there =>
            have none_ := inv.unused id late
            simp only [World.write]
            by_cases same : id = there
            · subst same
              rw [Function.update_self, none_]
              rfl
            · rw [Function.update_of_ne same]
              exact none_
    | copy new =>
        have late : w.fresh + 1 ≤ id := late
        simp only [World.write]
        rw [Function.update_of_ne (by omega)]
        exact inv.unused id (by omega)
    | divide leaves => exact inv.unused id late
    | clear => exact inv.unused id late
  · rw [leaves, holds.has]
    exact history k

theorem goto_inv (inv : Inv w) (tid : Nat) (thread : Thread K V) : Inv (w.goto tid thread) :=
  ⟨inv.ok, inv.allocated, inv.unused, inv.distinct, inv.history⟩

theorem findAt_iff (inv : Inv w) (here : w.slot.pointer = some c) (k : K) :
    (w.findAt c k).isSome = true ↔ Has (together w.leaves) k := by
  rw [leaves_deref here, World.findAt]
  cases held : w.deref c with
  | none => simp [Has, together]
  | some l =>
      have ok : Leaf.Ok l := by
        obtain ⟨id, _, there⟩ := Option.bind_eq_some_iff.mp held
        exact inv.ok id l there
      simpa [together] using ok.find_isSome k

theorem bodyStep_inv (noValue : V) (inv : Inv w) (tid bytePos : Nat) (op : Op K V)
    (answer : Option V) (still : (Thread.found op c answer).StillTrue w) :
    Inv (bodyStep noValue w tid bytePos op c answer) := by
  unfold bodyStep
  by_cases here : w.slot.pointer = some c
  · rw [if_neg (not_not.mpr here)]
    have ok (l : Leaf K V) (held : w.deref c = some l) : Leaf.Ok l := by
      obtain ⟨id, _, there⟩ := Option.bind_eq_some_iff.mp held
      exact inv.ok id l there
    have present := findAt_iff inv here
    cases op with
    | insert k v =>
        cases answer with
        | some old =>
            simp only
            split <;> exact goto_inv inv tid _
        | none =>
            have absent : ¬ Has (together w.leaves) k := by
              rw [← present k, Bool.not_eq_true, Option.isSome_eq_false_iff]
              exact still here
            have holds := insertBody_holds bytePos v ok (k := k) (c := w.deref c) fun l held => by
              rw [leaves_deref here, held] at absent
              simpa [together] using absent
            refine goto_inv (write_inv inv here holds fun k' => ?_) tid .idle
            obtain ⟨alternates, stored⟩ := inv.history k'
            rw [← leaves_deref here]
            rw [write_links, kinds_append]
            by_cases same : k = k'
            · subst same
              have even : (kinds k w.links).length % 2 = 0 := by
                have odd := mt stored.mpr absent
                omega
              rw [if_pos rfl]
              refine ⟨alternates.snoc (by rw [if_pos even]), ?_⟩
              rw [List.length_append, List.length_singleton]
              exact ⟨fun _ => by omega, fun _ => .inl rfl⟩
            · rw [if_neg same]
              refine ⟨alternates, ?_⟩
              rw [← stored]
              exact ⟨fun either => either.resolve_left (Ne.symm same), .inr⟩
    | remove k =>
        cases answer with
        | none => exact goto_inv inv tid _
        | some old =>
            simp only
            cases held : w.deref c with
            | none => exact inv
            | some l =>
                have found : (l.find k).isSome = true := by
                  simpa [World.findAt, held] using still here
                have there := (ok l held).find_isSome k |>.mp found
                have holds := removeBody_holds noValue (ok l held) there
                simp only [found, if_true]
                rw [← held] at holds
                refine goto_inv (write_inv inv here holds fun k' => ?_) tid .idle
                obtain ⟨alternates, stored⟩ := inv.history k'
                have same_ : together w.leaves = l.contents := by
                  rw [leaves_deref here, held]
                  simp [together]
                rw [same_] at stored
                rw [write_links, kinds_append]
                by_cases same : k = k'
                · subst same
                  have odd := stored.mp there
                  rw [if_pos rfl]
                  refine ⟨alternates.snoc (by rw [if_neg (by omega)]), ?_⟩
                  rw [List.length_append, List.length_singleton]
                  exact ⟨fun both => absurd rfl both.1, fun even => by omega⟩
                · rw [if_neg same]
                  refine ⟨alternates, ?_⟩
                  rw [← stored]
                  exact ⟨And.right, fun member => ⟨Ne.symm same, member⟩⟩
  · rw [if_pos here]
    exact goto_inv inv tid _

theorem step_inv (noValue : V) (inv : Inv w) (event : Event K V) (still : StillTrue w event)
    (stepped : step noValue w event = some after) : Inv after := by
  cases event with
  | call tid op =>
      simp only [step] at stepped
      split at stepped <;> cases stepped
      exact goto_inv inv tid _
  | look tid =>
      simp only [step] at stepped
      split at stepped <;> cases stepped
      exact goto_inv inv tid _
  | body tid bytePos =>
      cases here : w.thread tid with
      | found op c answer =>
          simp only [step, here, Option.some.injEq] at stepped
          simp only [StillTrue, here] at still
          subst stepped
          exact bodyStep_inv noValue inv tid bytePos op answer still
      | _ => simp [step, here] at stepped
  | lose tid =>
      simp only [step] at stepped
      split at stepped <;> cases stepped
      exact goto_inv inv tid _

theorem initial_inv : Inv (initial : World K V) := by
  refine ⟨?_, ?_, fun _ _ => rfl, List.Pairwise.nil, fun k => ⟨?_, ?_⟩⟩
  · rintro _ _ ⟨⟩
  · rintro _ ⟨⟩
  · rintro _ _ ⟨⟩
  · simp [initial, World.leaves, together, Has, kinds]

end SetBench.SingleLog
