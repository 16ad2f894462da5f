import SetBench.ArtPlace
import SetBench.DoubleLogCopy

/-! The leaves of art_double_log_leaves.h. A log leaf answers for its array with up to
two log entries applied to it; an append changes the leaf in place and neither its
header key nor its byte_num. -/
namespace SetBench.DoubleLog

open Radix KeyVals Art

variable {K V : Type} [RadixKey K]

def maxSmallLeafSize : Nat := 2

def maxBigLeafSize : Nat := 14

/-- A generic_log_leaf when `isLog`, a small generic_leaf without log entries otherwise. -/
structure Leaf (K V : Type) where
  isLog : Bool
  key : K
  byteNum : Nat
  keyVals : List (K × V)
  log : Option (LogEntry K V)
  secondLog : Option (LogEntry K V)

namespace Leaf

def size (l : Leaf K V) : Nat := l.keyVals.length

def isAppendable (l : Leaf K V) : Bool := l.log.isNone || l.secondLog.isNone

def append (l : Leaf K V) (e : LogEntry K V) : Leaf K V :=
  if l.log.isSome then { l with secondLog := some e } else { l with log := some e }

-- The two find functions; the small leaf has only its array.
def find (l : Leaf K V) (k : K) : Option V :=
  if l.isLog then
    ((l.secondLog.bind fun e => e.answer k).or (l.log.bind fun e => e.answer k)).getD
    (KeyVals.find l.keyVals k)
  else KeyVals.find l.keyVals k

def sizeAfter (n : Nat) : Option (LogEntry K V) → Nat
  | none => n
  | some e => if e.isDelete then n - 1 else n + 1

def realSize (l : Leaf K V) : Nat := sizeAfter (sizeAfter l.size l.log) l.secondLog

def applied (entries : List (K × V)) : Option (LogEntry K V) → List (K × V)
  | none => entries
  | some e => e.applyTo entries

/-- The array with the log entries applied: what the split paths collect. -/
def contents (l : Leaf K V) : List (K × V) := applied (applied l.keyVals l.log) l.secondLog

-- create singleton leaf
def single (k : K) (v : V) : Leaf K V := ⟨false, k, RadixKey.size K, [(k, v)], none, none⟩

-- add to leaf, and CoW add from a regular leaf
def add (isLog : Bool) (bytePos : Nat) (l : Leaf K V) (k : K) (v : V) : Leaf K V :=
  ⟨isLog, l.key, bytePos, insert l.keyVals k v, none, none⟩

-- A leaf of the given pairs, with the header recomputed from the byte_num of `l`.
def rebuilt (isLog : Bool) (l : Leaf K V) : List (K × V) → Leaf K V
  | [] => ⟨isLog, l.key, l.byteNum, [], none, none⟩
  | start :: rest => ⟨isLog, start.1, firstDiff l.byteNum start rest, start :: rest, none, none⟩

-- remove from leaf
def remove (l : Leaf K V) (k : K) : Leaf K V := rebuilt false l (without [k] l.keyVals)

-- new_leaf, with the multi-pair constructors
def ofPairs (bytePos : Nat) (start : K × V) (rest : List (K × V)) : Leaf K V :=
  ⟨decide (maxSmallLeafSize < rest.length + 1), start.1, firstDiff bytePos start rest,
    start :: rest, none, none⟩

-- CoW add kv pair to leaf, from a non-appendable log leaf: the header key is kept and
-- byte_num is the position of the search.
def addLogged (bytePos : Nat) (l : Leaf K V) (log secondLog : LogEntry K V) (k : K) (v : V) :
    Leaf K V :=
  ⟨true, l.key, bytePos, cowAdd l.keyVals log secondLog k v, none, none⟩

-- The leaves that replace a leaf on the split paths.
def divide (bytePos : Nat) (start : K × V) (rest : List (K × V)) : List (Leaf K V) :=
  (splitLoop bytePos start [] rest).map fun group => ofPairs (bytePos + 1) group.1 group.2

end Leaf

instance : RadixLeaf K V (Leaf K V) where
  key := Leaf.key
  byteNum := Leaf.byteNum
  pairs := Leaf.contents

namespace Leaf

/-- Every leaf ever built, and every leaf after an append: the array is sorted and fits, that of
a small leaf holds a pair, and each log entry says something new about the pairs before it. -/
structure Ok (l : Leaf K V) : Prop where
  sorted : Sorted l.keyVals
  first : ∀ e, l.log = some e → e.Consistent l.keyVals
  second : ∀ e, l.secondLog = some e → ∃ before, l.log = some before ∧
    e.Consistent (before.applyTo l.keyVals)
  small : l.isLog = false → l.log = none ∧ l.size ≤ maxSmallLeafSize
  large : l.isLog = true → l.size ≤ maxBigLeafSize
  held : l.isLog = false → 0 < l.size

variable {l : Leaf K V} {k : K} {v : V} {log secondLog : LogEntry K V}

theorem contents_plain (empty : l.log = none) (empty' : l.secondLog = none) :
    l.contents = l.keyVals := by
  simp [contents, applied, empty, empty']

theorem contents_logged (one : l.log = some log) (two : l.secondLog = some secondLog) :
    l.contents = secondLog.applyTo (log.applyTo l.keyVals) := by
  simp [contents, applied, one, two]

theorem plain_ok (sorted : Sorted l.keyVals) (empty : l.log = none) (empty' : l.secondLog = none)
    (small : l.isLog = false → l.size ≤ maxSmallLeafSize)
    (large : l.isLog = true → l.size ≤ maxBigLeafSize) (held : l.isLog = false → 0 < l.size) :
    Ok l where
  sorted := sorted
  first := by simp [empty]
  second := by simp [empty']
  small := fun kind => ⟨empty, small kind⟩
  large := large
  held := held

section Ok

variable (ok : Ok l)
include ok

theorem Ok.logged (one : l.log = some log) (two : l.secondLog = some secondLog) :
    Logged l.keyVals log secondLog := by
  obtain ⟨before, same, consistent⟩ := ok.second secondLog two
  rw [one] at same
  cases same
  exact ⟨ok.sorted, ok.first log one, consistent⟩

-- The entries are filled in order.
theorem Ok.second_none (empty : l.log = none) : l.secondLog = none := by
  cases two : l.secondLog with
  | none => rfl
  | some e =>
      obtain ⟨before, same, _⟩ := ok.second e two
      rw [empty] at same
      cases same

theorem Ok.distinct : Distinct l.contents := by
  cases one : l.log with
  | none =>
      rw [contents_plain one (ok.second_none one)]
      exact ok.sorted.distinct
  | some log =>
      have first := (ok.first log one).distinct ok.sorted.distinct
      cases two : l.secondLog with
      | none => simpa [contents, applied, one, two] using first
      | some secondLog =>
          rw [contents_logged one two]
          exact (ok.logged one two).second.distinct first

theorem Ok.find_iff (k : K) (v : V) : l.find k = some v ↔ (k, v) ∈ l.contents := by
  have base := find_some_iff ok.sorted k v
  cases one : l.log with
  | none =>
      have two := ok.second_none one
      rw [contents_plain one two, ← base]
      simp [find, one, two]
  | some log =>
      have kind : l.isLog = true := by
        by_contra other
        have := (ok.small (Bool.eq_false_iff.mpr other)).1
        rw [one] at this
        cases this
      have first := (ok.first log one).find_iff base
      cases two : l.secondLog with
      | none => simpa [find, kind, contents, applied, one, two] using first
      | some secondLog =>
          have second := (ok.logged one two).second.find_iff first
          rw [contents_logged one two, ← second]
          simp only [find, kind, one, two, if_true, Option.bind_some]
          cases secondLog.answer k <;> rfl

theorem Ok.find_none (k : K) (missing : l.find k = none) (v : V) : (k, v) ∉ l.contents := by
  rw [← ok.find_iff, missing]
  simp

theorem Ok.realSize_eq : l.realSize = l.contents.length := by
  have step {entries : List (K × V)} {e : LogEntry K V} (consistent : e.Consistent entries)
    (distinct : Distinct entries) :
      sizeAfter entries.length (some e) = (e.applyTo entries).length := by
    cases kind : e.isDelete with
    | true => rw [consistent.length_delete distinct kind, sizeAfter, if_pos kind]
    | false => rw [LogEntry.length_insert kind, sizeAfter, if_neg (by simp [kind])]
  cases one : l.log with
  | none =>
      have two := ok.second_none one
      rw [contents_plain one two, realSize, one, two]
      rfl
  | some log =>
      have first := step (ok.first log one) ok.sorted.distinct
      cases two : l.secondLog with
      | none =>
          simp only [realSize, contents, applied, one, two, size, first]
          rfl
      | some secondLog =>
          have second := step (ok.logged one two).second
            ((ok.first log one).distinct ok.sorted.distinct)
          rw [contents_logged one two, realSize, one, two, size, first, second]

/-- An append to a leaf with a free entry. -/
theorem Ok.append (kind : l.isLog = true) (free : l.isAppendable = true) {e : LogEntry K V}
    (consistent : e.Consistent l.contents) :
    Ok (l.append e) ∧ (l.append e).contents = e.applyTo l.contents := by
  cases one : l.log with
  | none =>
      have two := ok.second_none one
      rw [contents_plain one two] at consistent ⊢
      have same : l.append e = { l with log := some e } := by simp [Leaf.append, one]
      rw [same]
      refine ⟨⟨ok.sorted, ?_, by simp [two], by simp [kind], ok.large, by simp [kind]⟩, by
        simp [contents, applied, two]⟩
      rintro _ ⟨⟩
      exact consistent
  | some log =>
      have two : l.secondLog = none := by simpa [isAppendable, one] using free
      have whole : l.contents = log.applyTo l.keyVals := by simp [contents, applied, one, two]
      rw [whole] at consistent ⊢
      have same : l.append e = { l with secondLog := some e } := by simp [Leaf.append, one]
      rw [same]
      refine ⟨⟨ok.sorted, ok.first, ?_, by simp [kind], ok.large, by simp [kind]⟩,
        by simp [contents, applied, one]⟩
      rintro _ ⟨⟩
      exact ⟨log, one, consistent⟩

end Ok

theorem single_ok (k : K) (v : V) : Ok (single k v) :=
  plain_ok (List.pairwise_singleton _ _) rfl rfl (fun _ => Nat.le_succ 1)
    (fun kind => nomatch kind) fun _ => Nat.one_pos

theorem single_one (k : K) (v : V) {pos : Nat} (inside : pos < RadixKey.size K) :
    OneKey (single k v) k v pos :=
  ⟨rfl, rfl, inside⟩

/-- The leaf with one pair more, of either kind, from a small leaf. -/
theorem add_spec (ok : Ok l) (kind : l.isLog = false) (missing : l.find k = none) (v : V)
    (isLog : Bool) (room : isLog = false → l.size < maxSmallLeafSize) (bytePos : Nat) :
    Ok (add isLog bytePos l k v) ∧
    ∀ entry, entry ∈ (add isLog bytePos l k v).contents ↔ entry ∈ l.contents ∨ entry = (k, v) := by
  obtain ⟨empty, few⟩ := ok.small kind
  have plain := contents_plain empty (ok.second_none empty)
  have absent (v : V) := ok.find_none k missing v
  rw [plain] at absent ⊢
  have length : (add isLog bytePos l k v).size = l.size + 1 := length_insert _ _ _
  refine ⟨plain_ok (insert_sorted ok.sorted v absent) rfl rfl (fun small => ?_) (fun _ => ?_)
    fun _ => ?_, mem_insert _ _ _⟩
  · have := room small
    omega
  · rw [length]
    exact Nat.le_trans (Nat.succ_le_succ few) (by decide)
  · rw [length]
    exact Nat.succ_pos _

section Logged

variable (ok : Ok l) (one : l.log = some log) (two : l.secondLog = some secondLog)
include ok one two

theorem addLogged_spec (missing : l.find k = none) (v : V) (room : l.realSize < maxBigLeafSize)
    (bytePos : Nat) :
    Ok (addLogged bytePos l log secondLog k v) ∧
    ∀ entry, entry ∈ (addLogged bytePos l log secondLog k v).contents ↔ entry ∈ l.contents ∨
      entry = (k, v) := by
  have absent (v : V) := ok.find_none k missing v
  have distinct := ok.distinct
  rw [ok.realSize_eq] at room
  rw [contents_logged one two] at absent distinct room ⊢
  have lists := cowAdd_lists (ok.logged one two) absent v
  -- The new array holds the old contents and one pair more, so it is one pair longer.
  have length : (cowAdd l.keyVals log secondLog k v).length =
    (secondLog.applyTo (log.applyTo l.keyVals)).length + 1 := by
    have larger : Distinct ((k, v) :: secondLog.applyTo (log.applyTo l.keyVals)) := by
      refine List.pairwise_cons.mpr ⟨fun entry member same => absent entry.2 ?_, distinct⟩
      have same : k = entry.1 := same
      rw [same]
      exact member
    refine (lists.1.distinct.length_eq larger fun entry => ?_).trans List.length_cons
    rw [lists.2, List.mem_cons, or_comm]
  refine ⟨plain_ok lists.1 rfl rfl (fun kind => nomatch kind) (fun _ => ?_)
    (fun kind => nomatch kind), lists.2⟩
  rw [size, addLogged, length]
  exact room

omit one two in
theorem removed_length {built : List (K × V)} (found : l.find k = some v)
    (lists : Lists built fun entry => entry ∈ l.contents ∧ entry.1 ≠ k) :
    built.length + 1 = l.realSize := by
  rw [ok.realSize_eq, ← length_filter_ne ok.distinct ((ok.find_iff k v).mp found),
    Nat.add_right_cancel_iff]
  refine lists.1.distinct.length_eq (ok.distinct.filter _) fun entry => ?_
  rw [lists.2, List.mem_filter]
  simp

end Logged

/-! The recomputed header of the removing constructors. -/

theorem rebuilt_keyVals (isLog : Bool) (l : Leaf K V) (entries : List (K × V)) :
    (rebuilt isLog l entries).keyVals = entries ∧ (rebuilt isLog l entries).log = none ∧
    (rebuilt isLog l entries).secondLog = none ∧ (rebuilt isLog l entries).isLog = isLog := by
  cases entries <;> exact ⟨rfl, rfl, rfl, rfl⟩

theorem rebuilt_contents (isLog : Bool) (l : Leaf K V) (entries : List (K × V)) :
    (rebuilt isLog l entries).contents = entries := by
  obtain ⟨array, empty, empty', _⟩ := rebuilt_keyVals isLog l entries
  rw [contents_plain empty empty', array]

theorem rebuilt_ok {isLog : Bool} {entries : List (K × V)} (sorted : Sorted entries)
    (small : isLog = false → entries.length ≤ maxSmallLeafSize)
    (large : entries.length ≤ maxBigLeafSize) (held : 0 < entries.length) :
    Ok (rebuilt isLog l entries) := by
  obtain ⟨array, empty, empty', kind⟩ := rebuilt_keyVals isLog l entries
  refine plain_ok (by rw [array]; exact sorted) empty empty' ?_ ?_ ?_
  · rw [size, array, kind]
    exact small
  · rw [size, array]
    exact fun _ => large
  · rw [size, array]
    exact fun _ => held

theorem rebuilt_header (isLog : Bool) {entries : List (K × V)} (nonempty : entries ≠ []) {pos : Nat}
    (below : pos < l.byteNum) (inside : pos < RadixKey.size K) :
    (∃ v, ((rebuilt isLog l entries).key, v) ∈ entries) ∧
    pos < (rebuilt isLog l entries).byteNum := by
  cases entries with
  | nil => exact absurd rfl nonempty
  | cons start rest => exact ⟨⟨start.2, .head _⟩, firstDiff_deep start rest below inside⟩

/-! The split. -/

/-- No fifteen neighbours share the byte at `bytePos`. -/
def Thin (bytePos : Nat) (pairs : List (K × V)) : Prop :=
  ∀ tail ∈ pairs.tails, maxBigLeafSize < tail.length →
    ∃ one ∈ tail.take (maxBigLeafSize + 1), ∃ other ∈ tail.take (maxBigLeafSize + 1),
      RadixKey.byte one.1 bytePos ≠ RadixKey.byte other.1 bytePos

instance (bytePos : Nat) (pairs : List (K × V)) : Decidable (Thin bytePos pairs) :=
  inferInstanceAs (Decidable (∀ tail ∈ pairs.tails, _ → _))

section Divide

variable {bytePos : Nat} {start : K × V} {rest : List (K × V)}

-- A group that is handed to new_leaf is a run of neighbours with one byte.
theorem group_length (thin : Thin bytePos (start :: rest)) {group : (K × V) × List (K × V)}
    (member : group ∈ splitLoop bytePos start [] rest) : (whole group).length ≤ maxBigLeafSize := by
  by_contra more
  obtain ⟨before, after, same⟩ := splitLoop_infix member
  have suffix : whole group ++ after ∈ (start :: rest).tails := by
    rw [List.mem_tails]
    exact ⟨before, by rw [← List.append_assoc]; exact same⟩
  obtain ⟨one, first, other, second, differs⟩ := thin _ suffix (by rw [List.length_append]; omega)
  rw [List.take_append_of_le_length (by omega)] at first second
  have bytes := splitLoop_bytes (by simp) member
  exact differs ((bytes one (List.mem_of_mem_take first)).trans
    (bytes other (List.mem_of_mem_take second)).symm)

theorem divide_ok (sorted : Sorted (start :: rest)) (thin : Thin bytePos (start :: rest)) :
    ∀ l ∈ divide bytePos start rest, Ok l := by
  intro l member
  obtain ⟨group, held, rfl⟩ := List.mem_map.mp member
  have ordered : Sorted (whole group) := List.Pairwise.sublist (splitLoop_sublist held) sorted
  refine plain_ok ordered rfl rfl (fun kind => ?_) (fun _ => group_length thin held)
    fun _ => List.length_pos_of_mem (.head _)
  simp only [ofPairs, decide_eq_false_iff_not, not_lt] at kind
  exact kind

theorem divide_divided (sorted : Sorted (start :: rest))
    (agree : ∀ kv ∈ start :: rest, Agree kv.1 start.1 bytePos)
    (inside : bytePos < RadixKey.size K) : Divided bytePos start.1 (divide bytePos start rest) :=
  runs_divided (fun _ => rfl) (fun _ => rfl) sorted agree fun group _ =>
    firstDiff_deep group.1 group.2 (Nat.lt_succ_self _) inside

theorem divide_mem (bytePos : Nat) (start : K × V) (rest : List (K × V)) (entry : K × V) :
    (∃ l ∈ divide bytePos start rest, entry ∈ l.contents) ↔ entry ∈ start :: rest :=
  runs_mem (fun group => ofPairs (bytePos + 1) group.1 group.2) (fun _ => rfl) bytePos start rest
    entry

theorem divide_length (bytePos : Nat) (start : K × V) (rest : List (K × V)) :
    1 ≤ (divide bytePos start rest).length ∧
      (divide bytePos start rest).length ≤ (start :: rest).length := by
  rw [divide, List.length_map]
  refine ⟨?_, splitLoop_length bytePos start [] rest⟩
  obtain ⟨tail, others, same⟩ := splitLoop_head bytePos start [] rest
  rw [same]
  exact Nat.succ_le_succ (Nat.zero_le _)

end Divide

end Leaf

end SetBench.DoubleLog
