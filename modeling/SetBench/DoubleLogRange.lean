import SetBench.DoubleLogReconcile
import SetBench.KeyRange
import SetBench.Stamps

/-! range_internal at a log leaf of art_double_log_leaves.h: the leaf is read as of the local
stamp of the query. -/
namespace SetBench.DoubleLog

open Radix KeyVals
open Stamps (less)

variable {K V : Type} [RadixKey K]

/-- An entry with its time stamp, `none` for tbd. -/
structure Stamped (K V : Type) where
  entry : LogEntry K V
  timeStamp : Option Nat

-- The stamp after is_valid, whose set_stamp writes `writeStamp` over tbd.
def Stamped.stamp (e : Stamped K V) (writeStamp : Nat) : Nat := e.timeStamp.getD writeStamp

def addVisible (start stop : Option K) (validKVs : List (K × V)) (e : LogEntry K V) :
    List (K × V) :=
  if e.isDelete then validKVs.filter fun kv => kv.1 ≠ e.key
  else if inBounds start stop e.key then validKVs ++ [e.pair]
  else validKVs

/-- The log-leaf branch of range_internal: what is passed to add. `writeStamp` and
`writeStamp'` are what get_write_stamp returns in the two calls of is_valid. -/
def logLeafRange (localStamp writeStamp writeStamp' : Nat) (base : List (K × V))
    (log secondLog : Option (Stamped K V)) (start stop : Option K) : List (K × V) :=
  let validKVs := trimmed base start stop
  match log with
  | none => validKVs
  | some e =>
      if less localStamp (e.stamp writeStamp) then validKVs
      else
        let validKVs := addVisible start stop validKVs e.entry
        match secondLog with
        | none => validKVs
        | some e' =>
            if less localStamp (e'.stamp writeStamp') then validKVs
            else addVisible start stop validKVs e'.entry

/-- The map with the entry, if it is not later than the stamp. -/
def asOf (localStamp writeStamp : Nat) (log : Option (Stamped K V)) (map : K → Option V) :
    K → Option V :=
  match log with
  | none => map
  | some e => if e.stamp writeStamp ≤ localStamp then e.entry.update map else map

/-- A delete is recorded for a key that is there, an insert for one that is not. -/
def Suits (e : LogEntry K V) (map : K → Option V) : Prop := e.isDelete = true ↔ map e.key ≠ none

/-- Each key once, and exactly the pairs of the map within the bounds. -/
def Reports (pairs : List (K × V)) (map : K → Option V) (start stop : Option K) : Prop :=
  Distinct pairs ∧ ∀ k v, (k, v) ∈ pairs ↔ map k = some v ∧ InBounds start stop k

section View

variable {base : List (K × V)} {start stop : Option K}

theorem trimmed_reports (sorted : Sorted base) (start stop : Option K) :
    Reports (trimmed base start stop) (KeyVals.find base) start stop := by
  refine ⟨List.Pairwise.sublist (trimmed_sublist _ _ _) sorted.distinct, fun k v => ?_⟩
  rw [mem_trimmed sorted, find_some_iff sorted]

theorem Reports.addVisible {pairs : List (K × V)} {map : K → Option V} {e : LogEntry K V}
    (reports : Reports pairs map start stop) (suits : Suits e map) :
    Reports (addVisible start stop pairs e) (e.update map) start stop := by
  obtain ⟨distinct, members⟩ := reports
  unfold DoubleLog.addVisible
  cases kind : e.isDelete with
  | true =>
      rw [if_pos rfl]
      refine ⟨distinct.filter _, fun k v => ?_⟩
      rw [List.mem_filter, members, LogEntry.update, Function.update_apply, kind]
      by_cases same : k = e.key <;> simp [same]
  | false =>
      have absent : map e.key = none := by
        by_contra present
        rw [suits.mpr present] at kind
        cases kind
      have value (k : K) : e.update map k = if k = e.key then some e.value else map k := by
        rw [LogEntry.update, Function.update_apply, kind]
        rfl
      rw [if_neg Bool.false_ne_true]
      by_cases inside : inBounds start stop e.key = true
      · rw [if_pos inside]
        refine ⟨?_, fun k v => ?_⟩
        · refine List.pairwise_append.mpr ⟨distinct, List.pairwise_singleton _ _,
            fun one member other last => ?_⟩
          rw [List.mem_singleton.mp last]
          intro same
          have held := ((members one.1 one.2).mp member).1
          rw [same, LogEntry.pair, absent] at held
          cases held
        · rw [List.mem_append, members, List.mem_singleton, LogEntry.pair, Prod.mk.injEq, value]
          have bounds := (inBounds_iff start stop e.key).mp inside
          by_cases same : k = e.key
          · subst same
            simp [absent, bounds, eq_comm]
          · simp [same]
      · rw [if_neg inside]
        refine ⟨distinct, fun k v => ?_⟩
        rw [members, value]
        by_cases same : k = e.key
        · subst same
          have outside := mt (inBounds_iff start stop e.key).mpr inside
          simp [outside]
        · simp [same]

/-- A log leaf is reported as it was at the local stamp. -/
theorem log_leaf_snapshot (sorted : Sorted base) {log secondLog : Option (Stamped K V)}
    (localStamp writeStamp writeStamp' : Nat) (inOrder : secondLog ≠ none → log ≠ none)
    (first : ∀ e ∈ log, Suits e.entry (KeyVals.find base))
    (second : ∀ e ∈ log, ∀ e' ∈ secondLog, Suits e'.entry (e.entry.update (KeyVals.find base)) ∧
      e.stamp writeStamp ≤ e'.stamp writeStamp')
    (start stop : Option K) :
    Reports (logLeafRange localStamp writeStamp writeStamp' base log secondLog start stop)
      (asOf localStamp writeStamp' secondLog (asOf localStamp writeStamp log (KeyVals.find base)))
      start stop := by
  have whole := trimmed_reports sorted start stop
  cases log with
  | none =>
      have empty : secondLog = none := by
        by_contra there
        exact inOrder there rfl
      subst empty
      exact whole
  | some e =>
      have suits := first e rfl
      simp only [logLeafRange, asOf, less, decide_eq_true_eq]
      by_cases visible : e.stamp writeStamp ≤ localStamp
      · have one := whole.addVisible suits
        rw [if_neg (not_lt.mpr visible), if_pos visible]
        cases secondLog with
        | none => exact one
        | some e' =>
            obtain ⟨suits', _⟩ := second e rfl e' rfl
            by_cases visible' : e'.stamp writeStamp' ≤ localStamp
            · simp only [if_neg (not_lt.mpr visible'), if_pos visible']
              exact one.addVisible suits'
            · simp only [if_pos (not_le.mp visible'), if_neg visible']
              exact one
      · -- The second entry is not earlier, so it is not visible either.
        rw [if_pos (not_le.mp visible), if_neg visible]
        cases secondLog with
        | none => exact whole
        | some e' =>
            have later := (second e rfl e' rfl).2
            simp only [if_neg (show ¬ e'.stamp writeStamp' ≤ localStamp by omega)]
            exact whole

end View

-- 1 is deleted at stamp 5 and inserted again at stamp 7; a query at 6 sees neither value.
def threeKeys : List (Key × Nat) := [(1, 10), (2, 20), (3, 30)]

def deletedAtFive : Stamped Key Nat := ⟨⟨true, 1, 0⟩, some 5⟩

def insertedAtSeven : Stamped Key Nat := ⟨⟨false, 1, 11⟩, some 7⟩

theorem between_the_entries :
    logLeafRange 6 0 0 threeKeys (some deletedAtFive) (some insertedAtSeven) (some 1) (some 2) =
      [(2, 20)] ∧
    Reports (logLeafRange 6 0 0 threeKeys (some deletedAtFive) (some insertedAtSeven) (some 1)
      (some 2))
      (asOf 6 0 (some insertedAtSeven) (asOf 6 0 (some deletedAtFive) (KeyVals.find threeKeys)))
      (some 1) (some 2) := by
  have sorted : Sorted threeKeys := by
    unfold Sorted
    decide
  refine ⟨by decide +kernel, log_leaf_snapshot sorted 6 0 0 (fun _ => Option.some_ne_none _) ?_ ?_
    (some 1) (some 2)⟩
  · rintro _ ⟨⟩
    exact ⟨fun _ => by decide, fun _ => rfl⟩
  · rintro _ ⟨⟩ _ ⟨⟩
    refine ⟨⟨(fun deletes => nomatch deletes), fun present => absurd ?_ present⟩, ?_⟩
    · decide
    · decide

end SetBench.DoubleLog
