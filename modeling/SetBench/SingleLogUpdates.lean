import SetBench.SingleLogShape

/-! Exactly when the updates of a slot are kept: a body that writes on a find that is no
longer true inserts a key twice, deletes an absent one or cuts a pair off. -/
namespace SetBench.SingleLog

open Radix KeyVals MapSpec Transition
open ArtThreads (Kind kinds Alternates kinds_append)

variable {K V : Type} [RadixKey K]

/-- No key twice in the slot; a log entry, appended while the leaf had none, deletes a
key of the base pairs or inserts one they lack; successful calls on a key by turns, and
the slot holds the keys whose last successful call is an insert. -/
structure NoLostUpdate (w : World K V) : Prop where
  once : Distinct (together w.leaves)
  logged : ∀ id l e, w.leaf id = some l → l.log = some e →
    (e.isDelete = true ↔ Has l.keyVals e.key)
  turns : ∀ k, Alternates (kinds k w.links)
  kept : ∀ k, Has (together w.leaves) k ↔ (kinds k w.links).length % 2 = 1

variable {w after : World K V} {c : Option Nat} {l : Leaf K V} {k : K}

theorem Inv.noLostUpdate (inv : Inv w) : NoLostUpdate w :=
  ⟨inv.distinct, fun id l e held log => (inv.ok id l held).logged e log,
    fun k => (inv.history k).1, fun k => (inv.history k).2⟩

/-- The finds of the threads: a leaf without log changes under no one. -/
structure Steady (w : World K V) : Prop where
  inv : Inv w
  sized : ∀ id l, w.leaf id = some l → Sized l
  found : ∀ tid op c answer, w.thread tid = .found op c answer →
    (∀ id, c = some id → ∃ l, w.leaf id = some l) ∧
    ((∀ l, w.deref c = some l → l.isLog = false) → (w.findAt c (opKey op)).isSome = answer.isSome)

/-! What a write leaves of the leaves. -/

/-- The leaves after a write: one allocated, one appended to, or as they were. -/
inductive Changed (w : World K V) (leaf : Nat → Option (Leaf K V)) : Prop where
  | same (eq : leaf = w.leaf)
  | appended (id : Nat) (l : Leaf K V) (e : LogEntry K V) (held : w.leaf id = some l)
      (log : l.isLog = true) (eq : leaf = Function.update w.leaf id (some { l with log := some e }))
  | allocated (l : Leaf K V) (sized : Sized l) (eq : leaf = Function.update w.leaf w.fresh (some l))

omit [RadixKey K] in
theorem Changed.sized (changed : Changed w after.leaf)
    (sized : ∀ id l, w.leaf id = some l → Sized l) :
    ∀ id l, after.leaf id = some l → Sized l := by
  intro id l held
  cases changed with
  | same leaf =>
      rw [leaf] at held
      exact sized id l held
  | appended there old e before _ leaf =>
      rw [leaf] at held
      by_cases same : id = there
      · subst same
        rw [Function.update_self] at held
        cases held
        exact sized id old before
      · rw [Function.update_of_ne same] at held
        exact sized id l held
  | allocated new fits leaf =>
      rw [leaf] at held
      by_cases same : id = w.fresh
      · subst same
        rw [Function.update_self] at held
        cases held
        exact fits
      · rw [Function.update_of_ne same] at held
        exact sized id l held

/-- A leaf stays where it is, and as it is unless it has a log. -/
theorem Changed.keeps (changed : Changed w after.leaf) (inv : Inv w) {id : Nat}
    (held : w.leaf id = some l) :
    (∃ l', after.leaf id = some l' ∧ l'.isLog = l.isLog) ∧
    (l.isLog = false → after.leaf id = some l) := by
  cases changed with
  | same leaf =>
      rw [leaf]
      exact ⟨⟨l, held, rfl⟩, fun _ => held⟩
  | appended there old e before log leaf =>
      rw [leaf]
      by_cases same : id = there
      · subst same
        cases held.symm.trans before
        rw [Function.update_self]
        refine ⟨⟨_, rfl, rfl⟩, fun plain => ?_⟩
        rw [log] at plain
        cases plain
      · rw [Function.update_of_ne same]
        exact ⟨⟨l, held, rfl⟩, fun _ => held⟩
  | allocated new _ leaf =>
      have other : id ≠ w.fresh := by
        rintro rfl
        rw [inv.unused w.fresh (Nat.le_refl _)] at held
        cases held
      rw [leaf, Function.update_of_ne other]
      exact ⟨⟨l, held, rfl⟩, fun _ => held⟩

theorem Changed.found (changed : Changed w after.leaf) (inv : Inv w) {answer : Option V}
    (found : (∀ id, c = some id → ∃ l, w.leaf id = some l) ∧
      ((∀ l, w.deref c = some l → l.isLog = false) → (w.findAt c k).isSome = answer.isSome)) :
    (∀ id, c = some id → ∃ l, after.leaf id = some l) ∧
      ((∀ l, after.deref c = some l → l.isLog = false) →
        (after.findAt c k).isSome = answer.isSome) := by
  cases c with
  | none =>
      exact ⟨(fun _ absurd => nomatch absurd), fun _ => found.2 fun _ absurd => nomatch absurd⟩
  | some id =>
      obtain ⟨l, held⟩ := found.1 id rfl
      obtain ⟨⟨l', there, kind⟩, still⟩ := changed.keeps inv held
      refine ⟨?_, fun plain => ?_⟩
      · rintro _ ⟨⟩
        exact ⟨l', there⟩
      · have plain : l.isLog = false := by
          rw [← kind]
          exact plain l' there
        have before := found.2 fun m same => by
          have same : w.leaf id = some m := same
          cases held.symm.trans same
          exact plain
        have same : after.findAt (some id) k = w.findAt (some id) k := by
          simp [World.findAt, World.deref, still plain, held]
        rw [same]
        exact before

omit [RadixKey K] in
theorem changed_write (outcome : Outcome K V)
    (append : ∀ e, outcome = .append e → ∃ l, w.deref c = some l ∧ l.isLog = true)
    (copy : ∀ l, outcome = .copy l → Sized l) : Changed w (w.write c outcome).leaf := by
  cases outcome with
  | append e =>
      obtain ⟨l, here, log⟩ := append e rfl
      obtain ⟨id, rfl, held⟩ := Option.bind_eq_some_iff.mp here
      exact .appended id l e held log (by simp [World.write, held])
  | copy l => exact .allocated l (copy l rfl) rfl
  | divide leaves => exact .same rfl
  | clear => exact .same rfl

omit [RadixKey K] in
theorem goto_thread (w : World K V) (tid other : Nat) (thread : Thread K V) :
    (w.goto tid thread).thread other = if other = tid then thread else w.thread other := by
  simp [World.goto, Function.update_apply]

omit [RadixKey K] in
theorem write_thread (w : World K V) (c : Option Nat) (outcome : Outcome K V) :
    (w.write c outcome).thread = w.thread := by
  cases outcome <;> cases c <;> rfl

omit [RadixKey K] in
theorem link_thread (w : World K V) (c : Option Nat) (outcome : Outcome K V) (k : K) (kind : Kind)
    (tid other : Nat) :
    (((w.write c outcome).link k kind).goto tid .idle).thread other = if other = tid then .idle
    else w.thread other := by
  rw [goto_thread]
  simp only [World.link, write_thread]

-- A thread that is not between its find and its body carries no find.
theorem Steady.next (steady : Steady w) (inv : Inv after) (changed : Changed w after.leaf)
    {tid : Nat} {thread : Thread K V}
    (threads : ∀ other, after.thread other = if other = tid then thread else w.thread other)
    (fresh : ∀ op c answer, thread ≠ .found op c answer) : Steady after := by
  refine ⟨inv, changed.sized steady.sized, fun other op c answer here => ?_⟩
  rw [threads other] at here
  split at here
  · exact absurd here (fresh op c answer)
  · exact changed.found steady.inv (steady.found other op c answer here)

theorem insertBody_log {e : LogEntry K V} {bytePos : Nat} {v : V}
    (made : insertBody bytePos (some l) k v = .append e) :
    l.isLog = true := by
  simp only [insertBody] at made
  split at made
  · assumption
  · cases made

theorem removeBody_log {e : LogEntry K V} {noValue : V}
    (made : removeBody noValue l k = .append e) : l.isLog = true := by
  simp only [removeBody] at made
  split at made
  · assumption
  · split at made <;> cases made

theorem Steady.ok (steady : Steady w) (held : w.deref c = some l) : Leaf.Ok l ∧ Sized l := by
  obtain ⟨id, _, there⟩ := Option.bind_eq_some_iff.mp held
  exact ⟨steady.inv.ok id l there, steady.sized id l there⟩

theorem insertBody_changed (steady : Steady w) (bytePos : Nat) (v : V)
    (absent : (w.findAt c k).isNone = true) :
    Changed w (w.write c (insertBody bytePos (w.deref c) k v)).leaf := by
  cases held : w.deref c with
  | none =>
      refine changed_write _ (fun e made => ?_) fun l made => ?_
      · cases made
      · cases made
        exact ⟨Nat.one_pos, Nat.le_succ 1⟩
  | some l =>
      obtain ⟨ok, sized⟩ := steady.ok held
      have absent : ¬ Has l.contents k := by
        rw [← ok.find_isSome k, Bool.not_eq_true, Option.isSome_eq_false_iff]
        simpa [World.findAt, held] using absent
      exact changed_write _ (fun e made => ⟨l, held, insertBody_log made⟩)
        fun copy made => insertBody_sized ok sized absent made

theorem removeBody_changed (steady : Steady w) (noValue : V) (held : w.deref c = some l)
    (present : (l.find k).isSome = true) : Changed w (w.write c (removeBody noValue l k)).leaf := by
  obtain ⟨ok, sized⟩ := steady.ok held
  exact changed_write _ (fun e made => ⟨l, held, removeBody_log made⟩)
    fun copy made => removeBody_sized ok sized ((ok.find_isSome k).mp present) made

theorem bodyStep_steady (noValue : V) (steady : Steady w) (tid bytePos : Nat) (op : Op K V)
    (answer : Option V) (still : (Thread.found op c answer).StillTrue w) :
    Steady (bodyStep noValue w tid bytePos op c answer) := by
  have inv := bodyStep_inv noValue steady.inv tid bytePos op answer still
  have idle : ∀ op c answer, (Thread.idle : Thread K V) ≠ .found op c answer := by rintro _ _ _ ⟨⟩
  have again (op' : Op K V) : ∀ op c answer, Thread.run op' ≠ .found op c answer := by
    rintro _ _ _ ⟨⟩
  unfold bodyStep at inv ⊢
  by_cases here : w.slot.pointer = some c
  · rw [if_neg (not_not.mpr here)] at inv ⊢
    cases op with
    | insert k v =>
        cases answer with
        | some old =>
            simp only at inv ⊢
            split
            · rename_i found
              rw [if_pos found] at inv
              exact steady.next inv (.same rfl) (goto_thread w tid · _) idle
            · rename_i found
              rw [if_neg found] at inv
              exact steady.next inv (.same rfl) (goto_thread w tid · _) (again _)
        | none =>
            have changed := insertBody_changed steady bytePos v (still here)
            exact steady.next inv changed (link_thread w c _ k .insert tid) idle
    | remove k =>
        cases answer with
        | none => exact steady.next inv (.same rfl) (goto_thread w tid · _) idle
        | some old =>
            simp only at inv ⊢
            cases held : w.deref c with
            | none => exact steady
            | some l =>
                have found : (l.find k).isSome = true := by
                  simpa [World.findAt, held] using still here
                simp only [held, found, if_true] at inv ⊢
                have changed := removeBody_changed steady noValue held found
                exact steady.next inv changed (link_thread w c _ k .remove tid) idle
  · rw [if_pos here] at inv ⊢
    exact steady.next inv (.same rfl) (goto_thread w tid · _) (again _)

theorem step_steady (noValue : V) (steady : Steady w) (event : Event K V)
    (still : StillTrue w event) (stepped : step noValue w event = some after) : Steady after := by
  have inv := step_inv noValue steady.inv event still stepped
  cases event with
  | call tid op =>
      simp only [step] at stepped
      split at stepped <;> cases stepped
      exact steady.next inv (.same rfl) (goto_thread w tid · _) (by rintro _ _ _ ⟨⟩)
  | look tid =>
      simp only [step] at stepped
      split at stepped <;> cases stepped
      rename_i op c _ pointer
      refine ⟨inv, steady.sized, fun other op' c' answer here => ?_⟩
      rw [goto_thread] at here
      split at here
      · cases here
        refine ⟨?_, fun _ => rfl⟩
        rintro id rfl
        exact steady.inv.allocated id (pointer_leaf pointer)
      · exact steady.found other op' c' answer here
  | body tid bytePos =>
      cases here : w.thread tid with
      | found op c answer =>
          simp only [step, here, Option.some.injEq] at stepped
          simp only [StillTrue, here] at still
          subst stepped
          exact bodyStep_steady noValue steady tid bytePos op answer still
      | _ => simp [step, here] at stepped
  | lose tid =>
      simp only [step] at stepped
      split at stepped <;> cases stepped
      exact steady.next inv (.same rfl) (goto_thread w tid · _) (by rintro _ _ _ ⟨⟩)

/-! A body that writes on a find that is no longer true. -/

theorem stale_insert (steady : Steady w) {tid bytePos : Nat} {v : V}
    (here : w.slot.pointer = some c) (stale : (w.findAt c k).isNone ≠ true) (noValue : V) :
    ¬ NoLostUpdate (bodyStep noValue w tid bytePos (.insert k v) c none) := by
  have present : Has (together w.leaves) k := by
    rw [← findAt_iff steady.inv here, ← Option.not_isNone, Bool.not_eq_true']
    exact Bool.eq_false_iff.mpr stale
  have odd := (steady.inv.history k).2.mp present
  intro sound
  have links : (bodyStep noValue w tid bytePos (.insert k v) c none).links =
    w.links ++ [(k, .insert)] := by
    simp [bodyStep, here, World.goto, World.link, write_links]
  have turn := sound.turns k (kinds k w.links).length .insert (by
    rw [links, kinds_append, if_pos rfl]
    exact List.getElem?_concat_length)
  rw [if_neg (by omega)] at turn
  cases turn

omit [RadixKey K] in
-- The array that is one pair too short for the keys it has to hold.
theorem keys_lost {entries fewer : List (K × V)} (distinct : Distinct entries)
    (shorter : fewer.length < entries.length) :
    ¬ ∀ k, Has fewer k ↔ Has entries k := by
  intro same
  have unique : (entries.map Prod.fst).Nodup := List.pairwise_map.mpr distinct
  have inside : entries.map Prod.fst ⊆ fewer.map Prod.fst := by
    intro k member
    obtain ⟨entry, old, rfl⟩ := List.mem_map.mp member
    obtain ⟨v, there⟩ := (same entry.1).mpr ⟨entry.2, old⟩
    exact List.mem_map.mpr ⟨(entry.1, v), there, rfl⟩
  have length := (unique.subperm inside).length_le
  rw [List.length_map, List.length_map] at length
  omega

theorem cowRemove_short (ok : Leaf.Ok l) (sized : Sized l) (log : l.isLog = true)
    {e : LogEntry K V} (held : l.log = some e) (absent : ¬ Has l.contents k) :
    (cowRemove l.keyVals e k).length < l.contents.length := by
  rw [Sized, if_pos log] at sized
  have small : maxSmallLeafSize = 2 := rfl
  have size : l.keyVals.length = l.size := rfl
  rw [Leaf.contents_some held] at absent ⊢
  have consistent := ok.logged e held
  unfold cowRemove
  cases deletes : e.isDelete with
  | true =>
      obtain ⟨v, member⟩ := consistent.present deletes
      have length := length_without ok.sorted member
      have same : e.applyTo l.keyVals = without [e.key] l.keyVals := by
        simp [LogEntry.applyTo, deletes, without]
      rw [same]
      simp only [if_true, List.length_take]
      omega
  | false =>
      have other : e.key ≠ k := by
        rintro rfl
        exact absent ⟨e.value, (LogEntry.mem_insert deletes _).mpr (.inr rfl)⟩
      have longer : (e.applyTo l.keyVals).length = l.keyVals.length + 1 := by
        simp [LogEntry.applyTo, deletes]
      rw [longer, if_neg Bool.false_ne_true, if_neg other, List.length_take]
      omega

theorem stale_remove (steady : Steady w) {tid bytePos : Nat} {old : V}
    (running : w.thread tid = .found (.remove k) c (some old)) (here : w.slot.pointer = some c)
    (stale : (w.findAt c k).isSome ≠ true) (noValue : V) :
    ¬ NoLostUpdate (bodyStep noValue w tid bytePos (.remove k) c (some old)) := by
  obtain ⟨there, agrees⟩ := steady.found tid _ c _ running
  -- The leaf has a log, or it would still answer as it did.
  have log : ∃ l, w.deref c = some l ∧ l.isLog = true := by
    by_contra none_
    refine stale (agrees fun l held => ?_)
    rw [← Bool.not_eq_true]
    exact fun log => none_ ⟨l, held, log⟩
  obtain ⟨l, held, log⟩ := log
  obtain ⟨id, rfl, leaf⟩ := Option.bind_eq_some_iff.mp held
  obtain ⟨ok, sized⟩ := steady.ok held
  have gone : (l.find k).isSome = false := by
    simpa [World.findAt, held] using stale
  have absent : ¬ Has l.contents k := by
    rw [← ok.find_isSome k, gone]
    exact Bool.false_ne_true
  have result : bodyStep noValue w tid bytePos (.remove k) (some id) (some old) =
      (w.write (some id) (removeBody noValue l k)).goto tid (.run (.remove k)) := by
    simp [bodyStep, here, held, gone]
  rw [result]
  intro sound
  cases free : l.log with
  | none =>
      have body : removeBody noValue l k = .append ⟨true, k, noValue⟩ := by
        simp [removeBody, log, free]
      rw [body] at sound
      have after := sound.logged id { l with log := some ⟨true, k, noValue⟩ } _
        (by simp [World.write, World.goto, leaf]) rfl
      rw [Leaf.contents_none free] at absent
      exact absent (after.mp rfl)
  | some e =>
      obtain ⟨copy, body, array⟩ : ∃ copy, removeBody noValue l k = .copy copy ∧ copy.contents =
        cowRemove l.keyVals e k :=
        ⟨_, by simp only [removeBody, log, free, if_true]; rfl, rfl⟩
      rw [body] at sound
      refine keys_lost ok.distinct (cowRemove_short ok sized log free absent) fun k' => ?_
      have after := sound.kept k'
      have before := (steady.inv.history k').2
      rw [leaves_deref here, held] at before
      simp only [World.write, World.goto, World.leaves, Function.update_self, Option.toList_some,
        together,
        List.flatMap_cons, List.flatMap_nil, List.append_nil, array] at after before
      rw [after, before]

theorem stale_lost (noValue : V) (steady : Steady w) (event : Event K V)
    (stale : ¬ StillTrue w event) (stepped : step noValue w event = some after) :
    ¬ NoLostUpdate after := by
  cases event with
  | body tid bytePos =>
      simp only [StillTrue] at stale
      cases running : w.thread tid with
      | found op c answer =>
          simp only [step, running, Option.some.injEq] at stepped
          subst stepped
          rw [running] at stale
          cases op <;> cases answer <;> simp only [Thread.StillTrue, not_true_eq_false,
            not_forall] at stale
          · obtain ⟨here, stale⟩ := stale
            exact stale_insert steady here stale noValue
          · obtain ⟨here, stale⟩ := stale
            exact stale_remove steady running here stale noValue
      | _ => simp [step, running] at stepped
  | _ => exact absurd trivial stale

/-! Runs. -/

theorem initial_steady : Steady (initial : World K V) := by
  refine ⟨initial_inv, ?_, ?_⟩
  · rintro _ _ ⟨⟩
  · rintro _ _ _ _ ⟨⟩

/-- The runs in which no update of the slot is lost or made twice are those whose bodies,
where they write, find the leaf as their unlocked find did. -/
theorem single_log_updates (noValue : V) (events : List (Event K V)) (last : World K V) :
    Run (step noValue) (leading (step noValue) NoLostUpdate) initial events last ↔
      Run (step noValue) StillTrue initial events last := by
  refine run_leading_iff initial_steady (fun _ event _ steady still stepped => ?_)
    fun _ event _ steady stale stepped => stale_lost noValue steady event stale stepped
  have steady := step_steady noValue steady event still stepped
  exact ⟨steady, steady.inv.noLostUpdate⟩

def alone (op : Op Key Nat) : List (Event Key Nat) := [.call 0 op, .look 0, .body 0 7]

/-- Three keys make a log leaf, and an insert of 3 finds it. A delete of 3 is logged, so
the body of that insert writes nothing; the next attempt brings 3 back by a copy. -/
def quietRun : List (Event Key Nat) :=
  alone (.insert 1 1) ++ alone (.insert 2 2) ++ alone (.insert 3 3) ++
    [.call 1 (.insert 3 9), .look 1] ++ alone (.remove 3) ++ [.body 1 7, .look 1, .body 1 7]

theorem quiet_run_sound : ∃ last,
    Run (step 0) (leading (step 0) NoLostUpdate) initial quietRun last ∧
    last.links = [(1, .insert), (2, .insert), (3, .insert), (3, .remove), (3, .insert)] := by
  have replayed : (replay (step 0) StillTrue quietRun initial).map World.links =
      some [(1, .insert), (2, .insert), (3, .insert), (3, .remove), (3, .insert)] := by
        decide +kernel
  obtain ⟨last, run, links⟩ := Option.map_eq_some_iff.mp replayed
  have run := run_of_replay quietRun run
  exact ⟨last, (single_log_updates 0 quietRun last).mpr run, links⟩

-- Two inserts of 4 both find the leaf without it; the first is appended, the second copies.
def doubleInsert : List (Event Key Nat) :=
  alone (.insert 1 1) ++ alone (.insert 2 2) ++ alone (.insert 3 3) ++
    [.call 0 (.insert 4 4), .call 1 (.insert 4 5), .look 0, .look 1, .body 0 7, .body 1 7]

theorem double_insert_twice : ∃ last, Run (step 0) free initial doubleInsert last ∧
    ¬ Distinct (together last.leaves) ∧ ¬ Alternates (kinds 4 last.links) := by
  have replayed : (replay (step 0) free doubleInsert initial).map
      (fun w => (together w.leaves, kinds 4 w.links)) =
      some ([(1, 1), (2, 2), (3, 3), (4, 4), (4, 5)], [.insert, .insert]) := by decide +kernel
  obtain ⟨last, run, view⟩ := Option.map_eq_some_iff.mp replayed
  obtain ⟨leaves, turns⟩ := Prod.mk.inj view
  refine ⟨last, run_of_replay doubleInsert run, ?_, ?_⟩
  · rw [leaves]
    simp [Distinct]
  · rw [turns]
    intro alternates
    cases alternates 1 .insert rfl

end SetBench.SingleLog
