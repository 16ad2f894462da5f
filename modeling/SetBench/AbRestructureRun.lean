import SetBench.AbRestructureInv

/-! The steps of a run keep the shape, the marks and what each thread remembers. -/
namespace SetBench.AbRestructure

open Transition
open AbPersist (Word clean markDirty entry)

variable {degree : Nat} {w after : World} {tid : Nat} {height tall : Nat → Nat} {info : Info}

/-- What no step changes of the nodes that are there. -/
structure Grows (height : Nat → Nat) (w : World) (tall : Nat → Nat) (after : World) : Prop where
  fresh : w.fresh ≤ after.fresh
  leaf : ∀ n, n < w.fresh → after.leaf n = w.leaf n
  weight : ∀ n, n < w.fresh → after.weight n = w.weight n
  size : ∀ n, n < w.fresh → w.leaf n = false → after.size n = w.size n
  height : ∀ n, n < w.fresh → tall n = height n

section Kept

variable (grows : Grows height w tall after)

include grows

theorem Child.kept {n c : Nat} (child : Child height w n c) (less : n < w.fresh) :
    Child tall after n c := by
  refine ⟨child.notEntry, child.born.trans_le grows.fresh, ?_, ?_⟩
  · intro other
    rw [grows.height c child.born, grows.weight c child.born, grows.height n less]
    exact child.level other
  · intro same
    obtain ⟨heavy, wide⟩ := child.top same
    refine ⟨(grows.weight c child.born).trans heavy, fun inner => ?_⟩
    rw [grows.leaf c child.born] at inner
    rw [grows.size c child.born inner]
    exact wide inner

theorem Real.kept {p : Word} (real : Real w p) : Real after p :=
  ⟨real.clean, real.born.trans_le grows.fresh⟩

theorem Inner.kept {p : Word} (inner : Inner w p) : Inner after p :=
  ⟨inner.toReal.kept grows, (grows.leaf _ inner.born).trans inner.inner⟩

theorem Inner.size_kept {p : Word} (inner : Inner w p) : after.size p.value = w.size p.value :=
  grows.size _ inner.born inner.inner

theorem InfoOk.kept (ok : InfoOk height w info) : InfoOk tall after info := by
  refine ⟨ok.clean, ok.child.kept grows ok.parent.born, ok.parent.kept grows, ?_, ?_⟩
  · rw [ok.parent.size_kept grows]
    exact ok.index
  · have grand := ok.grand
    cases found : info.gParent with
    | none =>
        rw [found] at grand
        exact grand
    | some g =>
        rw [found] at grand
        obtain ⟨inner, index, child⟩ := grand
        refine ⟨inner.kept grows, ?_, child.kept grows inner.born⟩
        rw [inner.size_kept grows]
        exact index

theorem Passed.kept (ok : InfoOk height w info) (passed : Passed w info) : Passed after info := by
  refine ⟨(grows.weight _ ok.parent.born).trans passed.1, fun other => ?_⟩
  rw [ok.parent.size_kept grows]
  exact passed.2 other

theorem FixOk.kept {fix : Fix} (ok : FixOk height w fix) : FixOk tall after fix := by
  cases fix with
  | overflow info => exact ⟨ok.1.kept grows, (grows.leaf _ ok.1.child.born).trans ok.2⟩
  | tag info =>
      exact ⟨ok.1.kept grows, ok.2.1.kept grows ok.1, (grows.weight _ ok.1.child.born).trans ok.2.2⟩
  | underfull info sibling =>
      obtain ⟨info_ok, passed, heavy, other, unmarked, child⟩ := ok
      exact ⟨info_ok.kept grows, passed.kept grows info_ok,
        (grows.weight _ info_ok.child.born).trans heavy, other, unmarked,
        child.kept grows info_ok.parent.born⟩

theorem LockOk.kept {t : Nat} {fix : Fix} {todo : List Check} {held : List Word}
    (fixed : FixOk height w fix) (ok : LockOk w t fix todo held)
    (lock : ∀ n, n < w.fresh → w.lock n = some t → after.lock n = some t) :
    LockOk after t fix todo held := by
  refine ⟨?_, ok.once, ok.owned, ?_, ?_⟩
  · intro p member
    obtain ⟨real, locked⟩ := ok.mine p member
    exact ⟨real.kept grows, lock _ real.born locked⟩
  · intro check member
    obtain ⟨q, same, real⟩ := ok.real check member
    exact ⟨q, same, real.kept grows⟩
  · rintro info sibling rfl
    refine (ok.weighed info sibling rfl).imp_right fun heavy => ?_
    obtain ⟨_, _, _, _, _, child⟩ := fixed
    exact (grows.weight _ child.born).trans heavy

theorem RunOk.kept {acts : List Act} (ok : RunOk height w acts) : RunOk tall after acts := by
  induction acts with
  | nil => trivial
  | cons act rest ih =>
      cases act with
      | store g i x =>
          obtain ⟨inner, index, child, later, paired, tail⟩ := ok
          refine ⟨inner.kept grows, ?_, child.kept grows inner.born, later, paired, ih tail⟩
          rw [inner.size_kept grows]
          exact index
      | mark p => exact ⟨ok.1.kept grows, ih ok.2⟩
      | unlock p => exact ⟨ok.1.kept grows, ok.2.1, ih ok.2.2⟩

theorem Pc.Ok.kept {t : Nat} {pc : Pc} (ok : pc.Ok height w t)
    (unused : ∀ n, w.fresh ≤ n → w.lock n = none)
    (lock : ∀ n, n < w.fresh → w.lock n = some t → after.lock n = some t) : pc.Ok tall after t := by
  cases pc with
  | idle => trivial
  | start job => trivial
  | «at» job info => exact ⟨ok.1.kept grows, fun job => (ok.2 job).kept grows ok.1⟩
  | root info =>
      exact ⟨ok.1.kept grows, ok.2.1.kept grows ok.1, (grows.weight _ ok.1.child.born).trans ok.2.2⟩
  | next info =>
      refine ⟨ok.1.kept grows, (grows.weight _ ok.1.child.born).trans ok.2.1, fun inner => ?_⟩
      rw [grows.leaf _ ok.1.child.born] at inner
      rw [grows.size _ ok.1.child.born inner]
      exact ok.2.2 inner
  | sibling info =>
      exact ⟨ok.1.kept grows, ok.2.1.kept grows ok.1,
        (grows.weight _ ok.1.child.born).trans ok.2.2.1, ok.2.2.2⟩
  | lockLeaf job info => exact ⟨ok.1.kept grows, (grows.leaf _ ok.1.child.born).trans ok.2⟩
  | leaf job info =>
      exact ⟨ok.1.kept grows, (grows.leaf _ ok.1.child.born).trans ok.2.1,
        lock _ ok.1.child.born ok.2.2⟩
  | locking fix todo held => exact ⟨ok.1.kept grows, ok.2.kept grows ok.1 lock⟩
  | run acts next =>
      refine ⟨ok.1.kept grows, fun n member => ?_⟩
      have held := ok.2 n member
      refine lock n ?_ held
      by_contra far
      exact nomatch held.symm.trans (unused n (not_lt.mp far))

end Kept

theorem Grows.refl (height : Nat → Nat) (w : World) : Grows height w height w :=
  ⟨le_rfl, fun _ _ => rfl, fun _ _ => rfl, fun _ _ _ => rfl, fun _ _ => rfl⟩

/-- After a change of the shared state, the thread that made it goes on. -/
theorem Inv.goto {pc : Pc} (inv : Inv height w) (grows : Grows height w tall after)
    (pcs : after.pc = w.pc) (shape : Shape tall after)
    (dirty : ∀ n i, (after.slot n i).dirty = true → ∃ t g x rest next, after.lock n = some t ∧
      (after.goto tid pc).pc t = .run (.store g i x :: rest) next ∧ g.value = n ∧ x.dirty = false)
    (unused : ∀ n, after.fresh ≤ n → after.lock n = none)
    (lock : ∀ t n, t ≠ tid → w.lock n = some t → n < w.fresh → after.lock n = some t)
    (mine : pc.Ok tall after tid) : Inv tall (after.goto tid pc) := by
  have same : Grows tall after tall (after.goto tid pc) :=
    ⟨le_rfl, fun _ _ => rfl, fun _ _ => rfl, fun _ _ _ => rfl, fun _ _ => rfl⟩
  refine ⟨?_, dirty, unused, fun t => ?_⟩
  · refine ⟨shape.entry_leaf, shape.entry_size, shape.entry_weight, shape.born, shape.tag,
      shape.inner, shape.ground, ?_⟩
    exact fun n less inner i bound => (shape.slots n less inner i bound).kept same less
  · by_cases owner : t = tid
    · subst owner
      have here : (after.goto t pc).pc t = pc := Function.update_self ..
      rw [here]
      exact mine.kept same unused fun _ _ held => held
    · have there : (after.goto tid pc).pc t = w.pc t := by
        rw [← pcs]
        exact Function.update_of_ne owner ..
      rw [there]
      have others : (w.pc t).Ok tall after t :=
        (inv.threads t).kept grows inv.unused fun n less held => lock t n owner held less
      exact others.kept same unused fun _ _ held => held

-- A dirty slot's writer is at its second store, so a step of a thread elsewhere leaves it there.
theorem Inv.dirty_goto {pc : Pc} (inv : Inv height w)
    (off : ∀ g i x rest next, w.pc tid ≠ .run (.store g i x :: rest) next) (pcs : after.pc = w.pc)
    (lock : ∀ t n, t ≠ tid → w.lock n = some t → after.lock n = some t) {n i : Nat}
    (marked : (w.slot n i).dirty = true) : ∃ t g x rest next, after.lock n = some t ∧
      (after.goto tid pc).pc t = .run (.store g i x :: rest) next ∧ g.value = n ∧ x.dirty =
      false := by
  obtain ⟨t, g, x, rest, next, locked, here, same, unmarked⟩ := inv.dirty n i marked
  have other : t ≠ tid := by
    intro equal
    rw [equal] at here
    exact off g i x rest next here
  refine ⟨t, g, x, rest, next, lock t n other locked, ?_, same, unmarked⟩
  have there : (after.goto tid pc).pc t = after.pc t := Function.update_of_ne other ..
  rw [there, pcs, here]

theorem Inv.moved {pc : Pc} (inv : Inv height w)
    (off : ∀ g i x rest next, w.pc tid ≠ .run (.store g i x :: rest) next)
    (mine : pc.Ok height w tid) : Inv height (w.goto tid pc) :=
  inv.goto (Grows.refl height w) rfl inv.shape
    (fun _ _ => inv.dirty_goto off (by rfl) fun _ _ _ held => held) inv.unused
    (fun _ _ _ held _ => held) mine

theorem Shape.kept_slots (shape : Shape height w) (same : Grows height w height after)
    (fresh : after.fresh = w.fresh) (slot : after.slot = w.slot) : Shape height after := by
  have inner {n : Nat} (less : n < w.fresh) (internal : after.leaf n = false) : w.leaf n = false :=
    (same.leaf n less).symm.trans internal
  refine ⟨?_, ?_, ?_, ?_, ?_, ?_, ?_, ?_⟩
  · exact (same.leaf _ shape.born).trans shape.entry_leaf
  · exact (same.size _ shape.born shape.entry_leaf).trans shape.entry_size
  · exact (same.weight _ shape.born).trans shape.entry_weight
  · exact fresh ▸ shape.born
  · intro n less tagged
    rw [fresh] at less
    rw [same.weight n less] at tagged
    exact (same.leaf n less).trans (shape.tag n less tagged)
  · intro n less internal
    rw [fresh] at less
    rw [same.size n less (inner less internal)]
    exact shape.inner n less (inner less internal)
  · intro n less
    rw [fresh] at less
    rw [same.leaf n less]
    exact shape.ground n less
  · intro n less internal i bound
    rw [fresh] at less
    rw [same.size n less (inner less internal)] at bound
    rw [slot]
    exact (shape.slots n less (inner less internal) i bound).kept same less

/-! The writes of a replacement and the releases. -/

section Acts

variable {rest : List Act} {next : Option Job}

-- Another thread's lock survives a release.
theorem release_other {p : Word} (locked : w.lock p.value = some tid) {t n : Nat}
    (other : t ≠ tid) (held : w.lock n = some t) :
    (w.act (.unlock p)).lock n = some t := by
  have apart : n ≠ p.value := by
    intro same
    rw [same, locked] at held
    exact other (Option.some.inj held).symm
  exact (Function.update_of_ne apart ..).trans held

theorem Inv.store (inv : Inv height w) {g x : Word} {i : Nat}
    (here : w.pc tid = .run (.store g i x :: rest) next) :
    Inv height ((w.act (.store g i x)).goto tid (.run rest next)) := by
  have mine := inv.threads tid
  rw [here] at mine
  obtain ⟨⟨inner, index, child, later, paired, tail⟩, locks⟩ := mine
  have locked : w.lock g.value = some tid := locks g.value later
  have now : (w.act (.store g i x)).slot g.value i = x := by
    simp [World.act]
  have stays {n j : Nat} (other : ¬ (n = g.value ∧ j = i)) : (w.act (.store g i x)).slot n j =
    w.slot n j := by
    by_cases same : n = g.value
    · subst same
      have apart : j ≠ i := fun equal => other ⟨rfl, equal⟩
      simp [World.act, apart]
    · simp [World.act, same]
  have grows : Grows height w height (w.act (.store g i x)) :=
    ⟨le_rfl, fun _ _ => rfl, fun _ _ => rfl, fun _ _ _ => rfl, fun _ _ => rfl⟩
  refine inv.goto grows rfl ?_ ?_ inv.unused (fun _ _ _ held _ => held) ⟨tail.kept grows, locks⟩
  · have shape := inv.shape
    refine ⟨shape.entry_leaf, shape.entry_size, shape.entry_weight, shape.born, shape.tag,
      shape.inner, shape.ground, ?_⟩
    intro n less internal j bound
    by_cases same : n = g.value ∧ j = i
    · obtain ⟨rfl, rfl⟩ := same
      rw [now]
      exact child.kept grows less
    · rw [stays same]
      exact (shape.slots n less internal j bound).kept grows less
  · intro n j marked
    by_cases same : n = g.value ∧ j = i
    · obtain ⟨rfl, rfl⟩ := same
      rw [now] at marked
      obtain ⟨y, acts, follows, unmarked⟩ := paired marked
      refine ⟨tid, g, y, acts, next, locked, ?_, rfl, unmarked⟩
      rw [← follows]
      exact Function.update_self ..
    · rw [stays same] at marked
      obtain ⟨t, g', x', rest', next', held, there, node, unmarked⟩ := inv.dirty n j marked
      have other : t ≠ tid := by
        intro equal
        rw [equal, here] at there
        cases there
        exact same ⟨node.symm, rfl⟩
      exact ⟨t, g', x', rest', next', held, (Function.update_of_ne other ..).trans there, node,
        unmarked⟩

theorem Inv.act (inv : Inv height w) {act : Act} (here : w.pc tid = .run (act :: rest) next) :
    Inv height ((w.act act).goto tid (.run rest next)) := by
  have mine := inv.threads tid
  rw [here] at mine
  cases act with
  | store g i x => exact inv.store here
  | mark p =>
      have grows : Grows height w height (w.act (.mark p)) :=
        ⟨le_rfl, fun _ _ => rfl, fun _ _ => rfl, fun _ _ _ => rfl, fun _ _ => rfl⟩
      refine inv.goto grows rfl (inv.shape.kept_slots grows rfl rfl) ?_ inv.unused
        (fun _ _ _ held _ => held)
        ⟨mine.1.2.kept grows, mine.2⟩
      exact fun n i => inv.dirty_goto (by simp [here]) (by rfl) fun _ _ _ held => held
  | unlock p =>
      have locked : w.lock p.value = some tid := mine.2 p.value List.mem_cons_self
      have grows : Grows height w height (w.act (.unlock p)) :=
        ⟨le_rfl, fun _ _ => rfl, fun _ _ => rfl, fun _ _ _ => rfl, fun _ _ => rfl⟩
      refine inv.goto grows rfl (inv.shape.kept_slots grows rfl rfl) ?_ ?_
        (fun t n other held _ => release_other locked other held) ⟨mine.1.2.2.kept grows, ?_⟩
      · exact fun n i => inv.dirty_goto (by simp [here]) (by rfl) fun t n other held =>
          release_other locked other held
      · intro n far
        have empty := inv.unused n far
        by_cases same : n = p.value
        · rw [same]
          exact Function.update_self ..
        · exact (Function.update_of_ne same ..).trans empty
      · intro n member
        have apart : n ≠ p.value := by
          intro same
          rw [same] at member
          exact mine.1.2.1 member
        exact (Function.update_of_ne apart ..).trans (mine.2 n (List.mem_cons_of_mem _ member))

end Acts

theorem Inv.acquire (inv : Inv height w)
    (off : ∀ g i x rest next, w.pc tid ≠ .run (.store g i x :: rest) next) {n : Nat} {pc : Pc}
    (less : n < w.fresh)
    (mine : ∀ locked : World, Grows height w height locked → locked.lock n = some tid →
      (∀ m, w.lock m = some tid → locked.lock m = some tid ∧ m ≠ n) → pc.Ok height locked tid)
    (stepped : w.acquire tid n pc = some after) : Inv height after := by
  simp only [World.acquire] at stepped
  split at stepped
  · rename_i unlocked
    cases stepped
    set locked : World := { w with lock := Function.update w.lock n (some tid) } with def_
    have grows : Grows height w height locked :=
      ⟨le_rfl, fun _ _ => rfl, fun _ _ => rfl, fun _ _ _ => rfl, fun _ _ => rfl⟩
    have apart {m t : Nat} (held : w.lock m = some t) : m ≠ n := by
      intro same
      rw [same, unlocked] at held
      cases held
    have stays {m t : Nat} (held : w.lock m = some t) : locked.lock m = some t :=
      (Function.update_of_ne (apart held) ..).trans held
    refine inv.goto grows rfl (inv.shape.kept_slots grows rfl rfl) ?_ ?_
      (fun _ _ _ held _ => stays held) ?_
    · exact fun m i => inv.dirty_goto off (by rfl) fun _ _ _ held => stays held
    · intro m far
      have far : w.fresh ≤ m := far
      have other : m ≠ n := by omega
      exact (Function.update_of_ne other ..).trans (inv.unused m far)
    · exact mine locked grows (Function.update_self ..) fun m held => ⟨stays held, apart held⟩
  · cases stepped

-- A leaf's size is not part of the shape.
theorem Inv.resize (inv : Inv height w)
    (off : ∀ g i x rest next, w.pc tid ≠ .run (.store g i x :: rest) next) {n size : Nat}
    {pc : Pc} (leaf : w.leaf n = true) (mine : pc.Ok height w tid) :
    Inv height ((w.setSize n size).goto tid pc) := by
  have grows : Grows height w height (w.setSize n size) := by
    refine ⟨le_rfl, fun _ _ => rfl, fun _ _ => rfl, fun m _ inner => ?_, fun _ _ => rfl⟩
    have other : m ≠ n := by
      intro same
      rw [same, leaf] at inner
      cases inner
    exact Function.update_of_ne other ..
  refine inv.goto grows rfl (inv.shape.kept_slots grows rfl rfl) ?_ inv.unused
    (fun _ _ _ held _ => held) ?_
  · exact fun m i => inv.dirty_goto off (by rfl) fun _ _ _ held => held
  · exact mine.kept grows inv.unused fun _ _ held => held

end SetBench.AbRestructure
