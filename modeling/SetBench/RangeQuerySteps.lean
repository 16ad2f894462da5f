import SetBench.RangeQueryInv

/-! The steps of the updates and of traversal_start. -/
namespace SetBench.RangeQuery

variable {A V T N K : Type}

theorem Pc.Good.keep {pc : Pc A V T N K} {s s' : Shared T N} {lockPc : RwLock.Pc} {num : Nat}
    {slots : Nat → Option N} (good : pc.Good s lockPc num slots)
    (born : ∀ node, s.born node ≠ 0 → s'.born node = s.born node)
    (died : ∀ node, s.died node ≠ 0 → s'.died node = s.died node)
    (time : s'.timestamp = s.timestamp ∨ lockPc ≠ .reading ∧ lockPc ≠ .writing) :
    pc.Good s' lockPc num slots := by
  have births {nodes : List N} {ts : Nat} (positive : 0 < ts)
    (same : ∀ node ∈ nodes, s.born node = ts) : ∀ node ∈ nodes, s'.born node = ts := by
    intro node member
    rw [born node (by rw [same node member]; omega)]
    exact same node member
  have deaths {nodes : List N} {ts : Nat} (positive : 0 < ts)
    (same : ∀ node ∈ nodes, s.died node = ts) : ∀ node ∈ nodes, s'.died node = ts := by
    intro node member
    rw [died node (by rw [same node member]; omega)]
    exact same node member
  cases pc with
  | idle => exact good
  | update u stage =>
      refine ⟨?_, good.2⟩
      replace good := good.1
      cases stage with
      | announce | announceSize | readLock | readTime | succeeded | failed => exact good
      | linearize ts =>
          obtain ⟨posted, reading, same⟩ := good
          rcases time with still | ⟨not, _⟩
          · exact ⟨posted, reading, same.trans still.symm⟩
          · exact (not reading).elim
      | readUnlock ts done =>
          cases done with
          | true => exact ⟨good.1, good.2.1, births good.2.1 good.2.2.1, deaths good.2.1 good.2.2.2⟩
          | false => exact good
      | setInsertionTimestamps ts rest =>
          exact ⟨good.1, good.2.1, births good.2.1 good.2.2.1, deaths good.2.1 good.2.2.2⟩
      | setDeletionTimestamps ts rest =>
          exact ⟨good.1, good.2.1, births good.2.1 good.2.2.1, deaths good.2.1 good.2.2.2⟩
      | retire rest =>
          obtain ⟨posted, ts, positive, same⟩ := good
          exact ⟨posted, ts, positive, deaths positive same⟩
  | query lo hi phase =>
      refine ⟨good.1, ?_⟩
      replace good := good.2
      cases phase with
      | store ts =>
          rcases time with still | ⟨_, not⟩
          · exact ⟨good.1, good.2.trans still.symm⟩
          · exact (not good.1).elim
      | writeLock | load | writeUnlock | place | tryAdd | finished => exact good

section Steps

variable [DecidableEq T] [Fintype T] [LinearOrder K] {config : Config T N K} {w : World A V T N K}
    (inv : Inv config w) {tid : T}

include inv

theorem Inv.advance (tid : T) {after : World A V T N K} (lock : RwLock.Inv after.rwlock)
    (facts : Facts after)
    (others : ∀ v, v ≠ tid → after.pc v = w.pc v ∧ after.rwlock.pc v = w.rwlock.pc v ∧
      after.numAnnouncements v = w.numAnnouncements v ∧ after.announcements v = w.announcements v)
    (later : ∀ v, v ≠ tid → Later v w.shared after.shared (w.query v) (after.query v))
    (time : after.timestamp = w.timestamp ∨ ∀ v, v ≠ tid → w.rwlock.pc v ≠ .reading ∧
      w.rwlock.pc v ≠ .writing)
    (good : (after.pc tid).Good after.shared (after.rwlock.pc tid) (after.numAnnouncements tid)
      (after.announcements tid))
    (ok : (after.pc tid).QueryOk config after.shared tid (after.query tid)) : Inv config after := by
  refine ⟨lock, facts, fun v => ?_, fun v => ?_⟩
  · by_cases self : v = tid
    · rw [self]
      exact good
    · obtain ⟨pc, lockPc, num, slots⟩ := others v self
      rw [pc, lockPc, num, slots]
      refine (inv.threads v).keep (fun node some_ => ?_)
        (fun node dead => ((later v self).died_of dead).1) (time.imp_right fun out => out v self)
      rcases (later v self).born node with same | ⟨unborn, _⟩
      · exact same
      · exact (some_ unborn).elim
  · by_cases self : v = tid
    · rw [self]
      exact ok
    · rw [(others v self).1]
      exact (later v self).query_ok (inv.queries v)

/-- A step that changes neither nodes nor timestamps: the thread goes on with its own
announcements, its call of the lock and its query. -/
theorem Inv.quiet (rwlock : RwLock.World T) (locked : RwLock.Inv rwlock)
    (elsewhere : ∀ v, v ≠ tid → rwlock.pc v = w.rwlock.pc v) (slots : Nat → Option N) (num : Nat)
    (pc : Pc A V T N K) (q : Query T N K) (owes : pc.owes = (w.pc tid).owes)
    (kept : slots = w.announcements tid ∨ pc.owes = [])
    (good : pc.Good w.shared (rwlock.pc tid) num slots)
    (ok : pc.QueryOk config
      { w.shared with announcements := Function.update w.announcements tid slots } tid q) :
    Inv config { w with
      rwlock := rwlock
      announcements := Function.update w.announcements tid slots
      numAnnouncements := Function.update w.numAnnouncements tid num
      pc := Function.update w.pc tid pc
      query := Function.update w.query tid q } := by
  have debts (v : T) : (Function.update w.pc tid pc v).owes = (w.pc v).owes := by
    by_cases self : v = tid
    · rw [self, Function.update_self, owes]
    · rw [Function.update_of_ne self]
  have shared : World.shared { w with
      rwlock := rwlock
      announcements := Function.update w.announcements tid slots
      numAnnouncements := Function.update w.numAnnouncements tid num
      pc := Function.update w.pc tid pc
      query := Function.update w.query tid q
        } = { w.shared with announcements := Function.update w.announcements tid slots } := by
    simp only [World.shared, debts]
  refine inv.advance tid locked ?_ (fun v apart => ?_) (fun v apart => ?_) (.inl rfl) ?_ ?_
  · refine ⟨inv.facts.positive, inv.facts.nodes, inv.facts.unborn, inv.facts.bornLe,
      inv.facts.diedLe, inv.facts.itime, inv.facts.dtime,
      inv.facts.retired, fun v y owed => inv.facts.order v y ?_⟩
    rw [← debts v]
    exact owed
  · exact ⟨Function.update_of_ne apart _ _, elsewhere v apart, Function.update_of_ne apart _ _,
      Function.update_of_ne apart _ _⟩
  · rw [shared]
    have same : Function.update w.query tid q v = w.query v := Function.update_of_ne apart _ _
    dsimp only
    rw [same]
    refine ⟨Nat.le_refl _, fun _ => .inl rfl, fun _ => .inl ⟨rfl, rfl⟩, fun _ some_ => some_,
      fun u node owed => ?_, fun _ _ member => member,
      fun _ member => member, fun _ member => .inl member, fun _ member => .inl member, rfl, rfl,
        rfl, rfl, rfl⟩
    refine .inl ⟨owed, ?_⟩
    show Function.update w.announcements tid slots u = w.announcements u
    by_cases self : u = tid
    · rw [self, Function.update_self]
      rcases kept with unchanged | none_
      · exact unchanged
      · have owed : node ∈ (w.pc u).owes := owed
        rw [self, ← owes, none_] at owed
        cases owed
    · exact Function.update_of_ne self _ _
  · rw [shared]
    dsimp only
    rw [Function.update_self, Function.update_self, Function.update_self]
    exact good
  · rw [shared]
    dsimp only
    rw [Function.update_self, Function.update_self]
    exact ok

theorem Inv.goto {pc : Pc A V T N K} (owes : pc.owes = (w.pc tid).owes)
    (good : pc.Good w.shared (w.rwlock.pc tid) (w.numAnnouncements tid) (w.announcements tid))
    (ok : pc.QueryOk config w.shared tid (w.query tid)) : Inv config (w.goto tid pc) := by
  have next := inv.quiet w.rwlock inv.lock (fun _ _ => rfl) (w.announcements tid)
    (w.numAnnouncements tid) pc (w.query tid) owes (.inl rfl) good
    (by rw [Function.update_eq_self]; exact ok)
  simp only [Function.update_eq_self] at next
  exact next

theorem Inv.setNum {num : Nat} {pc : Pc A V T N K} (owes : pc.owes = (w.pc tid).owes)
    (good : pc.Good w.shared (w.rwlock.pc tid) num (w.announcements tid))
    (ok : pc.QueryOk config w.shared tid (w.query tid)) :
    Inv config ((w.setNum tid num).goto tid pc) := by
  have next := inv.quiet w.rwlock inv.lock (fun _ _ => rfl) (w.announcements tid) num pc
    (w.query tid) owes (.inl rfl) good
    (by rw [Function.update_eq_self]; exact ok)
  simp only [Function.update_eq_self] at next
  exact next

theorem Inv.asks {q : Query T N K} {pc : Pc A V T N K} (owes : pc.owes = (w.pc tid).owes)
    (good : pc.Good w.shared (w.rwlock.pc tid) (w.numAnnouncements tid) (w.announcements tid))
    (ok : pc.QueryOk config w.shared tid q) : Inv config ((w.setQuery tid q).goto tid pc) := by
  have next := inv.quiet w.rwlock inv.lock (fun _ _ => rfl) (w.announcements tid)
    (w.numAnnouncements tid) pc q owes (.inl rfl) good
    (by rw [Function.update_eq_self]; exact ok)
  simp only [Function.update_eq_self] at next
  exact next

theorem Inv.setSlot {i : Nat} {node : N} {pc : Pc A V T N K} (owes : (w.pc tid).owes = [])
    (none_ : pc.owes = [])
    (good : pc.Good w.shared (w.rwlock.pc tid) (w.numAnnouncements tid)
      (Function.update (w.announcements tid) i (some node)))
    (ok : ∀ s, pc.QueryOk config s tid (w.query tid)) :
    Inv config ((w.setSlot tid i node).goto tid pc) := by
  have next := inv.quiet w.rwlock inv.lock (fun _ _ => rfl)
    (Function.update (w.announcements tid) i (some node)) (w.numAnnouncements tid) pc
    (w.query tid) (none_.trans owes.symm) (.inr none_) good (ok _)
  simp only [Function.update_eq_self] at next
  exact next

-- A step inside a call of the lock; `good` is all that hangs on the state of the lock.
theorem Inv.locking {start : RwLock.Pc} {call : RwLock.Call} {after : World A V T N K}
    (locked : w.locking tid start call = some after)
    (good : ∀ lockPc, (w.pc tid).Good w.shared lockPc (w.numAnnouncements tid)
      (w.announcements tid)) : Inv config after := by
  obtain ⟨rwlock, stepped, rfl⟩ := Option.map_eq_some_iff.mp locked
  have few : RwLock.readers w.rwlock < 2 ^ 61 := by
    have most : RwLock.readers w.rwlock ≤ Fintype.card T := Finset.card_filter_le _ _
    have fits := config.fits
    omega
  have thread : (if w.rwlock.pc tid = start then RwLock.Event.call tid call else .move tid).thread =
    tid := by
    split <;> rfl
  have next := inv.quiet rwlock (RwLock.step_inv _ _ _ inv.lock few stepped)
    (fun v apart => RwLock.step_elsewhere stepped v (by rw [thread]; exact apart))
    (w.announcements tid) (w.numAnnouncements tid) (w.pc tid)
    (w.query tid) rfl (.inl rfl) (good _) (by rw [Function.update_eq_self]; exact inv.queries tid)
  simp only [Function.update_eq_self] at next
  exact next

omit [DecidableEq T] [Fintype T] [LinearOrder K] inv in
theorem Pc.Good.owed_dead {pc : Pc A V T N K} {s : Shared T N} {lockPc : RwLock.Pc} {num : Nat}
    {slots : Nat → Option N} (good : pc.Good s lockPc num slots) {node : N}
    (owed : node ∈ pc.owes) : s.died node ≠ 0 := by
  have late {u : Update A V N} {ts : Nat} (positive : 0 < ts)
    (same : ∀ node ∈ u.deletedNodes, s.died node = ts)
      (member : node ∈ u.deletedNodes) : s.died node ≠ 0 := by
    rw [same node member]
    omega
  cases pc with
  | idle => cases owed
  | query lo hi phase => cases owed
  | update u stage =>
      cases stage with
      | announce | announceSize | readLock | readTime | linearize | succeeded | failed => cases owed
      | readUnlock ts done =>
          cases done with
          | true => exact late good.1.2.1 good.1.2.2.2 owed
          | false => cases owed
      | setInsertionTimestamps ts rest => exact late good.1.2.1 good.1.2.2.2 owed
      | setDeletionTimestamps ts rest => exact late good.1.2.1 good.1.2.2.2 owed
      | retire rest =>
          obtain ⟨⟨_, ts, positive, same⟩, within⟩ := good
          exact late positive same (within owed)

theorem Inv.setItime {u : Update A V N} {ts : Nat} {node : N} {rest : List N} [DecidableEq N]
    (pc : w.pc tid = .update u (.setInsertionTimestamps ts (node :: rest))) :
    Inv config ({ w with itime := Function.update w.itime node ts }.goto tid
      (.update u (.setInsertionTimestamps ts rest))) := by
  have good := inv.threads tid
  rw [pc] at good
  obtain ⟨⟨posted, positive, born, died⟩, within⟩ := good
  have debts (v : T) : (Function.update w.pc tid (.update u (.setInsertionTimestamps ts rest))
    v).owes = (w.pc v).owes := by
    by_cases self : v = tid
    · rw [self, Function.update_self, pc]
      rfl
    · rw [Function.update_of_ne self]
  refine inv.advance tid inv.lock ?_
    (fun v apart => ⟨Function.update_of_ne apart _ _, rfl, rfl, rfl⟩) (fun v apart => ?_) (.inl rfl)
    ?_ ?_
  · refine ⟨inv.facts.positive, inv.facts.nodes, inv.facts.unborn, inv.facts.bornLe,
      inv.facts.diedLe, fun n => ?_, inv.facts.dtime,
      inv.facts.retired, fun v y owed => inv.facts.order v y ?_⟩
    · show Function.update w.itime node ts n ≠ 0 → Function.update w.itime node ts n = w.born n
      by_cases self : n = node
      · rw [self, Function.update_self]
        exact fun _ => (born node (within List.mem_cons_self)).symm
      · rw [Function.update_of_ne self]
        exact inv.facts.itime n
    · rw [← debts v]
      exact owed
  · refine ⟨Nat.le_refl _, fun _ => .inl rfl, fun _ => .inl ⟨rfl, rfl⟩, fun n some_ => ?_,
      fun u node owed => .inl ⟨?_, rfl⟩,
      fun _ _ member => member, fun _ member => member, fun _ member => .inl member, fun _ member =>
        .inl member, rfl, rfl, rfl, rfl, rfl⟩
    · show Function.update w.itime node ts n ≠ 0
      by_cases self : n = node
      · rw [self, Function.update_self]
        omega
      · rw [Function.update_of_ne self]
        exact some_
    · show node ∈ (Function.update w.pc tid _ u).owes
      rw [debts u]
      exact owed
  · show (Function.update w.pc tid _ tid).Good _ _ _ _
    rw [Function.update_self]
    exact ⟨⟨posted, positive, born, died⟩, fun _ member => within (List.mem_cons_of_mem _ member)⟩
  · show (Function.update w.pc tid _ tid).QueryOk _ _ _ _
    rw [Function.update_self]
    trivial

theorem Inv.setDtime {u : Update A V N} {ts : Nat} {node : N} {rest : List N} [DecidableEq N]
    (pc : w.pc tid = .update u (.setDeletionTimestamps ts (node :: rest))) :
    Inv config ({ w with dtime := Function.update w.dtime node ts }.goto tid
      (.update u (.setDeletionTimestamps ts rest))) := by
  have good := inv.threads tid
  rw [pc] at good
  obtain ⟨⟨posted, positive, born, died⟩, within⟩ := good
  have next : Inv config (w.goto tid (.update u (.setDeletionTimestamps ts rest))) :=
    inv.goto (by rw [pc]; rfl) ⟨⟨posted, positive, born, died⟩,
      fun _ member => within (List.mem_cons_of_mem _ member)⟩ trivial
  refine ⟨next.lock, { next.facts with dtime := fun n => ?_ }, next.threads, next.queries⟩
  show Function.update w.dtime node ts n ≠ 0 → Function.update w.dtime node ts n = w.died n
  by_cases self : n = node
  · rw [self, Function.update_self]
    exact fun _ => (died node (within List.mem_cons_self)).symm
  · rw [Function.update_of_ne self]
    exact inv.facts.dtime n

theorem Inv.retireNode {u : Update A V N} {node : N} {rest : List N}
    (pc : w.pc tid = .update u (.retire (node :: rest))) :
    Inv config ((w.retireNode tid node).goto tid (.update u (.retire rest))) := by
  have good := inv.threads tid
  rw [pc] at good
  obtain ⟨⟨posted, ts, positive, died⟩, within⟩ := good
  have mine (n : N) (member : n ∈ node :: rest) : n ∈ (w.pc tid).owes := by
    rw [pc]
    exact member
  refine inv.advance tid inv.lock ?_
    (fun v apart => ⟨Function.update_of_ne apart _ _, rfl, rfl, rfl⟩) (fun v apart => ?_) (.inl rfl)
    ?_ ?_
  · refine ⟨inv.facts.positive, inv.facts.nodes, inv.facts.unborn, inv.facts.bornLe,
      inv.facts.diedLe, inv.facts.itime, inv.facts.dtime,
      fun v => ?_, fun v => ?_⟩
    · show w.shared.Sorted (Function.update w.retired tid (node :: w.retired tid) v)
      by_cases self : v = tid
      · rw [self, Function.update_self]
        have old := inv.facts.retired tid
        refine ⟨fun n member => ?_,
          List.pairwise_cons.mpr ⟨fun x => inv.facts.order tid node (mine node List.mem_cons_self)
          x, old.2⟩⟩
        rcases List.mem_cons.mp member with rfl | before
        · exact (inv.threads tid).owed_dead (mine n List.mem_cons_self)
        · exact old.1 n before
      · rw [Function.update_of_ne self]
        exact inv.facts.retired v
    · show ∀ y ∈ (Function.update w.pc tid (.update u (.retire rest)) v).owes,
        ∀ x ∈ Function.update w.retired tid (node :: w.retired tid) v, w.died x ≤ w.died y
      by_cases self : v = tid
      · rw [self, Function.update_self, Function.update_self]
        intro y owed x member
        rcases List.mem_cons.mp member with rfl | before
        · have first : w.died x = ts := died x (within List.mem_cons_self)
          have second : w.died y = ts := died y (within (List.mem_cons_of_mem _ owed))
          omega
        · exact inv.facts.order tid y (mine y (List.mem_cons_of_mem _ owed)) x before
      · rw [Function.update_of_ne self, Function.update_of_ne self]
        exact inv.facts.order v
  · refine ⟨Nat.le_refl _, fun _ => .inl rfl, fun _ => .inl ⟨rfl, rfl⟩, fun n some_ => some_,
      fun v' n owed => ?_,
      fun v' n member => ?_, fun _ member => member, fun _ member => .inl member, fun _ member =>
        .inl member, rfl, rfl, rfl, rfl, rfl⟩
    · show n ∈ (Function.update w.pc tid _ v').owes ∧ _ ∨ n ∈ Function.update (w.query v).limbo tid
        (node :: (w.query v).limbo tid) v'
      by_cases self : v' = tid
      · rw [self, Function.update_self, Function.update_self]
        have owed : n ∈ (w.pc v').owes := owed
        rw [self, pc] at owed
        rcases List.mem_cons.mp owed with rfl | later
        · exact .inr List.mem_cons_self
        · exact .inl ⟨later, rfl⟩
      · rw [Function.update_of_ne self]
        exact .inl ⟨owed, rfl⟩
    · show n ∈ Function.update (w.query v).limbo tid (node :: (w.query v).limbo tid) v'
      by_cases self : v' = tid
      · rw [self, Function.update_self]
        rw [self] at member
        exact List.mem_cons_of_mem _ member
      · rw [Function.update_of_ne self]
        exact member
  · show (Function.update w.pc tid _ tid).Good _ _ _ _
    rw [Function.update_self]
    exact ⟨⟨posted, ts, positive, died⟩, fun _ member => within (List.mem_cons_of_mem _ member)⟩
  · show (Function.update w.pc tid _ tid).QueryOk _ _ _ _
    rw [Function.update_self]
    trivial

theorem Inv.startQuery {lo hi : K} {ts : Nat} (pc : w.pc tid = .query lo hi (.store ts)) :
    Inv config ((w.startQuery tid ts).goto tid (.query lo hi .writeUnlock)) := by
  have good := inv.threads tid
  rw [pc] at good
  obtain ⟨num, writing, same⟩ := good
  have same : ts = w.timestamp := same
  have facts := inv.facts
  have debts (v : T) : (Function.update w.pc tid (.query lo hi .writeUnlock) v).owes =
    (w.pc v).owes := by
    by_cases self : v = tid
    · rw [self, Function.update_self, pc]
      rfl
    · rw [Function.update_of_ne self]
  refine inv.advance tid inv.lock ?_
    (fun v apart => ⟨Function.update_of_ne apart _ _, rfl, rfl, rfl⟩) (fun v apart => ?_)
    (.inr fun v apart => ?_) ?_ ?_
  · refine ⟨Nat.succ_pos ts, facts.nodes, facts.unborn, fun n => ?_, fun n => ?_, facts.itime,
      facts.dtime, facts.retired, fun v y owed => ?_⟩
    · have bound := facts.bornLe n
      show w.born n ≤ ts + 1
      omega
    · have bound := facts.diedLe n
      show w.died n ≤ ts + 1
      omega
    · refine facts.order v y ?_
      rw [← debts v]
      exact owed
  · have other : ((w.startQuery tid ts).goto tid (.query lo hi .writeUnlock)).query v = w.query v :=
      Function.update_of_ne apart _ _
    rw [other]
    refine ⟨?_, fun _ => .inl rfl, fun _ => .inl ⟨rfl, rfl⟩, fun n some_ => some_,
      fun v' n owed => .inl ⟨?_, rfl⟩,
      fun _ _ member => member, fun _ member => member, fun _ member => .inl member, fun _ member =>
        .inl member, rfl, rfl, rfl, rfl, rfl⟩
    · show w.timestamp ≤ ts + 1
      omega
    · show n ∈ (Function.update w.pc tid _ v').owes
      rw [debts v']
      exact owed
  · have writes : (w.rwlock.pc tid).writes = true := by
      rw [writing]
      rfl
    have alone := (inv.lock.pairs tid v apart).writer writes
    constructor
    · intro reading
      rw [reading] at alone
      cases alone.1
    · intro both
      rw [both] at alone
      cases alone.2.1
  · show (Function.update w.pc tid _ tid).Good _ _ _ _
    rw [Function.update_self]
    exact ⟨num, trivial⟩
  · show (Function.update w.pc tid _ tid).QueryOk _ _ _ (Function.update w.query tid _ tid)
    rw [Function.update_self, Function.update_self]
    refine ⟨⟨Nat.succ_pos ts, Nat.le_refl _, fun n => ?_, fun n member => ?_, fun n snap => ?_,
      fun n late => ?_, nofun, List.nodup_nil⟩, rfl⟩
    · have birth := facts.bornLe n
      have death := facts.diedLe n
      show n ∈ w.nodes ↔ w.born n ≠ 0 ∧ w.born n < ts + 1 ∧ (w.died n = 0 ∨ ts + 1 ≤ w.died n)
      rw [facts.nodes n]
      omega
    · have here := (facts.nodes n).mp member
      exact ⟨here.1, .inl here.2⟩
    · have death := facts.diedLe n
      obtain ⟨some_, _, alive | late⟩ := snap
      · exact .inl ((facts.nodes n).mpr ⟨some_, alive⟩)
      · have late : ts + 1 ≤ w.died n := late
        omega
    · have death := facts.diedLe n
      have late : ts + 1 ≤ w.died n := late
      omega

theorem Inv.linearized {u : Update A V N} {ts : Nat} [DecidableEq A] [DecidableEq N]
    (pc : w.pc tid = .update u (.linearize ts)) (valid : u.Valid w) :
    Inv config ((w.linearized tid u ts).goto tid (.update u (.readUnlock ts true))) := by
  have good := inv.threads tid
  rw [pc] at good
  obtain ⟨⟨posted, _, same⟩, _⟩ := good
  have same : ts = w.timestamp := same
  have facts := inv.facts
  have positive := facts.positive
  obtain ⟨fresh, present⟩ := valid
  have alive (n : N) (member : n ∈ u.deletedNodes) : w.born n ≠ 0 ∧ w.died n = 0 :=
    (facts.nodes n).mp (present n member)
  have dead {n : N} (some_ : w.died n ≠ 0) : (if n ∈ u.deletedNodes then ts else w.died n) =
    w.died n := by
    rw [if_neg fun member => some_ (alive n member).2]
  have owes_other (v : T) (apart : v ≠ tid) :
    (Function.update w.pc tid (.update u (.readUnlock ts true)) v).owes = (w.pc v).owes := by
    rw [Function.update_of_ne apart]
  refine inv.advance tid inv.lock ?_
    (fun v apart => ⟨Function.update_of_ne apart _ _, rfl, rfl, rfl⟩) (fun v apart => ?_) (.inl rfl)
    ?_ ?_
  · refine ⟨positive, fun n => ?_, fun n => ?_, fun n => ?_, fun n => ?_, fun n some_ => ?_,
      fun n some_ => ?_, fun v => ?_, fun v y owed x member => ?_⟩
    · show n ∈ (u.insertedNodes ++ w.nodes).filter (fun node => node ∉ u.deletedNodes) ↔
        (if n ∈ u.insertedNodes then ts else w.born n) ≠ 0 ∧
        (if n ∈ u.deletedNodes then ts else w.died n) = 0
      rw [List.mem_filter, List.mem_append, facts.nodes n, decide_eq_true_eq]
      by_cases gone : n ∈ u.deletedNodes
      · simp only [gone, not_true_eq_false, and_false, if_true, false_iff, not_and]
        intro _
        omega
      · by_cases new : n ∈ u.insertedNodes
        · have unborn := facts.unborn n (fresh n new)
          simp only [gone, new, if_true, if_false, not_false_eq_true, true_or, and_self, true_iff]
          exact ⟨by omega, unborn⟩
        · simp only [gone, new, if_false, false_or, not_false_eq_true, and_true]
    · show (if n ∈ u.insertedNodes then ts else w.born n) = 0 →
        (if n ∈ u.deletedNodes then ts else w.died n) = 0
      intro zero
      split at zero
      · omega
      · rw [if_neg fun member => (alive n member).1 zero]
        exact facts.unborn n zero
    · have bound := facts.bornLe n
      show (if n ∈ u.insertedNodes then ts else w.born n) ≤ w.timestamp
      split <;> omega
    · have bound := facts.diedLe n
      show (if n ∈ u.deletedNodes then ts else w.died n) ≤ w.timestamp
      split <;> omega
    · show w.itime n = if n ∈ u.insertedNodes then ts else w.born n
      have old := facts.itime n some_
      rw [if_neg fun member => some_ (old.trans (fresh n member))]
      exact old
    · show w.dtime n = if n ∈ u.deletedNodes then ts else w.died n
      have old := facts.dtime n some_
      rw [if_neg fun member => some_ (old.trans (alive n member).2)]
      exact old
    · have old := facts.retired v
      refine ⟨fun n member => ?_, old.2.imp_of_mem fun {a b} first second order => ?_⟩
      · show (if n ∈ u.deletedNodes then ts else w.died n) ≠ 0
        rw [dead (old.1 n member)]
        exact old.1 n member
      · show (if b ∈ u.deletedNodes then ts else w.died b) ≤ if a ∈ u.deletedNodes then ts
          else w.died a
        rw [dead (old.1 a first), dead (old.1 b second)]
        exact order
    · show (if x ∈ u.deletedNodes then ts else w.died x) ≤ if y ∈ u.deletedNodes then ts
        else w.died y
      have owed : y ∈ (Function.update w.pc tid (.update u (.readUnlock ts true)) v).owes := owed
      rw [dead ((facts.retired v).1 x member)]
      by_cases self : v = tid
      · rw [self, Function.update_self] at owed
        have bound := facts.diedLe x
        have owed : y ∈ u.deletedNodes := owed
        rw [if_pos owed]
        omega
      · rw [owes_other v self] at owed
        rw [dead ((inv.threads v).owed_dead owed)]
        exact facts.order v y owed x member
  · have kept (v' : T) (n : N) (owed : n ∈ (w.pc v').owes) :
      n ∈ (Function.update w.pc tid (.update u (.readUnlock ts true)) v').owes := by
      by_cases self : v' = tid
      · rw [self, pc] at owed
        cases owed
      · rw [owes_other v' self]
        exact owed
    refine ⟨Nat.le_refl _, fun n => ?_, fun n => ?_, fun n some_ => some_,
      fun v' n owed => .inl ⟨kept v' n owed, rfl⟩,
      fun _ _ member => member, fun _ member => List.mem_append_right _ member, fun n member =>
        ?_, fun n member => ?_, rfl, rfl, rfl, rfl, rfl⟩
    · show (if n ∈ u.insertedNodes then ts else w.born n) = w.born n ∨ w.born n = 0 ∧
        w.timestamp ≤ if n ∈ u.insertedNodes then ts else w.born n
      by_cases new : n ∈ u.insertedNodes
      · rw [if_pos new]
        exact .inr ⟨fresh n new, Nat.le_of_eq same.symm⟩
      · rw [if_neg new]
        exact .inl rfl
    · show ((if n ∈ u.deletedNodes then ts else w.died n) = w.died n ∧
        (if n ∈ u.deletedNodes then some tid else w.killer n) = w.killer n) ∨
        (w.died n = 0 ∧ w.timestamp ≤ (if n ∈ u.deletedNodes then ts else w.died n) ∧
          ∃ v', v' ≠ v ∧ (if n ∈ u.deletedNodes then some tid else w.killer n) = some v' ∧
            n ∈ (Function.update w.pc tid (.update u (.readUnlock ts true)) v').owes)
      by_cases gone : n ∈ u.deletedNodes
      · rw [if_pos gone, if_pos gone]
        refine .inr ⟨(alive n gone).2, Nat.le_of_eq same.symm, tid, Ne.symm apart, rfl, ?_⟩
        rw [Function.update_self]
        exact gone
      · rw [if_neg gone, if_neg gone]
        exact .inl ⟨rfl, rfl⟩
    · show n ∈ (w.query v).during ∨ (if n ∈ u.insertedNodes then ts else w.born n) ≠ 0 ∧
        (if n ∈ u.deletedNodes then ts else w.died n) = 0
      rcases List.mem_append.mp member with new | old
      · have unborn := fresh n new
        rw [if_pos new, if_neg fun gone => (alive n gone).1 unborn]
        exact .inr ⟨by omega, facts.unborn n unborn⟩
      · exact .inl old
    · show n ∈ (w.query v).throughout.filter (fun node => node ∉ u.deletedNodes) ∨
        (if n ∈ u.deletedNodes then ts else w.died n) ≠ 0
      by_cases gone : n ∈ u.deletedNodes
      · rw [if_pos gone]
        exact .inr (by omega)
      · exact .inl (List.mem_filter.mpr ⟨member, by simpa using gone⟩)
  · show (Function.update w.pc tid _ tid).Good _ _ _ _
    rw [Function.update_self]
    exact ⟨⟨posted, by omega, fun n new => if_pos new, fun n gone => if_pos gone⟩, trivial⟩
  · show (Function.update w.pc tid _ tid).QueryOk _ _ _ _
    rw [Function.update_self]
    trivial

end Steps

end SetBench.RangeQuery
