import Mathlib
import SetBench.RowLock

/-! What lock_get and lock_release keep of one lock. -/
namespace SetBench.RowLock

variable {alg : Alg} {ts : Nat → Nat} {lock : Lock} {txn : Nat} {type : LockType}
    {ws : List LockEntry}

theorem conflict_none (type : LockType) : conflictLock .none type = false := if_pos (.inl rfl)

theorem free_cases {l1 l2 : LockType} (free : conflictLock l1 l2 = false) :
    l1 = .none ∨ l2 = .none ∨ (l1 = .sh ∧ l2 = .sh) := by
  revert free
  cases l1 <;> cases l2 <;> decide

/-- The lock between two steps, apart from its first waiter: `ws` is the list of waiters. -/
structure Mid (alg : Alg) (ts : Nat → Nat) (lock : Lock) (ws : List LockEntry) : Prop where
  ownerCnt : lock.ownerCnt = lock.owners.length
  waiterCnt : lock.waiterCnt = ws.length
  free : lock.owners = [] → lock.lockType = .none
  typed : ∀ o ∈ lock.owners, o.type = lock.lockType
  real : ∀ e ∈ lock.owners ++ ws, e.type ≠ .none
  single : lock.lockType = .ex → lock.owners.length ≤ 1
  distinct : ((lock.owners ++ ws).map LockEntry.txn).Nodup
  ordered : alg = .waitDie → ws.Pairwise (fun a b => ts b.txn ≤ ts a.txn)
  older : alg = .waitDie → ∀ w ∈ ws, ∀ o ∈ lock.owners, ts w.txn ≤ ts o.txn
  unqueued : alg = .noWait → ws = []

/-- A lock that is not being changed: the first waiter, if there is one, cannot join. -/
structure LockOk (alg : Alg) (ts : Nat → Nat) (lock : Lock) : Prop where
  mid : Mid alg ts lock lock.waiters
  front : ∀ w rest, lock.waiters = w :: rest → conflictLock lock.lockType w.type = true

theorem Mid.shared (mid : Mid alg ts lock ws) {w : LockEntry} (real : w.type ≠ .none)
    (join : conflictLock lock.lockType w.type = false) :
    lock.owners = [] ∨ (lock.lockType = .sh ∧ w.type = .sh) := by
  rcases free_cases join with none_ | none_ | shared
  · refine .inl (List.eq_nil_iff_forall_not_mem.mpr fun o member => ?_)
    exact mid.real o (List.mem_append_left _ member) ((mid.typed o member).trans none_)
  · exact absurd none_ real
  · exact .inr shared

-- An entry joins the owners.
theorem Mid.join (mid : Mid alg ts lock ws) {e : LockEntry} (real : e.type ≠ .none)
    (join : conflictLock lock.lockType e.type = false)
    (absent : ∀ o ∈ lock.owners ++ ws, o.txn ≠ e.txn)
    (younger : alg = .waitDie → ∀ w ∈ ws, ts w.txn ≤ ts e.txn) (cnt : Nat)
    (count : cnt = ws.length) :
    Mid alg ts { lock with
      owners := e :: lock.owners
      ownerCnt := lock.ownerCnt + 1
      waiterCnt := cnt
      lockType := e.type } ws where
  ownerCnt := by rw [mid.ownerCnt]; rfl
  waiterCnt := count
  free := nofun
  typed := by
    intro o member
    rcases List.mem_cons.mp member with rfl | old
    · rfl
    · rcases mid.shared real join with none_ | ⟨sh, mine⟩
      · rw [none_] at old
        cases old
      · exact ((mid.typed o old).trans sh).trans mine.symm
  real := by
    intro o member
    rcases List.mem_cons.mp member with rfl | old
    · exact real
    · exact mid.real o old
  single := by
    intro ex
    rcases mid.shared real join with none_ | ⟨_, mine⟩
    · rw [none_]
      exact Nat.le_refl 1
    · exact absurd (mine.symm.trans ex) LockType.noConfusion
  distinct := by
    refine List.nodup_cons.mpr ⟨fun member => ?_, mid.distinct⟩
    obtain ⟨o, inside, same⟩ := List.mem_map.mp member
    exact absent o inside same
  ordered := mid.ordered
  older := by
    intro die w member o owner
    rcases List.mem_cons.mp owner with rfl | old
    · exact younger die w member
    · exact mid.older die w member o old
  unqueued := mid.unqueued

/-- What lock_release hands out: the first of the waiters, up to one that conflicts. -/
theorem joinWaiters_spec (ws : List LockEntry) : ∀ lock : Lock, Mid alg ts lock ws → ∃ front,
    LockOk alg ts (joinWaiters lock ws).1 ∧ ws = front ++ (joinWaiters lock ws).1.waiters ∧
      (joinWaiters lock ws).1.owners = front.reverse ++ lock.owners ∧ (joinWaiters lock ws).2 =
      front.map LockEntry.txn := by
  induction ws with
  | nil =>
      intro lock mid
      exact ⟨[], ⟨⟨mid.ownerCnt, mid.waiterCnt, mid.free, mid.typed, mid.real, mid.single,
        mid.distinct, mid.ordered, mid.older,
        mid.unqueued⟩, nofun⟩, rfl, rfl, rfl⟩
  | cons w rest ih =>
      intro lock mid
      by_cases conflict : conflictLock lock.lockType w.type = true
      · rw [joinWaiters, if_pos conflict]
        refine ⟨[], ⟨⟨mid.ownerCnt, mid.waiterCnt, mid.free, mid.typed, mid.real, mid.single,
          mid.distinct, mid.ordered, mid.older,
          mid.unqueued⟩, ?_⟩, rfl, rfl, rfl⟩
        rintro w' rest' same
        cases same
        exact conflict
      · rw [joinWaiters, if_neg conflict]
        have apart : (lock.owners ++ w :: rest).map LockEntry.txn |>.Nodup := mid.distinct
        have moved : List.Perm (lock.owners ++ w :: rest) (w :: (lock.owners ++ rest)) :=
          List.perm_middle
        have distinct := (moved.map LockEntry.txn).nodup_iff.mp apart
        obtain ⟨absent, others⟩ := List.nodup_cons.mp distinct
        have later : Mid alg ts { lock with waiterCnt := rest.length } rest := by
          refine ⟨mid.ownerCnt, rfl, mid.free, mid.typed, ?_, mid.single, others,
            fun die => (List.pairwise_cons.mp (mid.ordered die)).2,
            fun die x member => mid.older die x (List.mem_cons_of_mem _ member), fun none_ =>
              absurd (mid.unqueued none_) (List.cons_ne_nil _ _)⟩
          intro e member
          exact mid.real e (moved.mem_iff.mpr (List.mem_cons_of_mem _ member))
        have joined := later.join (e := w) (mid.real w (List.mem_append_right _ List.mem_cons_self))
          (Bool.eq_false_iff.mpr conflict)
          (fun o member same => absent (same ▸ List.mem_map_of_mem member))
          (fun die => (List.pairwise_cons.mp (mid.ordered die)).1)
          (lock.waiterCnt - 1) (by rw [mid.waiterCnt]; rfl)
        obtain ⟨front, ok, split, owners, ready⟩ := ih _ joined
        refine ⟨w :: front, ok, congrArg (w :: ·) split, ?_, congrArg (w.txn :: ·) ready⟩
        rw [List.reverse_cons, List.append_assoc]
        exact owners

theorem mem_insertWaiter (entry e : LockEntry) (ws : List LockEntry) :
    e ∈ insertWaiter ts entry ws ↔ e = entry ∨ e ∈ ws := by
  induction ws with
  | nil => exact List.mem_singleton.trans (by simp)
  | cons w rest ih =>
      rw [insertWaiter]
      split
      · rw [List.mem_cons, ih, List.mem_cons]
        exact or_left_comm
      · exact List.mem_cons

theorem insertWaiter_perm (entry : LockEntry) (ws : List LockEntry) :
    (insertWaiter ts entry ws).Perm (entry :: ws) := by
  induction ws with
  | nil => exact .refl _
  | cons w rest ih =>
      rw [insertWaiter]
      split
      · exact (ih.cons w).trans (.swap ..)
      · exact .refl _

theorem insertWaiter_ordered {entry : LockEntry} {ws : List LockEntry}
    (ordered : ws.Pairwise fun a b => ts b.txn ≤ ts a.txn) :
    (insertWaiter ts entry ws).Pairwise fun a b => ts b.txn ≤ ts a.txn := by
  induction ws with
  | nil => exact List.pairwise_singleton _ _
  | cons w rest ih =>
      obtain ⟨first, later⟩ := List.pairwise_cons.mp ordered
      rw [insertWaiter]
      split
      · rename_i less
        refine List.pairwise_cons.mpr ⟨fun e member => ?_, ih later⟩
        rcases (mem_insertWaiter entry e rest).mp member with rfl | old
        · exact less.le
        · exact first e old
      · rename_i not_less
        refine List.pairwise_cons.mpr ⟨fun e member => ?_, ordered⟩
        rcases List.mem_cons.mp member with rfl | old
        · exact Nat.le_of_not_lt not_less
        · exact (first e old).trans (Nat.le_of_not_lt not_less)

-- A new waiter, at its place in the list.
theorem Mid.queue (mid : Mid alg ts lock ws) {entry : LockEntry} {ws' : List LockEntry}
    (perm : ws'.Perm (entry :: ws)) (real : entry.type ≠ .none)
    (absent : ∀ o ∈ lock.owners ++ ws, o.txn ≠ entry.txn) (waits : alg ≠ .noWait)
    (ordered : alg = .waitDie → ws'.Pairwise fun a b => ts b.txn ≤ ts a.txn)
    (older : alg = .waitDie → ∀ o ∈ lock.owners, ts entry.txn ≤ ts o.txn) :
    Mid alg ts { lock with waiters := ws', waiterCnt := lock.waiterCnt + 1 } ws' where
  ownerCnt := mid.ownerCnt
  waiterCnt := by
    rw [perm.length_eq, mid.waiterCnt]
    rfl
  free := mid.free
  typed := mid.typed
  real := by
    intro e member
    rcases List.mem_append.mp member with owner | waiter
    · exact mid.real e (List.mem_append_left _ owner)
    · rcases List.mem_cons.mp (perm.mem_iff.mp waiter) with rfl | old
      · exact real
      · exact mid.real e (List.mem_append_right _ old)
  single := mid.single
  distinct := by
    have moved : (lock.owners ++ ws').Perm (entry :: (lock.owners ++ ws)) :=
      (perm.append_left lock.owners).trans List.perm_middle
    refine (moved.map LockEntry.txn).nodup_iff.mpr
      (List.nodup_cons.mpr ⟨fun member => ?_, mid.distinct⟩)
    obtain ⟨o, inside, same⟩ := List.mem_map.mp member
    exact absent o inside same
  ordered := ordered
  older := by
    intro die w member o owner
    rcases List.mem_cons.mp (perm.mem_iff.mp member) with rfl | old
    · exact older die o owner
    · exact mid.older die w old o owner
  unqueued := fun none_ => absurd none_ waits

/-- What lock_get can do. -/
inductive Got (alg : Alg) (ts : Nat → Nat) (lock : Lock) (entry : LockEntry) : Lock × RC ×
    List Nat → Prop where
  | ok {after : Lock} {ids : List Nat} (kept : LockOk alg ts after)
    (owners : after.owners = entry :: lock.owners)
      (waiters : after.waiters = lock.waiters)
      (joined : conflictLock lock.lockType entry.type = false) :
      Got alg ts lock entry (after, .ok, ids)
  | wait {after : Lock} {ids : List Nat} (kept : LockOk alg ts after)
    (owners : after.owners = lock.owners)
      (waiters : after.waiters.Perm (entry :: lock.waiters)) :
      Got alg ts lock entry (after, .wait, ids)
  | abort : Got alg ts lock entry (lock, .abort, [])

theorem lockGet_cases (ok : LockOk alg ts lock) (real : type ≠ .none)
    (absent : ∀ o ∈ lock.owners ++ lock.waiters, o.txn ≠ txn) :
    Got alg ts lock ⟨type, txn⟩ (lockGet alg ts lock type txn) := by
  unfold lockGet
  by_cases must : mustWait alg ts lock type txn = true
  · dsimp only
    rw [if_pos must]
    cases alg with
    | noWait => exact .abort
    | dlDetect =>
        have perm : List.Perm (lock.waiters ++ [⟨type, txn⟩]) (⟨type, txn⟩ :: lock.waiters) :=
          List.perm_append_singleton _ _
        refine .wait ⟨ok.mid.queue perm real absent nofun nofun nofun, fun w rest same => ?_⟩
          rfl perm
        cases queue : lock.waiters with
        | nil =>
            rw [queue, List.nil_append] at same
            cases same
            simpa [mustWait, queue] using must
        | cons first others =>
            rw [queue, List.cons_append] at same
            cases same
            exact ok.front _ others queue
    | waitDie =>
        dsimp only
        split
        · exact .abort
        · rename_i young
          have perm : (insertWaiter ts ⟨type, txn⟩ lock.waiters).Perm
            (⟨type, txn⟩ :: lock.waiters) := insertWaiter_perm _ _
          have older : ∀ o ∈ lock.owners, ts txn ≤ ts o.txn := by
            intro o member
            refine Nat.le_of_not_lt fun less => young ?_
            exact List.any_eq_true.mpr ⟨o, member, decide_eq_true less⟩
          have ordered : (insertWaiter ts ⟨type, txn⟩ lock.waiters).Pairwise fun a b =>
            ts b.txn ≤ ts a.txn :=
            insertWaiter_ordered (ok.mid.ordered rfl)
          refine .wait ⟨ok.mid.queue perm real absent nofun (fun _ => ordered) fun _ => older,
            fun w rest same => ?_⟩ rfl perm
          cases queue : lock.waiters with
          | nil =>
              rw [queue] at same
              cases same
              simpa [mustWait, queue] using must
          | cons first others =>
              rw [queue, insertWaiter] at same
              split at same
              · cases same
                exact ok.front _ others queue
              · rename_i not_less
                cases same
                simpa [mustWait, queue, not_less] using must
  · rw [if_neg must]
    have free : conflictLock lock.lockType type = false := by
      unfold mustWait at must
      simp only [Bool.or_eq_true, not_or, Bool.not_eq_true] at must
      exact must.1
    have younger : alg = .waitDie → ∀ w ∈ lock.waiters, ts w.txn ≤ ts txn := by
      rintro rfl w member
      cases queue : lock.waiters with
      | nil =>
          rw [queue] at member
          cases member
      | cons first others =>
          have head : ts first.txn ≤ ts txn := by
            simpa [mustWait, queue, free] using must
          have ordered := queue ▸ ok.mid.ordered rfl
          rw [queue] at member
          rcases List.mem_cons.mp member with rfl | later
          · exact head
          · exact ((List.pairwise_cons.mp ordered).1 w later).trans head
    have joined := ok.mid.join (e := ⟨type, txn⟩) real free absent younger lock.waiterCnt
      ok.mid.waiterCnt
    refine .ok ⟨joined, fun w rest same => ?_⟩ rfl rfl free
    have blocked := ok.front w rest same
    rcases ok.mid.shared (w := ⟨type, txn⟩) real free with none_ | ⟨sh, mine⟩
    · rw [ok.mid.free none_, conflict_none] at blocked
      cases blocked
    · rw [sh] at blocked
      rwa [show type = .sh from mine]

theorem eraseP_mem {es : List LockEntry} (distinct : (es.map LockEntry.txn).Nodup) (txn : Nat)
    (e : LockEntry) :
    e ∈ es.eraseP (·.txn == txn) ↔ e ∈ es ∧ e.txn ≠ txn := by
  induction es with
  | nil => simp
  | cons x rest ih =>
      obtain ⟨absent, others⟩ := List.nodup_cons.mp distinct
      by_cases here : x.txn = txn
      · have erased : (x :: rest).eraseP (·.txn == txn) = rest :=
          List.eraseP_cons_of_pos (beq_iff_eq.mpr here)
        rw [erased, List.mem_cons]
        constructor
        · intro member
          exact ⟨.inr member, fun same => absent
            (here.trans same.symm ▸ List.mem_map_of_mem member)⟩
        · rintro ⟨rfl | member, other⟩
          · exact absurd here other
          · exact member
      · have erased : (x :: rest).eraseP (·.txn == txn) = x :: rest.eraseP (·.txn == txn) :=
          List.eraseP_cons_of_neg fun same => here (beq_iff_eq.mp same)
        rw [erased, List.mem_cons, List.mem_cons, ih others]
        constructor
        · rintro (rfl | ⟨member, other⟩)
          · exact ⟨.inl rfl, here⟩
          · exact ⟨.inr member, other⟩
        · rintro ⟨rfl | member, other⟩
          · exact .inl rfl
          · exact .inr ⟨member, other⟩

theorem length_eraseP {es : List LockEntry} (held : ∃ e ∈ es, e.txn = txn) :
    (es.eraseP (·.txn == txn)).length = es.length - 1 := by
  obtain ⟨e, member, same⟩ := held
  exact List.length_eraseP_of_mem member (beq_iff_eq.mpr same)

-- The lock without the entry of `txn`, before the waiters are looked at.
def without (lock : Lock) (txn : Nat) : Lock :=
  if lock.owners.any (·.txn == txn) then
    { lock with owners := lock.owners.eraseP (·.txn == txn), ownerCnt := lock.ownerCnt - 1,
                lockType := if lock.ownerCnt - 1 = 0 then .none else lock.lockType }
  else { lock with waiters := lock.waiters.eraseP (·.txn == txn), waiterCnt := lock.waiterCnt - 1 }

theorem Mid.erased (mid : Mid alg ts lock ws) {owners' ws' : List LockEntry}
    (owners : owners'.Sublist lock.owners) (waiters : ws'.Sublist ws) (ownerCnt waiterCnt : Nat)
    (owns : ownerCnt = owners'.length) (waits : waiterCnt = ws'.length) (lockType : LockType)
    (type : lockType = if owners' = [] then .none else lock.lockType) :
    Mid alg ts { lock with
      owners := owners'
      waiters := ws'
      ownerCnt := ownerCnt
      waiterCnt := waiterCnt
      lockType := lockType } ws' where
  ownerCnt := owns
  waiterCnt := waits
  free := fun empty => type.trans (if_pos empty)
  typed := by
    intro o member
    have some : owners' ≠ [] := List.ne_nil_of_mem member
    exact (mid.typed o (owners.subset member)).trans (type.trans (if_neg some)).symm
  real := fun e member => mid.real e ((owners.append waiters).subset member)
  single := by
    intro ex
    by_cases empty : owners' = []
    · rw [empty]
      exact Nat.zero_le 1
    · exact owners.length_le.trans (mid.single ((type.trans (if_neg empty)).symm.trans ex))
  distinct := mid.distinct.sublist ((owners.append waiters).map _)
  ordered := fun die => (mid.ordered die).sublist waiters
  older := fun die w member o owner => mid.older die w (waiters.subset member) o
    (owners.subset owner)
  unqueued := fun none_ => List.sublist_nil.mp (mid.unqueued none_ ▸ waiters)

theorem any_holds : lock.owners.any (·.txn == txn) = true ↔ lock.Holds txn := by
  rw [List.any_eq_true]
  exact exists_congr fun o => and_congr_right fun _ => beq_iff_eq

/-- What lock_release does: the entry of `txn` goes, and the waiters at the front become owners. -/
structure Released (alg : Alg) (ts : Nat → Nat) (lock : Lock) (txn : Nat)
    (result : Lock × List Nat) : Prop where
  kept : LockOk alg ts result.1
  owners : ∀ e, e ∈ result.1.owners ↔ (e ∈ lock.owners ∧ e.txn ≠ txn) ∨
    (e ∈ lock.waiters ∧ e.txn ≠ txn ∧ e.txn ∈ result.2)
  waiters : ∀ e, e ∈ result.1.waiters ↔ e ∈ lock.waiters ∧ e.txn ≠ txn ∧ e.txn ∉ result.2
  ready : ∀ t ∈ result.2, t ≠ txn ∧ lock.Queues t

theorem release_from {left : Lock} (mid : Mid alg ts left left.waiters)
    (owners : ∀ e, e ∈ left.owners ↔ e ∈ lock.owners ∧ e.txn ≠ txn)
    (waiters : ∀ e, e ∈ left.waiters ↔ e ∈ lock.waiters ∧ e.txn ≠ txn) :
    Released alg ts lock txn (joinWaiters left left.waiters) := by
  obtain ⟨front, ok, split, owned, ready⟩ := joinWaiters_spec left.waiters left mid
  have distinct : (left.waiters.map LockEntry.txn).Nodup :=
    mid.distinct.sublist ((List.sublist_append_right _ _).map _)
  have in_front (e : LockEntry) (member : e ∈ left.waiters) : e ∈ front ↔
    e.txn ∈ front.map LockEntry.txn := by
    refine ⟨fun inside => List.mem_map_of_mem inside, fun inside => ?_⟩
    obtain ⟨x, at_front, same⟩ := List.mem_map.mp inside
    have queued : x ∈ left.waiters := split ▸ List.mem_append_left _ at_front
    rwa [← List.inj_on_of_nodup_map distinct queued member same]
  refine ⟨ok, fun e => ?_, fun e => ?_, fun t member => ?_⟩
  · rw [owned, List.mem_append, List.mem_reverse, owners e, ready, or_comm]
    refine or_congr_right ⟨fun inside => ?_, fun ⟨queued, other, inside⟩ => ?_⟩
    · have queued : e ∈ left.waiters := split ▸ List.mem_append_left _ inside
      exact ⟨((waiters e).mp queued).1, ((waiters e).mp queued).2, List.mem_map_of_mem inside⟩
    · exact (in_front e ((waiters e).mpr ⟨queued, other⟩)).mpr inside
  · rw [ready, ← and_assoc, ← waiters e]
    constructor
    · intro member
      have queued : e ∈ left.waiters := split ▸ List.mem_append_right _ member
      refine ⟨queued, fun inside => ?_⟩
      have at_front := (in_front e queued).mpr inside
      have apart := (split ▸ List.Nodup.of_map _
        distinct : (front ++ (joinWaiters left left.waiters).1.waiters).Nodup)
      exact (List.nodup_append.mp apart).2.2 e at_front e member rfl
    · rintro ⟨queued, absent⟩
      have either : e ∈ front ++ (joinWaiters left left.waiters).1.waiters := split ▸ queued
      rcases List.mem_append.mp either with at_front | member
      · exact absurd (List.mem_map_of_mem at_front) absent
      · exact member
  · rw [ready] at member
    obtain ⟨e, at_front, rfl⟩ := List.mem_map.mp member
    have queued := (waiters e).mp (split ▸ List.mem_append_left _ at_front)
    exact ⟨queued.2, e, queued.1, rfl⟩

theorem lockRelease_spec (ok : LockOk alg ts lock) (member : lock.Holds txn ∨ lock.Queues txn) :
    Released alg ts lock txn (lockRelease lock txn) := by
  have distinct := ok.mid.distinct
  rw [List.map_append, List.nodup_append] at distinct
  obtain ⟨one, two, apart⟩ := distinct
  unfold lockRelease
  dsimp only
  by_cases held : lock.Holds txn
  · rw [if_pos (any_holds.mpr held)]
    refine release_from ?_ (eraseP_mem one txn) fun e => ?_
    · refine ok.mid.erased List.eraseP_sublist (List.Sublist.refl _) _ _ ?_ ok.mid.waiterCnt _ ?_
      · rw [length_eraseP held, ok.mid.ownerCnt]
      · rw [ok.mid.ownerCnt, ← length_eraseP held]
        exact if_congr List.length_eq_zero_iff rfl rfl
    · refine ⟨fun inside => ⟨inside, fun same => ?_⟩, And.left⟩
      obtain ⟨o, owner, here⟩ := held
      exact apart _ (List.mem_map_of_mem owner) _ (List.mem_map_of_mem inside)
        (here.trans same.symm)
  · have queued : lock.Queues txn := member.resolve_left held
    rw [if_neg fun any => held (any_holds.mp any)]
    refine release_from ?_ (fun e => ?_) (eraseP_mem two txn)
    · refine ok.mid.erased (List.Sublist.refl _) List.eraseP_sublist _ _ ok.mid.ownerCnt ?_ _ ?_
      · rw [length_eraseP queued, ok.mid.waiterCnt]
      · split
        · rename_i empty
          exact ok.mid.free empty
        · rfl
    · exact ⟨fun inside => ⟨inside, fun same => held ⟨e, inside, same⟩⟩, And.left⟩

end SetBench.RowLock
