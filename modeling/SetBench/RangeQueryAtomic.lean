import SetBench.RangeQuerySteps

/-! The steps of a range query, and what it reports. -/
namespace SetBench.RangeQuery

open Transition

variable {A V T N K : Type} [DecidableEq T] [Fintype T] [LinearOrder K]

section Steps

variable {config : Config T N K} {w : World A V T N K} (inv : Inv config w) {tid : T}

include inv

theorem Inv.update [DecidableEq A] [DecidableEq V] [DecidableEq N] {u : Update A V N}
    {stage : Stage N} {after : World A V T N K} (pc : w.pc tid = .update u stage)
    (moved : updateMove w tid u stage = some after) : Inv config after := by
  have good := inv.threads tid
  rw [pc] at good
  obtain ⟨good, within⟩ := good
  cases stage with
  | announce i =>
      obtain ⟨num, slots⟩ := good
      simp only [updateMove] at moved
      split at moved <;> cases moved
      · rename_i node found
        refine inv.setSlot (by rw [pc]; rfl) rfl ⟨⟨num, fun j below => ?_⟩, trivial⟩ fun _ =>
          trivial
        rw [num, Nat.zero_add]
        by_cases self : j = i
        · rw [self, Function.update_self]
          exact found.symm
        · rw [Function.update_of_ne self]
          exact slots j (by omega)
      · rename_i ended
        refine inv.goto (by rw [pc]; rfl) ⟨⟨num, fun j below => slots j ?_⟩, trivial⟩ trivial
        have := List.getElem?_eq_none_iff.mp ended
        omega
  | announceSize =>
      cases moved
      refine inv.setNum (by rw [pc]; rfl) ⟨⟨?_, good.2⟩, trivial⟩ trivial
      rw [good.1, Nat.zero_add]
  | readLock =>
      simp only [updateMove] at moved
      split at moved
      · rename_i reading
        cases moved
        exact inv.goto (by rw [pc]; rfl) ⟨⟨good, reading⟩, trivial⟩ trivial
      · exact inv.locking moved fun lockPc => by rw [pc]; exact ⟨good, trivial⟩
  | readTime =>
      cases moved
      exact inv.goto (by rw [pc]; rfl) ⟨⟨good.1, good.2, rfl⟩, trivial⟩ trivial
  | linearize ts =>
      simp only [updateMove] at moved
      split at moved
      · obtain ⟨valid, ⟨⟩⟩ := Option.ite_none_right_eq_some.mp moved
        exact inv.linearized pc valid
      · cases moved
        exact inv.goto (by rw [pc]; rfl) ⟨good.1.1, trivial⟩ trivial
  | readUnlock ts done =>
      simp only [updateMove] at moved
      split at moved
      · cases done with
        | true =>
            cases moved
            exact inv.goto (by rw [pc]; rfl) ⟨good, fun _ member => member⟩ trivial
        | false =>
            cases moved
            exact inv.goto (by rw [pc]; rfl) ⟨good, trivial⟩ trivial
      · refine inv.locking moved fun lockPc => ?_
        rw [pc]
        cases done with
        | true => exact ⟨good, trivial⟩
        | false => exact ⟨good, trivial⟩
  | setInsertionTimestamps ts rest =>
      cases rest with
      | nil =>
          cases moved
          exact inv.goto (by rw [pc]; rfl) ⟨good, fun _ member => member⟩ trivial
      | cons node rest =>
          cases moved
          exact inv.setItime pc
  | setDeletionTimestamps ts rest =>
      cases rest with
      | nil =>
          cases moved
          exact inv.goto (by rw [pc]; rfl) ⟨⟨good.1, ts, good.2.1, good.2.2.2⟩,
            fun _ member => member⟩ trivial
      | cons node rest =>
          cases moved
          exact inv.setDtime pc
  | retire rest =>
      cases rest with
      | nil =>
          cases moved
          exact inv.goto (by rw [pc]; rfl) ⟨good.1.1, trivial⟩ trivial
      | cons node rest =>
          cases moved
          exact inv.retireNode pc
  | succeeded =>
      cases moved
      refine inv.setNum (by rw [pc]; rfl) ?_ trivial
      have num : w.numAnnouncements tid = u.deletedNodes.length := good
      show w.numAnnouncements tid - u.deletedNodes.length = 0
      omega
  | failed left =>
      have num : w.numAnnouncements tid = left := good
      cases left with
      | zero =>
          cases moved
          exact inv.goto (by rw [pc]; rfl) num trivial
      | succ left =>
          cases moved
          refine inv.setNum (by rw [pc]; rfl) ⟨?_, trivial⟩ trivial
          show w.numAnnouncements tid - 1 = left
          omega

section Query

variable {lo hi : K} {phase : Phase T N} (pc : w.pc tid = .query lo hi phase)

include pc

-- A query goes on to a phase that wants nothing of the lock.
theorem Inv.reach {next : Phase T N} (calm : next.Good w.shared (w.rwlock.pc tid))
    {q : Query T N K} (ok : next.Ok config w.shared tid lo hi q) :
    Inv config ((w.setQuery tid q).goto tid (.query lo hi next)) := by
  have good := inv.threads tid
  rw [pc] at good
  exact inv.asks (by rw [pc]; rfl) ⟨good.1, calm⟩ ok

theorem Inv.to {next : Phase T N} (calm : next.Good w.shared (w.rwlock.pc tid))
    (ok : next.Ok config w.shared tid lo hi (w.query tid)) :
    Inv config (w.goto tid (.query lo hi next)) := by
  have good := inv.threads tid
  rw [pc] at good
  exact inv.goto (by rw [pc]; rfl) ⟨good.1, calm⟩ ok

omit inv pc [DecidableEq T] in
-- Every key of an added node that lies in the range is in the results.
theorem Missing.added {s : Shared T N} {q : Query T N K} {node other : N}
    (missing : Missing config s lo hi
      { q with results := q.results ++ config.newKeys lo hi q.results node } other) :
    Missing config s lo hi q other ∧ other ≠ node := by
  obtain ⟨snap, key, member, low, high, absent⟩ := missing
  have absent : key ∉ q.results ++ config.newKeys lo hi q.results node := absent
  rw [List.mem_append, not_or] at absent
  refine ⟨⟨snap, key, member, low, high, absent.1⟩, ?_⟩
  rintro rfl
  refine absent.2 (List.mem_filter.mpr ⟨member, ?_⟩)
  simp only [decide_eq_true_eq]
  exact ⟨low, high, absent.1⟩

theorem Inv.add {node : N} {place : Place T N}
    (live : Live config w.shared tid lo hi (w.query tid)) (sorted : place.Sorted w.shared)
    (snap : w.shared.Snap (w.query tid).rqLinTime node)
    (missed : ∀ n, Missing config w.shared lo hi (w.query tid) n →
      place.Where w.shared (w.query tid) n ∨ n = node) :
    Inv config (addToRQ config w tid lo hi node place) := by
  rw [addToRQ]
  refine inv.reach pc (by trivial)
    ⟨⟨live.positive, live.past, live.snapshot, live.during, live.throughout, live.debt,
    fun key member => ?_, ?_⟩, sorted,
    fun n missing => ?_⟩
  · rcases List.mem_append.mp member with old | new
    · exact live.sound key old
    · obtain ⟨mine, condition⟩ := List.mem_filter.mp new
      simp only [decide_eq_true_eq] at condition
      exact ⟨node, snap, mine, condition.1, condition.2.1⟩
  · refine List.nodup_append.mpr ⟨live.nodup, (config.distinct node).filter _,
      fun a old b new same => ?_⟩
    have condition := (List.mem_filter.mp new).2
    simp only [decide_eq_true_eq] at condition
    exact condition.2.2 (same ▸ old)
  · obtain ⟨before, apart⟩ := missing.added
    have ahead := (missed n before).resolve_right apart
    cases place <;> exact ahead

theorem Inv.decideDtime {node : N} {place : Place T N}
    (live : Live config w.shared tid lo hi (w.query tid)) (sorted : place.Sorted w.shared)
    (birth : w.born node ≠ 0 ∧ w.born node < (w.query tid).rqLinTime) (known : w.dtime node ≠ 0)
    (missed : ∀ n, Missing config w.shared lo hi (w.query tid) n →
      place.Where w.shared (w.query tid) n ∨ n = node) :
    Inv config (decideDtime config w tid lo hi node place) := by
  have died := inv.facts.dtime node known
  rw [RangeQuery.decideDtime]
  split
  · rename_i early
    refine inv.to pc trivial ⟨live, sorted, fun n missing => (missed n missing).resolve_right ?_⟩
    rintro rfl
    have late : w.died n = 0 ∨ (w.query tid).rqLinTime ≤ w.died n := missing.1.2.2
    omega
  · rename_i late
    refine inv.add pc live sorted ⟨birth.1, birth.2, .inr ?_⟩ missed
    show (w.query tid).rqLinTime ≤ w.died node
    omega

end Query

theorem Inv.tryAdd [DecidableEq N] {lo hi : K} {check : Check} {job : Job T N} {place : Place T N}
    (pc : w.pc tid = .query lo hi (.tryAdd check job place)) :
    Inv config (tryAddMove config w tid lo hi job place check) := by
  have ok := inv.queries tid
  rw [pc] at ok
  obtain ⟨live, sorted, ⟨checked, found, origin⟩, missed⟩ := ok
  have self (n : N) (missing : Missing config w.shared lo hi (w.query tid) n) :
    place.Where w.shared (w.query tid) n ∨ n = job.node :=
    (missed n missing).imp_right And.left
  -- The call goes on with another read.
  have go {next : Check} (later : next ≠ .dtimeLast) (good : next.Ok w.shared (w.query tid) job) :
      Inv config (w.goto tid (.query lo hi (.tryAdd next job place))) :=
    inv.to pc trivial ⟨live, sorted, ⟨good, found, origin⟩,
      fun n missing => (missed n missing).imp_right fun finds => ⟨finds.1, later, finds.2.2⟩⟩
  cases check with
  | itime =>
      simp only [tryAddMove]
      split
      · exact inv
      · rename_i known
        exact go Check.noConfusion known
  | itimeAgain =>
      have birth : w.itime job.node = w.born job.node := inv.facts.itime job.node checked
      have some_ : w.itime job.node ≠ 0 := checked
      simp only [tryAddMove]
      split
      · rename_i late
        refine inv.to pc trivial ⟨live, sorted, fun n missing => (self n missing).resolve_right ?_⟩
        rintro rfl
        have early : w.born job.node < (w.query tid).rqLinTime := missing.1.2.1
        omega
      · rename_i early
        have born : w.born job.node ≠ 0 ∧ w.born job.node < (w.query tid).rqLinTime :=
          ⟨by omega, by omega⟩
        split
        · rename_i traversed
          exact inv.add pc live sorted ⟨born.1, born.2, (live.during _ (found traversed)).2⟩ self
        · exact go Check.noConfusion born
  | dtime =>
      simp only [tryAddMove]
      split
      · exact go Check.noConfusion checked
      · rename_i known
        exact inv.decideDtime pc live sorted checked known self
  | source =>
      simp only [tryAddMove]
      split
      · exact go Check.noConfusion checked
      · rename_i otherTid i from_
        split
        · exact go Check.noConfusion checked
        · rename_i gone
          refine inv.to pc trivial ⟨live, sorted, ⟨checked, found, origin⟩,
            fun n missing => .inl ?_⟩
          rcases missed n missing with ahead | ⟨rfl, _, source⟩
          · exact ahead
          · exact (gone (source otherTid i from_).2.2.2).elim
  | dtimeLoop =>
      simp only [tryAddMove]
      split
      · exact go Check.noConfusion checked
      · rename_i known
        exact inv.decideDtime pc live sorted checked known self
  | dtimeLast =>
      simp only [tryAddMove]
      split
      · exact inv.to pc trivial ⟨live, sorted, fun n missing => (missed n missing).resolve_right
          fun finds => finds.2.1 rfl⟩
      · rename_i known
        exact inv.decideDtime pc live sorted checked known self
  | dtimeWait =>
      simp only [tryAddMove]
      split
      · exact inv
      · rename_i known
        exact inv.decideDtime pc live sorted checked known self

-- What a thread has deleted and not yet retired, it announces.
theorem Inv.announced {v : T} {node : N} (owed : node ∈ (w.pc v).owes) :
    ∃ j < w.numAnnouncements v, w.announcements v j = some node := by
  have posted {u : Update A V N} (posted : u.Posted (w.numAnnouncements v) (w.announcements v))
    (member : node ∈ u.deletedNodes) :
      ∃ j < w.numAnnouncements v, w.announcements v j = some node := by
    obtain ⟨j, below, here⟩ := List.getElem_of_mem member
    refine ⟨j, by rw [posted.1]; exact below, ?_⟩
    rw [posted.2 j below, List.getElem?_eq_getElem below, here]
  have good := inv.threads v
  cases place : w.pc v with
  | idle | query => rw [place] at owed; cases owed
  | update u stage =>
      rw [place] at owed good
      cases stage with
      | announce | announceSize | readLock | readTime | linearize | succeeded | failed => cases owed
      | readUnlock ts done =>
          cases done with
          | true => exact posted good.1.1 owed
          | false => cases owed
      | setInsertionTimestamps ts rest => exact posted good.1.1 owed
      | setDeletionTimestamps ts rest => exact posted good.1.1 owed
      | retire rest => exact posted good.1.1 (good.2 owed)

-- The deleter of a node that the query misses is another thread.
omit [DecidableEq T] inv in
theorem Live.killed {s : Shared T N} {t : T} {lo hi : K} {q : Query T N K}
    (live : Live config s t lo hi q) {node : N} (missing : Missing config s lo hi q node)
    (dead : s.died node ≠ 0) :
    ∃ v, v ≠ t ∧ s.killer node = some v ∧ (node ∈ s.owes v ∨ node ∈ q.limbo v) := by
  have late := missing.1.2.2.resolve_left dead
  exact live.debt node late

omit [LinearOrder K] inv in
theorem mem_others {config : Config T N K} {t v : T} (apart : v ≠ t) : v ∈ config.others t :=
  List.mem_filter.mpr ⟨config.all v, by simpa using apart⟩

-- The bag is ordered: behind a node deleted before the query there are only such nodes.
theorem Inv.scanNode {lo hi : K} {node : N} {bag : List N} {rest : List (List N)}
    {after : World A V T N K}
    (pc : w.pc tid = .query lo hi (.place (.scan ((node :: bag) :: rest))))
    (live : Live config w.shared tid lo hi (w.query tid))
    (sorted : (Place.scan ((node :: bag) :: rest) : Place T N).Sorted w.shared)
    (missed : ∀ n, Missing config w.shared lo hi (w.query tid) n →
      (Place.scan ((node :: bag) :: rest)).Where w.shared (w.query tid) n)
    (moved : placeMove config w tid lo hi (.scan ((node :: bag) :: rest)) = some after) :
    Inv config after := by
  have first := sorted (node :: bag) List.mem_cons_self
  have tail : (Place.scan (bag :: rest) : Place T N).Sorted w.shared := by
    intro other member
    rcases List.mem_cons.mp member with rfl | later
    · exact ⟨fun n inside => first.1 n (List.mem_cons_of_mem _ inside),
        (List.pairwise_cons.mp first.2).2⟩
    · exact sorted other (List.mem_cons_of_mem _ later)
  have split_ (n : N) (missing : Missing config w.shared lo hi (w.query tid) n) :
      n = node ∨ (Place.scan (bag :: rest)).Where w.shared (w.query tid) n := by
    obtain ⟨dead, other, member, inside⟩ := missed n missing
    rcases List.mem_cons.mp member with rfl | later
    · rcases List.mem_cons.mp inside with self | behind
      · exact .inl self
      · exact .inr ⟨dead, bag, List.mem_cons_self, behind⟩
    · exact .inr ⟨dead, other, List.mem_cons_of_mem _ later, inside⟩
  simp only [placeMove] at moved
  split at moved
  · rename_i late
    cases moved
    refine inv.to pc trivial ⟨live, tail, fun n missing => (split_ n missing).resolve_left ?_⟩
    rintro rfl
    have died := inv.facts.dtime n late.1
    have bound : w.died n ≤ (w.query tid).endTimestamp := (missed n missing).1.2
    omega
  · split at moved <;> cases moved
    · rename_i early
      have died := inv.facts.dtime node early.1
      refine inv.to pc trivial ⟨live, fun other member => sorted other
        (List.mem_cons_of_mem _ member), fun n missing => ?_⟩
      obtain ⟨dead, other, member, inside⟩ := missed n missing
      rcases List.mem_cons.mp member with rfl | later
      · have late : (w.query tid).rqLinTime ≤ w.died n := missing.1.2.2.resolve_left dead.1
        have older : w.died n ≤ w.died node := by
          rcases List.mem_cons.mp inside with rfl | behind
          · exact Nat.le_refl _
          · exact (List.pairwise_cons.mp first.2).1 n behind
        omega
      · exact ⟨dead, other, later, inside⟩
    · refine inv.to pc trivial ⟨live, tail, ⟨trivial, nofun, nofun⟩, fun n missing => ?_⟩
      rcases split_ n missing with self | ahead
      · exact .inr ⟨self, nofun, nofun⟩
      · exact .inl ahead

theorem Inv.place {lo hi : K} {place : Place T N} {after : World A V T N K}
    (pc : w.pc tid = .query lo hi (.place place))
    (moved : placeMove config w tid lo hi place = some after) : Inv config after := by
  have ok := inv.queries tid
  rw [pc] at ok
  obtain ⟨live, sorted, missed⟩ := ok
  cases place with
  | traversal => cases moved
  | sizes others =>
      cases others with
      | nil =>
          cases moved
          refine inv.to pc trivial ⟨live, nofun, fun n missing => ?_⟩
          obtain ⟨dead, v, killer, ahead | retired⟩ := missed n missing
          · cases ahead
          · obtain ⟨v', apart, killer', _⟩ := live.killed missing dead.1
            cases killer.symm.trans killer'
            exact ⟨dead, .inl ⟨v, killer, mem_others apart, retired⟩⟩
      | cons otherTid others =>
          cases moved
          refine inv.to pc trivial ⟨live, trivial, fun n missing => ?_⟩
          obtain ⟨dead, v, killer, ahead | retired⟩ := missed n missing
          · rcases List.mem_cons.mp ahead with rfl | behind
            · obtain ⟨v', _, killer', owed | retired⟩ := live.killed missing dead.1
              · cases killer.symm.trans killer'
                obtain ⟨j, below, slot⟩ := inv.announced owed
                exact ⟨dead, v, killer, .inr (.inr ⟨rfl, owed, j, Nat.zero_le j, below, slot⟩)⟩
              · cases killer.symm.trans killer'
                exact ⟨dead, v, killer, .inr (.inl retired)⟩
            · exact ⟨dead, v, killer, .inl behind⟩
          · exact ⟨dead, v, killer, .inr (.inl retired)⟩
  | slots otherTid i sz others =>
      simp only [placeMove] at moved
      split at moved
      · obtain ⟨node, slot, rfl⟩ := Option.map_eq_some_iff.mp moved
        refine inv.to pc trivial ⟨live, trivial, ⟨trivial, nofun, fun o j same => ?_⟩,
          fun n missing => ?_⟩
        · cases same
          exact ⟨sz, others, rfl⟩
        · obtain ⟨dead, v, killer, ahead | retired | ⟨rfl, owed, j, low, high, here⟩⟩ :=
            missed n missing
          · exact .inl ⟨dead, v, killer, .inl ahead⟩
          · exact .inl ⟨dead, v, killer, .inr (.inl retired)⟩
          · by_cases self : j = i
            · have here : w.announcements v j = some n := here
              rw [self, slot] at here
              cases here
              refine .inr ⟨rfl, nofun, fun o k same => ?_⟩
              cases same
              exact ⟨dead, killer, owed, slot⟩
            · exact .inl ⟨dead, v, killer, .inr (.inr ⟨rfl, owed, j, by omega, high, here⟩)⟩
      · rename_i ended
        cases moved
        refine inv.to pc trivial ⟨live, trivial, fun n missing => ?_⟩
        obtain ⟨dead, v, killer, ahead | retired | ⟨_, _, j, low, high, _⟩⟩ := missed n missing
        · exact ⟨dead, v, killer, .inl ahead⟩
        · exact ⟨dead, v, killer, .inr retired⟩
        · omega
  | bags others allBags =>
      cases others with
      | nil =>
          cases moved
          refine inv.to pc trivial ⟨live, sorted, fun n missing => ?_⟩
          obtain ⟨dead, ⟨v, _, ahead, _⟩ | bag⟩ := missed n missing
          · cases ahead
          · exact ⟨dead, bag⟩
      | cons otherTid others => cases moved
  | scan allBags =>
      cases allBags with
      | nil =>
          cases moved
          refine inv.to pc trivial ⟨live, fun n missing => ?_⟩
          obtain ⟨_, bag, member, _⟩ := missed n missing
          cases member
      | cons bag rest =>
          cases bag with
          | nil =>
              cases moved
              refine inv.to pc trivial ⟨live,
                fun bag member => sorted bag (List.mem_cons_of_mem _ member), fun n missing => ?_⟩
              obtain ⟨dead, bag, member, inside⟩ := missed n missing
              rcases List.mem_cons.mp member with rfl | later
              · cases inside
              · exact ⟨dead, bag, later, inside⟩
          | cons node bag => exact inv.scanNode pc live sorted missed moved

theorem Inv.query [DecidableEq N] {lo hi : K} {phase : Phase T N} {after : World A V T N K}
    (pc : w.pc tid = .query lo hi phase) (moved : queryMove config w tid lo hi phase = some after) :
    Inv config after := by
  have good := inv.threads tid
  have ok := inv.queries tid
  rw [pc] at good ok
  cases phase with
  | writeLock =>
      simp only [queryMove] at moved
      split at moved
      · rename_i writing
        cases moved
        exact inv.to pc writing trivial
      · exact inv.locking moved fun lockPc => by rw [pc]; exact ⟨good.1, trivial⟩
  | load =>
      cases moved
      exact inv.to pc ⟨good.2, rfl⟩ trivial
  | store ts =>
      cases moved
      exact inv.startQuery pc
  | writeUnlock =>
      simp only [queryMove] at moved
      split at moved
      · cases moved
        refine inv.to pc trivial ⟨ok.1, trivial, fun n _ => ?_⟩
        show n ∉ (w.query tid).presented
        rw [ok.2]
        exact List.not_mem_nil
      · exact inv.locking moved fun lockPc => by rw [pc]; exact ⟨good.1, trivial⟩
  | place place => exact inv.place pc moved
  | tryAdd check job place =>
      cases moved
      exact inv.tryAdd pc
  | finished => cases moved

theorem Inv.visit [DecidableEq N] {lo hi : K} {node : N}
    (pc : w.pc tid = .query lo hi (.place .traversal)) (seen : node ∈ (w.query tid).during) :
    Inv config ((w.setQuery tid
      { w.query tid with presented := node :: (w.query tid).presented }).goto tid
      (.query lo hi (.tryAdd .itime ⟨node, none, true⟩ .traversal))) := by
  have ok := inv.queries tid
  rw [pc] at ok
  obtain ⟨live, _, missed⟩ := ok
  refine inv.reach pc (by trivial)
    ⟨⟨live.positive, live.past, live.snapshot, live.during, live.throughout, live.debt, live.sound,
    live.nodup⟩,
    trivial, ⟨trivial, fun _ => seen, nofun⟩, fun n missing => ?_⟩
  by_cases self : n = node
  · exact .inr ⟨self, nofun, nofun⟩
  · refine .inl fun member => ?_
    rcases List.mem_cons.mp member with same | old
    · exact self same
    · exact missed n missing old

theorem Inv.endTraversal {lo hi : K} (pc : w.pc tid = .query lo hi (.place .traversal))
    (complete : ∀ node ∈ (w.query tid).throughout, config.InRange lo hi node →
      node ∈ (w.query tid).presented) :
    Inv config ((w.setQuery tid { w.query tid with endTimestamp := w.timestamp }).goto tid
      (.query lo hi (.place (.sizes (config.others tid))))) := by
  have ok := inv.queries tid
  rw [pc] at ok
  obtain ⟨live, _, missed⟩ := ok
  refine inv.reach pc (by trivial)
    ⟨⟨live.positive, live.past, live.snapshot, live.during, live.throughout, live.debt, live.sound,
    live.nodup⟩,
    trivial, fun n missing => ?_⟩
  have before : Missing config w.shared lo hi (w.query tid) n := missing
  have dead : w.died n ≠ 0 := by
    rcases live.throughout n before.1 with stayed | dead
    · obtain ⟨key, member, low, high, _⟩ := before.2
      exact (missed n before (complete n stayed ⟨key, member, low, high⟩)).elim
    · exact dead
  obtain ⟨v, apart, killer, _⟩ := live.killed before dead
  exact ⟨⟨dead, inv.facts.diedLe n⟩, v, killer, .inl (mem_others apart)⟩

theorem Inv.getBags {lo hi : K} {otherTid : T} {others : List T} {allBags bags : List (List N)}
    (pc : w.pc tid = .query lo hi (.place (.bags (otherTid :: others) allBags)))
    (listed : ∀ bag ∈ bags, bag.Sublist (w.retired otherTid))
    (complete : ∀ node ∈ (w.query tid).limbo otherTid, ∃ bag ∈ bags, node ∈ bag) :
    Inv config (w.goto tid (.query lo hi (.place (.bags others (allBags ++ bags))))) := by
  have ok := inv.queries tid
  rw [pc] at ok
  obtain ⟨live, sorted, missed⟩ := ok
  refine inv.to pc trivial ⟨live, fun bag member => ?_, fun n missing => ?_⟩
  · rcases List.mem_append.mp member with old | new
    · exact sorted bag old
    · have all := inv.facts.retired otherTid
      exact ⟨fun n inside => all.1 n ((listed bag new).subset inside),
        all.2.sublist (listed bag new)⟩
  · obtain ⟨dead, ⟨v, killer, ahead, retired⟩ | ⟨bag, member, inside⟩⟩ := missed n missing
    · rcases List.mem_cons.mp ahead with rfl | behind
      · obtain ⟨bag, member, inside⟩ := complete n retired
        exact ⟨dead, .inr ⟨bag, List.mem_append_right _ member, inside⟩⟩
      · exact ⟨dead, .inl ⟨v, killer, behind, retired⟩⟩
    · exact ⟨dead, .inr ⟨bag, List.mem_append_left _ member, inside⟩⟩

end Steps

theorem initial_inv (config : Config T N K) (mem : A → V) : Inv config (initial mem) where
  lock := RwLock.initial_inv
  facts := ⟨Nat.one_pos, fun _ => ⟨nofun, fun alive => (alive.1 rfl).elim⟩, fun _ _ => rfl,
    fun _ => Nat.zero_le _, fun _ => Nat.zero_le _,
    fun _ some_ => (some_ rfl).elim, fun _ some_ => (some_ rfl).elim, fun _ =>
      ⟨nofun, List.Pairwise.nil⟩, nofun⟩
  threads := fun _ => rfl
  queries := fun _ => trivial

variable [DecidableEq A] [DecidableEq V] [DecidableEq N]

theorem step_inv (config : Config T N K) (before : World A V T N K) (event : Event A V T N K)
    (after : World A V T N K) (inv : Inv config before) (_ : free before event)
    (stepped : step config before event = some after) : Inv config after := by
  cases event with
  | update tid u =>
      simp only [step] at stepped
      split at stepped <;> cases stepped
      rename_i pc
      have good := inv.threads tid
      rw [pc] at good
      exact inv.goto (by rw [pc]; rfl) ⟨⟨good, fun _ below => absurd below (Nat.not_lt_zero _)⟩,
        trivial⟩ trivial
  | traversalStart tid lo hi =>
      simp only [step] at stepped
      split at stepped <;> cases stepped
      rename_i pc
      have good := inv.threads tid
      rw [pc] at good
      exact inv.goto (by rw [pc]; rfl) ⟨good, trivial⟩ trivial
  | traversalTryAdd tid node =>
      simp only [step] at stepped
      split at stepped
      · rename_i pc
        obtain ⟨seen, ⟨⟩⟩ := Option.ite_none_right_eq_some.mp stepped
        exact inv.visit pc seen
      · cases stepped
  | traversalEnd tid =>
      simp only [step] at stepped
      split at stepped
      · rename_i pc
        obtain ⟨complete, ⟨⟩⟩ := Option.ite_none_right_eq_some.mp stepped
        exact inv.endTraversal pc complete
      · cases stepped
  | getSafeBlockbags tid bags =>
      simp only [step] at stepped
      split at stepped
      · rename_i pc
        obtain ⟨⟨listed, complete⟩, ⟨⟩⟩ := Option.ite_none_right_eq_some.mp stepped
        exact inv.getBags pc listed complete
      · cases stepped
  | finish tid =>
      simp only [step] at stepped
      split at stepped <;> cases stepped
      rename_i pc
      have good := inv.threads tid
      rw [pc] at good
      exact inv.goto (by rw [pc]; rfl) good.1 trivial
  | move tid =>
      simp only [step, move] at stepped
      split at stepped
      · cases stepped
      · rename_i pc
        exact inv.update pc stepped
      · rename_i pc
        exact inv.query pc stepped

/-- When a range query of any thread ends, in any run of updates and queries, it has reported
the keys in its range of the nodes that were in the structure when it wrote the timestamp,
each of them once. -/
theorem range_query_atomic {config : Config T N K} {mem : A → V} {events : List (Event A V T N K)}
    {w : World A V T N K} (run : Run (step config) free (initial mem) events w) {t : T}
    {lo hi : K} (done : w.pc t = .query lo hi .finished) :
    (∀ key, key ∈ (w.query t).results ↔ ∃ node ∈ (w.query t).snapshot, key ∈ config.getKeys node ∧
      lo ≤ key ∧ key ≤ hi)
      ∧ (w.query t).results.Nodup := by
  have inv : Inv config w :=
    run_invariant (Inv config) (initial_inv config mem) (step_inv config) run
  have ok := inv.queries t
  rw [done] at ok
  obtain ⟨live, complete⟩ := ok
  refine ⟨fun key => ⟨fun member => ?_, ?_⟩, live.nodup⟩
  · obtain ⟨node, snap, rest⟩ := live.sound key member
    exact ⟨node, (live.snapshot node).mpr snap, rest⟩
  · rintro ⟨node, inside, member, low, high⟩
    by_contra absent
    exact complete node ⟨(live.snapshot node).mp inside, key, member, low, high, absent⟩

-- Each node has one key, ten times its name.
def tens : Config (Fin 2) Nat Nat :=
  ⟨[0, 1], by decide, by decide, fun node => [10 * node], fun _ => List.nodup_singleton _⟩

def moves (tid : Fin 2) (count : Nat) : List (Event Unit Nat (Fin 2) Nat Nat) :=
  List.replicate count (.move tid)

-- Thread 0 inserts 1 and 2, thread 1 starts a query of 10 to 30, thread 0 puts 3 in the place of
-- 1, and the query meets 2 and 3 in its traversal and 1 in the announcements of thread 0, which
-- sets the dtime of 1 while the query waits for it.
def replacedDuringQuery : List (Event Unit Nat (Fin 2) Nat Nat) :=
  [[.update 0 ⟨(), none, 1, [1, 2], []⟩], moves 0 17, [.traversalStart 1 10 30], moves 1 9,
    [.update 0 ⟨(), some 1, 2, [3], [1]⟩], moves 0 14,
    [.traversalTryAdd 1 2], moves 1 2, [.traversalTryAdd 1 3], moves 1 2, [.traversalEnd 1],
      moves 1 6, moves 0 1, moves 1 3,
    [.getSafeBlockbags 1 []], moves 1 2].flatten

theorem replaced_node_reported :
    ∃ w, Run (step tens) free (initial fun _ => 0) replacedDuringQuery w ∧ w.nodes = [3, 2]
    ∧ (w.query 1).results = [20, 10] ∧ ∀ key, key ∈ [20, 10] ↔
      ∃ node ∈ [1, 2], key ∈ tens.getKeys node ∧ 10 ≤ key ∧ key ≤ 30 := by
  have replayed : (replay (step tens) free replacedDuringQuery (initial fun _ => 0)).map (fun w =>
      (decide (w.pc 1 = .query 10 30 .finished), w.nodes, (w.query 1).results,
        (w.query 1).snapshot)) = some (true, [3, 2], [20, 10], [1, 2]) := by
    decide +kernel
  obtain ⟨w, same, values⟩ := Option.map_eq_some_iff.mp replayed
  simp only [Prod.mk.injEq, decide_eq_true_eq] at values
  obtain ⟨done, nodes, results, snapshot⟩ := values
  have run := run_of_replay replacedDuringQuery same
  have reported := (range_query_atomic run done).1
  rw [results, snapshot] at reported
  exact ⟨w, run, nodes, results, reported⟩

end SetBench.RangeQuery
