import SetBench.AbPersistInv

/-! Every step keeps the invariant, and so does every run. -/
namespace SetBench.AbPersist

open Transition

variable {degree : Nat} {w after : World} {tid : Nat}

theorem Pc.ReadOk.kept {pc : Pc} (ok : pc.ReadOk w) (fresh : w.fresh ≤ after.fresh)
    (version : ∀ n, w.version n ≤ after.version n)
    (same : ∀ c, c.node < w.fresh → c.isSlot = false → after.version c.node % 2 = 0 →
      after.version c.node = w.version c.node → after.mem c = w.mem c) : pc.ReadOk after := by
  cases pc with
  | idle => trivial
  | walk job parent n => exact ⟨ok.1.trans_le fresh, ok.2.trans_le fresh⟩
  | version job parent n => exact ⟨ok.1.trans_le fresh, ok.2.trans_le fresh⟩
  | keys job parent n ver idx =>
      obtain ⟨one, two, even, old⟩ := ok
      exact ⟨one.trans_le fresh, two.trans_le fresh, even, old.trans (version n)⟩
  | value job parent n ver idx =>
      obtain ⟨one, two, even, old, read⟩ := ok
      refine ⟨one.trans_le fresh, two.trans_le fresh, even, old.trans (version n), fun now => ?_⟩
      have before := version n
      have still : w.version n = ver := by omega
      rw [same (.key n idx) two rfl (by rw [← now] at even; exact even) (now.trans still.symm)]
      exact read still
  | check job parent n ver found =>
      obtain ⟨one, two, even, old, read⟩ := ok
      refine ⟨one.trans_le fresh, two.trans_le fresh, even, old.trans (version n),
        fun idx v here now => ?_⟩
      have before := version n
      have still : w.version n = ver := by omega
      rw [← now] at even
      rw [same (.key n idx) two rfl even (now.trans still.symm),
        same (.val n idx) two rfl even (now.trans still.symm)]
      exact read idx v here still
  | lockLeaf job parent n => exact ⟨ok.1.trans_le fresh, ok.2.trans_le fresh⟩
  | scan job parent n idx => exact ⟨ok.1.trans_le fresh, ok.2.trans_le fresh⟩
  | empty k v parent n idx => exact ⟨ok.1.trans_le fresh, ok.2.trans_le fresh⟩
  | lockParent g i also => exact ⟨ok.1.trans_le fresh, fun n here => (ok.2 n here).trans_le fresh⟩
  | make g i also =>
      exact ⟨ok.1.trans_le fresh, ok.2.1, fun n here => (ok.2.2 n here).trans_le fresh⟩
  | run rest => exact fun n here => (ok n here).trans_le fresh

/-- A thread does not notice a step that leaves its own locks, stores and flushes alone,
and that writes keys and values only where the version has moved or is odd. -/
theorem Thread.kept {t : Nat} {pc : Pc} (thread : Thread w t pc) (fresh : w.fresh ≤ after.fresh)
    (lock : ∀ n, after.lock n = some t ↔ w.lock n = some t)
    (unflushed : after.unflushed t = w.unflushed t) (pending : after.pending t = w.pending t)
    (version : ∀ n, w.version n ≤ after.version n)
    (own : ∀ n, w.lock n = some t → after.version n = w.version n)
    (same : ∀ c, c.node < w.fresh → c.isSlot = false → after.version c.node % 2 = 0 →
      after.version c.node = w.version c.node → after.mem c = w.mem c) : Thread after t pc := by
  refine ⟨fun n held => (lock n).mpr (thread.holds n held), ?_, ?_, ?_,
    thread.reads.kept fresh version same⟩
  · intro rest here
    rw [unflushed, pending]
    exact (thread.well rest here).mono fresh
  · intro other
    rw [unflushed, pending]
    exact thread.quiet other
  · intro n held
    have held := (lock n).mp held
    rw [own n held]
    exact thread.parity n held

/-- After a change of the shared state, the thread that made it goes on. -/
theorem Inv.goto {pc : Pc} (shared : Shared after)
    (others : ∀ t, t ≠ tid → Thread after t (after.pc t)) (mine : Thread after tid pc) :
    Inv (after.goto tid pc) where
  settled := shared.settled
  current := shared.current
  guarded := shared.guarded
  free := shared.free
  odd := shared.odd
  valid := shared.valid
  unused := shared.unused
  born := shared.born
  threads := by
    intro t
    have view (p : Pc) (thread : Thread after t p) : Thread (after.goto tid pc) t p := by
      refine ⟨thread.holds, thread.well, thread.quiet, thread.parity, ?_⟩
      exact thread.reads.kept le_rfl (fun _ => le_rfl) (fun _ _ _ _ _ => rfl)
    by_cases same : t = tid
    · subst same
      have here : (after.goto t pc).pc t = pc := Function.update_self ..
      rw [here]
      exact view pc mine
    · have there : (after.goto tid pc).pc t = after.pc t := Function.update_of_ne same ..
      rw [there]
      exact view _ (others t same)

theorem Inv.moved (inv : Inv w) {pc : Pc} (mine : Thread w tid pc) : Inv (w.goto tid pc) :=
  Inv.goto inv.toShared (fun t _ => inv.threads t) mine

/-! The actions under the locks, from a thread at `run (act :: rest)`. -/

section Acts

variable {rest : List Act}

-- Two threads do not hold one node.
theorem Shared.apart (shared : Shared w) {t : Nat} (other : t ≠ tid) {n : Nat}
    (lock : w.lock n = some tid) {c : Cell} (member : c ∈ owed w t) : c.node ≠ n := by
  intro same
  have held := shared.guarded t c member
  rw [same, lock] at held
  exact other (Option.some.inj held).symm

-- What the locks of the remaining actions are.
theorem Thread.run_lock {act : Act} (mine : Thread w tid (.run (act :: rest))) {n : Nat}
    (later : .unlock n ∈ rest) :
    w.lock n = some tid :=
  mine.holds n (List.mem_cons_of_mem _ later)

theorem Inv.bump (inv : Inv w) {n : Nat} (here : w.pc tid = .run (.bump n :: rest)) :
    Inv ((w.act tid (.bump n)).goto tid (.run rest)) := by
  have mine := inv.threads tid
  rw [here] at mine
  obtain ⟨values, later, well⟩ := mine.well _ rfl
  have lock := mine.run_lock later
  have moved : (w.act tid (.bump n)).version n = w.version n + 1 := Function.update_self ..
  have stays {m : Nat} (other : m ≠ n) : (w.act tid (.bump n)).version m = w.version m :=
    Function.update_of_ne other ..
  have grows (m : Nat) : w.version m ≤ (w.act tid (.bump n)).version m := by
    by_cases same : m = n
    · rw [same, moved]
      exact Nat.le_succ _
    · exact (stays same).ge
  have notMine {t m : Nat} (other : t ≠ tid) (held : w.lock m = some t) : m ≠ n := by
    intro same
    rw [same, lock] at held
    exact other (Option.some.inj held).symm
  refine Inv.goto ⟨inv.settled, inv.current, inv.guarded, ?_, ?_, inv.valid, ?_, inv.born⟩
    (fun t other => ?_) ⟨?_, ?_, ?_, ?_, ?_⟩
  · intro m unlocked
    have other : m ≠ n := by
      intro same
      rw [same] at unlocked
      exact nomatch lock.symm.trans unlocked
    rw [stays other]
    exact inv.free m unlocked
  · intro t m i member
    have other : m ≠ n := by
      intro same
      by_cases owner : t = tid
      · rw [owner] at member
        exact nomatch values _ member
      · exact inv.apart owner lock member same
    rw [stays other]
    exact inv.odd t m i member
  · intro m far
    have other : m ≠ n := by
      intro same
      have empty := (inv.unused m far).1
      rw [same] at empty
      exact nomatch lock.symm.trans empty
    exact ⟨(inv.unused m far).1, (stays other).trans (inv.unused m far).2⟩
  · exact (inv.threads t).kept le_rfl (fun _ => Iff.rfl) rfl rfl grows
      (fun m held => stays (notMine other held))
      (fun _ _ _ _ _ => rfl)
  · exact fun m held => mine.run_lock held
  · rintro _ ⟨⟩
    exact well
  · intro not
    exact absurd rfl (not rest)
  · intro m held
    have before := mine.parity m held
    by_cases same : m = n
    · subst same
      rw [moved]
      simp only [Pc.bumps, List.count_cons_self] at before ⊢
      omega
    · rw [stays same]
      have count : (Act.bump n :: rest).count (.bump m) = rest.count (.bump m) := by
        refine List.count_cons_of_ne ?_
        intro equal
        exact same (Act.bump.inj equal).symm
      simp only [Pc.bumps, count] at before ⊢
      exact before
  · exact fun m held => mine.reads m (List.mem_cons_of_mem _ held)

-- An action other than a bump leaves its thread at the rest.
theorem Thread.next {act : Act} (mine : Thread w tid (.run (act :: rest)))
    (still : ∀ n, act ≠ .bump n) (locked : ∀ n, .unlock n ∈ rest → after.lock n = some tid)
    (held : ∀ n, after.lock n = some tid → w.lock n = some tid)
    (version : after.version = w.version) (fresh : after.fresh = w.fresh)
    (well : Well w.fresh rest (after.unflushed tid) ((after.pending tid).map Prod.fst)) :
    Thread after tid (.run rest) := by
  refine ⟨locked, ?_, fun not => absurd rfl (not rest), ?_, ?_⟩
  · rintro _ ⟨⟩
    rw [fresh]
    exact well
  · intro n lock
    have before := mine.parity n (held n lock)
    have count : (act :: rest).count (.bump n) = rest.count (.bump n) :=
      List.count_cons_of_ne (still n)
    simp only [Pc.bumps, count] at before ⊢
    rw [version]
    exact before
  · intro n member
    rw [fresh]
    exact mine.reads n (List.mem_cons_of_mem _ member)

theorem Inv.store (inv : Inv w) {c : Cell} {x : Word}
    (here : w.pc tid = .run (.store c x :: rest)) :
    Inv ((w.act tid (.store c x)).goto tid (.run rest)) := by
  have mine := inv.threads tid
  rw [here] at mine
  obtain ⟨unmarked, later, window, inside, well⟩ := mine.well _ rfl
  have lock := mine.run_lock later
  -- keys and values are stored between the two bumps
  have odd (word : c.isSlot = false) : w.version c.node % 2 = 1 := by
    have parity := mine.parity c.node lock
    have count : (Act.store c x :: rest).count (.bump c.node) = rest.count (.bump c.node) :=
      List.count_cons_of_ne (by simp)
    have left := window word
    simp only [Pc.bumps, count] at parity
    omega
  have stays {d : Cell} (other : d ≠ c) : (w.act tid (.store c x)).mem d = w.mem d :=
    Function.update_of_ne other ..
  have own : owed (w.act tid (.store c x)) tid = c :: owed w tid := by
    simp [owed, World.act]
  have foreign {t : Nat} (other : t ≠ tid) : owed (w.act tid (.store c x)) t = owed w t := by
    simp [owed, World.act, other]
  refine Inv.goto ⟨?_, ?_, ?_, inv.free, ?_, ?_, inv.unused, inv.born⟩ (fun t other => ?_)
    (mine.next (by simp) ?_ (fun _ => id) rfl rfl ?_)
  · intro d clear
    have other : d ≠ c := by
      intro same
      refine clear tid ?_
      rw [own, same]
      exact List.mem_cons_self
    rw [stays other]
    refine inv.settled d fun t member => clear t ?_
    by_cases same : t = tid
    · rw [same, own]
      exact List.mem_cons_of_mem _ (same ▸ member)
    · rw [foreign same]
      exact member
  · intro t d y member
    have other : d ≠ c := by
      intro same
      by_cases owner : t = tid
      · rw [owner, same] at member
        exact unmarked (List.mem_map_of_mem member)
      · refine inv.apart owner lock ?_ (congrArg Cell.node same)
        exact List.mem_append_right _ (List.mem_map_of_mem member)
    rw [stays other]
    exact inv.current t d y member
  · intro t d member
    by_cases same : t = tid
    · rw [same, own, List.mem_cons] at member
      rcases member with rfl | member
      · rw [same]
        exact lock
      · rw [same]
        exact inv.guarded tid d member
    · rw [foreign same] at member
      exact inv.guarded t d member
  · intro t n i member
    by_cases same : t = tid
    · rw [same, own, List.mem_cons] at member
      rcases member with rfl | member
      · exact odd rfl
      · exact inv.odd tid n i member
    · rw [foreign same] at member
      exact inv.odd t n i member
  · intro n less i
    by_cases same : Cell.slot n i = c
    · subst same
      have now : (w.act tid (.store (.slot n i) x)).mem (.slot n i) = x := Function.update_self ..
      rw [now]
      exact inside rfl
    · rw [stays same]
      exact inv.valid n less i
  · have unflushed : (w.act tid (.store c x)).unflushed t = w.unflushed t :=
      Function.update_of_ne other ..
    refine (inv.threads t).kept le_rfl (fun _ => Iff.rfl) unflushed rfl (fun _ => le_rfl)
      (fun _ _ => rfl) ?_
    intro d _ word even _
    refine stays fun same => ?_
    subst same
    have busy := odd word
    have even : w.version d.node % 2 = 0 := even
    omega
  · exact fun n member => mine.run_lock member
  · have unflushed : (w.act tid (.store c x)).unflushed tid = c :: w.unflushed tid :=
      Function.update_self ..
    rw [unflushed]
    exact well

theorem Inv.flush (inv : Inv w) {c : Cell} (here : w.pc tid = .run (.flush c :: rest)) :
    Inv ((w.act tid (.flush c)).goto tid (.run rest)) := by
  have mine := inv.threads tid
  rw [here] at mine
  obtain ⟨stored, later, well⟩ := mine.well _ rfl
  have pending : (w.act tid (.flush c)).pending tid = (c, w.mem c) :: w.pending tid :=
    Function.update_self ..
  have left : (w.act tid (.flush c)).unflushed tid = (w.unflushed tid).filter fun other =>
    other ≠ c :=
    Function.update_self ..
  -- flushing moves a word from one list to the other
  have same (t : Nat) (d : Cell) : d ∈ owed (w.act tid (.flush c)) t ↔ d ∈ owed w t := by
    by_cases owner : t = tid
    · subst owner
      unfold owed
      rw [pending, left]
      simp only [List.map_cons, List.mem_append, List.mem_filter, List.mem_cons, decide_eq_true_eq]
      by_cases equal : d = c
      · simp [equal, stored]
      · simp [equal]
    · simp [owed, World.act, owner]
  refine Inv.goto ⟨?_, ?_, ?_, inv.free, ?_, inv.valid, inv.unused, inv.born⟩ (fun t other => ?_)
    (mine.next (by simp) ?_ (fun _ => id) rfl rfl ?_)
  · intro d clear
    exact inv.settled d fun t member => clear t ((same t d).mpr member)
  · intro t d y member
    by_cases owner : t = tid
    · rw [owner, pending, List.mem_cons] at member
      rcases member with equal | member
      · cases equal
        rfl
      · exact inv.current tid d y member
    · have foreign : (w.act tid (.flush c)).pending t = w.pending t :=
        Function.update_of_ne owner ..
      rw [foreign] at member
      exact inv.current t d y member
  · exact fun t d member => inv.guarded t d ((same t d).mp member)
  · exact fun t n i member => inv.odd t n i ((same t _).mp member)
  · have foreign : (w.act tid (.flush c)).pending t = w.pending t := Function.update_of_ne other ..
    have unflushed : (w.act tid (.flush c)).unflushed t = w.unflushed t :=
      Function.update_of_ne other ..
    exact (inv.threads t).kept le_rfl (fun _ => Iff.rfl) unflushed foreign (fun _ => le_rfl)
      (fun _ _ => rfl)
      (fun _ _ _ _ _ => rfl)
  · exact fun n member => mine.run_lock member
  · rw [left, pending]
    exact well

-- Syncing flushed values, all of them current.
theorem synced {mem pmem : Cell → Word} {pending : List (Cell × Word)}
    (current : ∀ c x, (c, x) ∈ pending → x = mem c) (c : Cell) :
    pending.foldr (fun flushed pmem => Function.update pmem flushed.1 flushed.2) pmem c =
      if c ∈ pending.map Prod.fst then mem c else pmem c := by
  induction pending with
  | nil => rfl
  | cons flushed pending ih =>
      have ih := ih fun d x member => current d x (List.mem_cons_of_mem _ member)
      simp only [List.foldr_cons, List.map_cons, List.mem_cons]
      by_cases same : c = flushed.1
      · subst same
        rw [Function.update_self, if_pos (Or.inl rfl)]
        exact current flushed.1 flushed.2 List.mem_cons_self
      · rw [Function.update_of_ne same, ih]
        exact if_congr (or_iff_right same).symm rfl rfl

theorem Inv.sync (inv : Inv w) (here : w.pc tid = .run (.sync :: rest)) :
    Inv ((w.act tid .sync).goto tid (.run rest)) := by
  have mine := inv.threads tid
  rw [here] at mine
  have well : Well w.fresh rest (w.unflushed tid) [] := mine.well _ rfl
  have pending : (w.act tid .sync).pending tid = [] := Function.update_self ..
  have foreign {t : Nat} (other : t ≠ tid) : (w.act tid .sync).pending t = w.pending t :=
    Function.update_of_ne other ..
  have fewer (t : Nat) (d : Cell) (member : d ∈ owed (w.act tid .sync) t) : d ∈ owed w t := by
    by_cases owner : t = tid
    · subst owner
      unfold owed at member ⊢
      rw [pending, List.map_nil, List.append_nil] at member
      exact List.mem_append_left _ member
    · unfold owed at member ⊢
      rw [foreign owner] at member
      exact member
  refine Inv.goto ⟨?_, ?_, ?_, inv.free, ?_, inv.valid, inv.unused, inv.born⟩ (fun t other => ?_)
    (mine.next (by simp) ?_ (fun _ => id) rfl rfl ?_)
  · intro d clear
    refine (synced (inv.current tid) d).trans ?_
    split
    · rfl
    · rename_i unmarked
      refine inv.settled d fun t member => ?_
      by_cases owner : t = tid
      · subst owner
        refine clear t (List.mem_append_left _ ?_)
        exact (List.mem_append.mp member).resolve_right unmarked
      · refine clear t ?_
        unfold owed
        rw [foreign owner]
        exact member
  · intro t d y member
    by_cases owner : t = tid
    · rw [owner, pending] at member
      cases member
    · rw [foreign owner] at member
      exact inv.current t d y member
  · exact fun t d member => inv.guarded t d (fewer t d member)
  · exact fun t n i member => inv.odd t n i (fewer t _ member)
  · exact (inv.threads t).kept le_rfl (fun _ => Iff.rfl) rfl (foreign other) (fun _ => le_rfl)
      (fun _ _ => rfl)
      (fun _ _ _ _ _ => rfl)
  · exact fun n member => mine.run_lock member
  · rw [pending]
    exact well

theorem Inv.unlock (inv : Inv w) {n : Nat} (here : w.pc tid = .run (.unlock n :: rest)) :
    Inv ((w.act tid (.unlock n)).goto tid (.run rest)) := by
  have mine := inv.threads tid
  rw [here] at mine
  obtain ⟨gone, once, count, well⟩ := mine.well _ rfl
  have lock : w.lock n = some tid := mine.holds n List.mem_cons_self
  have opened : (w.act tid (.unlock n)).lock n = none := Function.update_self ..
  have stays {m : Nat} (other : m ≠ n) : (w.act tid (.unlock n)).lock m = w.lock m :=
    Function.update_of_ne other ..
  have held (t m : Nat) (now : (w.act tid (.unlock n)).lock m = some t) : w.lock m = some t := by
    have other : m ≠ n := by
      intro same
      rw [same, opened] at now
      cases now
    rw [← stays other]
    exact now
  refine Inv.goto ⟨inv.settled, inv.current, ?_, ?_, inv.odd, inv.valid, ?_, inv.born⟩
    (fun t other => ?_) (mine.next (by simp) ?_ (held tid) rfl rfl well)
  · intro t d member
    have before := inv.guarded t d member
    have other : d.node ≠ n := by
      by_cases owner : t = tid
      · subst owner
        exact gone d member
      · exact inv.apart owner lock member
    rw [stays other]
    exact before
  · intro m unlocked
    by_cases same : m = n
    · subst same
      have parity := mine.parity m lock
      have none_ : (Act.unlock m :: rest).count (.bump m) = 0 := by
        rw [List.count_cons_of_ne (by simp)]
        exact count
      simp only [Pc.bumps, none_] at parity
      exact parity
    · rw [stays same] at unlocked
      exact inv.free m unlocked
  · intro m far
    have empty := inv.unused m far
    have other : m ≠ n := by
      intro same
      rw [same] at empty
      exact nomatch lock.symm.trans empty.1
    exact ⟨(stays other).trans empty.1, empty.2⟩
  · refine (inv.threads t).kept le_rfl (fun m => ⟨held t m, fun before => ?_⟩) rfl rfl
      (fun _ => le_rfl) (fun _ _ => rfl)
      (fun _ _ _ _ _ => rfl)
    have apart : m ≠ n := by
      intro same
      rw [same, lock] at before
      exact other (Option.some.inj before).symm
    rw [stays apart]
    exact before
  · intro m member
    have other : m ≠ n := by
      intro same
      rw [same] at member
      exact once member
    rw [stays other]
    exact mine.run_lock member

theorem Inv.act (inv : Inv w) {act : Act} (here : w.pc tid = .run (act :: rest)) :
    Inv ((w.act tid act).goto tid (.run rest)) := by
  cases act with
  | bump n => exact inv.bump here
  | store c x => exact inv.store here
  | flush c => exact inv.flush here
  | sync => exact inv.sync here
  | unlock n => exact inv.unlock here

end Acts

/-! The steps without an action. -/

section Quiet

-- A thread off its writes owes nothing and has no bump to come.
theorem Thread.at {pc next : Pc} (mine : Thread w tid pc) (off : ∀ rest, pc ≠ .run rest)
    (held : ∀ n, next.holds n → pc.holds n) (stay : ∀ rest, next ≠ .run rest)
    (bumps : ∀ n, next.bumps n = pc.bumps n) (reads : next.ReadOk w) : Thread w tid next := by
  refine ⟨fun n here => mine.holds n (held n here), fun rest here => absurd here (stay rest),
    fun _ => mine.quiet off, ?_, reads⟩
  intro n lock
  rw [bumps]
  exact mine.parity n lock

theorem Thread.write {pc : Pc} {rest : List Act} (mine : Thread w tid pc)
    (off : ∀ rest, pc ≠ .run rest) (held : ∀ n, .unlock n ∈ rest → pc.holds n)
    (none_ : ∀ n, pc.bumps n = 0) (pairs : ∀ n, rest.count (.bump n) % 2 = 0)
    (well : Well w.fresh rest [] []) (inside : ∀ n, .unlock n ∈ rest → n < w.fresh) :
    Thread w tid (.run rest) := by
  obtain ⟨stored, flushed⟩ := mine.quiet off
  refine ⟨fun n here => mine.holds n (held n here), ?_, fun not => absurd rfl (not rest), ?_,
    inside⟩
  · rintro _ ⟨⟩
    rw [stored, flushed]
    exact well
  · intro n lock
    have parity := mine.parity n lock
    have pair := pairs n
    rw [none_] at parity
    simp only [Pc.bumps]
    omega

theorem Inv.acquire (inv : Inv w) {pc next : Pc} (here : w.pc tid = pc)
    (off : ∀ rest, pc ≠ .run rest) {n : Nat} (inside : n < w.fresh)
    (held : ∀ m, next.holds m → m = n ∨ pc.holds m) (stay : ∀ rest, next ≠ .run rest)
    (none_ : ∀ m, pc.bumps m = 0 ∧ next.bumps m = 0) (reads : w.lock n = none → next.ReadOk w)
    (stepped : w.acquire tid n next = some after) : Inv after := by
  have mine := inv.threads tid
  rw [here] at mine
  simp only [World.acquire] at stepped
  split at stepped
  · rename_i unlocked
    cases stepped
    set locked : World := { w with lock := Function.update w.lock n (some tid) } with def_
    have taken : locked.lock n = some tid := Function.update_self ..
    have stays {m : Nat} (other : m ≠ n) : locked.lock m = w.lock m :=
      Function.update_of_ne other ..
    have old {m t : Nat} (before : w.lock m = some t) : m ≠ n := by
      intro same
      rw [same, unlocked] at before
      cases before
    refine Inv.goto ⟨inv.settled, inv.current, ?_, ?_, inv.odd, inv.valid, ?_, inv.born⟩
      (fun t other => ?_) ⟨?_, ?_, ?_, ?_, ?_⟩
    · intro t c member
      have before := inv.guarded t c member
      rw [stays (old before)]
      exact before
    · intro m none_
      refine inv.free m ?_
      have other : m ≠ n := by
        intro same
        rw [same, taken] at none_
        cases none_
      rw [← stays other]
      exact none_
    · intro m far
      have other : m ≠ n := by
        intro same
        have far : w.fresh ≤ m := far
        omega
      exact ⟨(stays other).trans (inv.unused m far).1, (inv.unused m far).2⟩
    · refine (inv.threads t).kept le_rfl
        (fun m => ⟨fun now => ?_, fun before => (stays (old before)).trans before⟩)
        rfl rfl (fun _ => le_rfl) (fun _ _ => rfl) (fun _ _ _ _ _ => rfl)
      have apart : m ≠ n := by
        intro same
        rw [same, taken] at now
        exact other (Option.some.inj now).symm
      rw [← stays apart]
      exact now
    · intro m holds
      rcases held m holds with rfl | before
      · exact taken
      · have before := mine.holds m before
        rw [stays (old before)]
        exact before
    · exact fun rest equal => absurd equal (stay rest)
    · exact fun _ => mine.quiet off
    · intro m lock
      rw [(none_ m).2]
      by_cases same : m = n
      · rw [same]
        exact inv.free n unlocked
      · rw [stays same] at lock
        have parity := mine.parity m lock
        rw [(none_ m).1] at parity
        exact parity
    · exact (reads unlocked).kept le_rfl (fun _ => le_rfl) (fun _ _ _ _ _ => rfl)
  · cases stepped

theorem Thread.unlockOnly {job : Job} {parent : Nat × Nat} {n idx : Nat}
    (mine : Thread w tid (.scan job parent n idx)) (less : n < w.fresh) :
    Thread w tid (.run [.unlock n]) := by
  refine mine.write (by simp) ?_ (fun _ => rfl) (by simp) (by simp [Well]) ?_
  · simp [Pc.holds, eq_comm]
  · simp [less]

-- The writes of a leaf bump its version twice and no other.
theorem insertActs_even (k v n i m : Nat) : (insertActs k v n i).count (.bump m) % 2 = 0 := by
  by_cases same : n = m
  · simp [insertActs, same]
  · simp [insertActs, same]

theorem eraseActs_even (n i m : Nat) : (eraseActs n i).count (.bump m) % 2 = 0 := by
  by_cases same : n = m
  · simp [eraseActs, same]
  · simp [eraseActs, same]

theorem unlock_both {g n : Nat} {also : Option Nat} :
    Act.unlock n ∈ Act.unlock g :: (also.map Act.unlock).toList ↔ g = n ∨ also = some n := by
  cases also with
  | none => simp [eq_comm]
  | some m => simp [eq_comm]

theorem swingActs_unlock {g i target n : Nat} {also : Option Nat} :
    Act.unlock n ∈ swingActs g i target also ↔
      Act.unlock n ∈ Act.unlock g :: (also.map Act.unlock).toList := by
  simp [swingActs]

theorem build_old {nodes : List NewNode} {old : Cell → Word} {c : Cell} (less : c.node < w.fresh) :
    w.build nodes old c = old c := by
  unfold World.build
  rw [if_pos less]

/-- New nodes are persistent when they are made, and nobody knows them yet. -/
theorem Inv.make (inv : Inv w) {g i root : Nat} {also : Option Nat} {nodes : List NewNode}
    (here : w.pc tid = .make g i also) (new : root < w.fresh + nodes.length)
    (inside : ∀ node ∈ nodes, ∀ p ∈ node.slots, p < w.fresh + nodes.length) :
    Inv ({ w with
      mem := w.build nodes w.mem
      pmem := w.build nodes w.pmem
      fresh := w.fresh + nodes.length }.goto tid (.run (swingActs g i root also))) := by
  have mine := inv.threads tid
  rw [here] at mine
  obtain ⟨below, other, alsoBelow⟩ := mine.reads
  have grown : w.fresh ≤ w.fresh + nodes.length := Nat.le_add_right ..
  -- a locked node is an old one
  have old {c : Cell} {t : Nat} (member : c ∈ owed w t) : c.node < w.fresh := by
    by_contra far
    have unlocked := (inv.unused c.node (not_lt.mp far)).1
    exact nomatch (inv.guarded t c member).symm.trans unlocked
  set built : World := { w with
    mem := w.build nodes w.mem
    pmem := w.build nodes w.pmem
    fresh := w.fresh + nodes.length } with def_
  have frame (t : Nat) (p : Pc) (thread : Thread w t p) : Thread built t p :=
    thread.kept grown (fun _ => Iff.rfl) rfl rfl (fun _ => le_rfl) (fun _ _ => rfl)
      (fun _ less _ _ _ => build_old less)
  refine Inv.goto ⟨?_, ?_, inv.guarded, inv.free, inv.odd, ?_, ?_, inv.born.trans_le grown⟩
    (fun t _ => frame t _ (inv.threads t)) ?_
  · intro c clear
    have before : w.pmem c = w.mem c := inv.settled c clear
    show w.build nodes w.pmem c = w.build nodes w.mem c
    unfold World.build
    split
    · exact before
    · split
      · rfl
      · exact before
  · intro t c x member
    have before := inv.current t c x member
    have owing : c ∈ owed w t := List.mem_append_right _ (List.mem_map_of_mem member)
    exact before.trans (build_old (old owing)).symm
  · intro n less j
    show (w.build nodes w.mem (.slot n j)).value < w.fresh + nodes.length
    unfold World.build
    have less : n < w.fresh + nodes.length := less
    by_cases was : (Cell.slot n j).node < w.fresh
    · rw [if_pos was]
      exact (inv.valid n was j).trans_le grown
    · rw [if_neg was]
      have bound : n - w.fresh < nodes.length := by
        have was : ¬ n < w.fresh := was
        omega
      have found : nodes[(Cell.slot n j).node - w.fresh]? = some nodes[n - w.fresh] :=
        List.getElem?_eq_getElem bound
      rw [found]
      show (nodes[n - w.fresh].slots.getD j entry) < w.fresh + nodes.length
      by_cases within : j < nodes[n - w.fresh].slots.length
      · rw [List.getD_eq_getElem?_getD, List.getElem?_eq_getElem within]
        exact inside _ (List.getElem_mem bound) _ (List.getElem_mem within)
      · rw [List.getD_eq_getElem?_getD, List.getElem?_eq_none (not_lt.mp within)]
        exact inv.born.trans_le grown
  · exact fun n far => inv.unused n (grown.trans far)
  · refine (frame tid _ mine).write (by simp) ?_ (fun _ => rfl) ?_ (swingActs_well i new other) ?_
    · exact fun n member => unlock_both.mp (swingActs_unlock.mp member)
    · exact fun n => by cases also <;> simp [swingActs]
    · intro n member
      refine lt_of_lt_of_le ?_ grown
      rcases unlock_both.mp (swingActs_unlock.mp member) with rfl | both
      · exact below
      · exact alsoBelow n both

theorem Inv.moveStep (inv : Inv w) {pc : Pc} (here : w.pc tid = pc)
    (stepped : moveStep degree w tid pc = some after) :
    Inv after := by
  have mine := inv.threads tid
  rw [here] at mine
  have reads := mine.reads
  cases pc with
  | idle => cases stepped
  | walk job parent n => cases stepped
  | make g i also => cases stepped
  | version job parent n =>
      simp only [AbPersist.moveStep] at stepped
      split at stepped
      · cases stepped
        exact inv
      · rename_i even
        cases stepped
        exact inv.moved (mine.at (by simp) (fun _ => id) (by simp) (fun _ => rfl)
          ⟨reads.1, reads.2, by omega, le_rfl⟩)
  | keys job parent n ver idx =>
      obtain ⟨one, two, even, old⟩ := reads
      simp only [AbPersist.moveStep] at stepped
      split at stepped
      · split at stepped
        · rename_i match_
          cases stepped
          exact inv.moved (mine.at (by simp) (fun _ => id) (by simp) (fun _ => rfl)
            ⟨one, two, even, old, fun _ => match_⟩)
        · cases stepped
          exact inv.moved (mine.at (by simp) (fun _ => id) (by simp) (fun _ => rfl)
            ⟨one, two, even, old⟩)
      · cases stepped
        refine inv.moved (mine.at (by simp) (fun _ => id) (by simp) (fun _ => rfl)
          ⟨one, two, even, old, ?_⟩)
        rintro _ _ ⟨⟩
  | value job parent n ver idx =>
      obtain ⟨one, two, even, old, key⟩ := reads
      cases stepped
      refine inv.moved (mine.at (by simp) (fun _ => id) (by simp) (fun _ => rfl)
        ⟨one, two, even, old, ?_⟩)
      rintro _ _ ⟨⟩ now
      exact ⟨key now, rfl⟩
  | check job parent n ver found =>
      have lockLeaf : Inv (w.goto tid (.lockLeaf job parent n)) :=
        inv.moved (mine.at (by simp) (fun _ => id) (by simp) (fun _ => rfl) ⟨reads.1, reads.2.1⟩)
      have idle : Inv (w.goto tid .idle) :=
        inv.moved (mine.at (by simp) (fun _ => id) (by simp) (fun _ => rfl) trivial)
      simp only [AbPersist.moveStep] at stepped
      split at stepped
      · split at stepped <;> cases stepped
        · exact idle
        · exact idle
        · exact lockLeaf
        · exact lockLeaf
        · exact idle
      · cases stepped
        exact inv.moved (mine.at (by simp) (fun _ => id) (by simp) (fun _ => rfl)
          ⟨reads.1, reads.2.1⟩)
  | lockLeaf job parent n =>
      have stepped : w.acquire tid n (.scan job parent n 0) = some after := stepped
      refine inv.acquire here (by simp) reads.2 ?_ (by simp) (fun _ => ⟨rfl, rfl⟩) ?_ stepped
      · exact fun m held => .inl (Eq.symm held)
      · exact fun _ => reads
  | scan job parent n idx =>
      have leave : Inv (w.goto tid (.run [.unlock n])) :=
        inv.moved (mine.unlockOnly reads.2)
      simp only [AbPersist.moveStep] at stepped
      split at stepped
      · split at stepped
        · split at stepped <;> cases stepped
          · refine inv.moved (mine.write (by simp) ?_ (fun _ => rfl) (eraseActs_even _ _)
              (eraseActs_well ..) ?_)
            · simp [eraseActs, Pc.holds, eq_comm]
            · simp [eraseActs, reads.2]
          · exact leave
        · cases stepped
          exact inv.moved (mine.at (by simp) (fun _ => id) (by simp) (fun _ => rfl) reads)
      · split at stepped <;> cases stepped
        · exact inv.moved (mine.at (by simp) (fun _ => id) (by simp) (fun _ => rfl) reads)
        · exact leave
  | empty k v parent n idx =>
      simp only [AbPersist.moveStep] at stepped
      split at stepped
      · split at stepped <;> cases stepped
        · refine inv.moved (mine.write (by simp) ?_ (fun _ => rfl) (insertActs_even _ _ _ _)
            (insertActs_well ..) ?_)
          · simp [insertActs, Pc.holds, eq_comm]
          · simp [insertActs, reads.2]
        · exact inv.moved (mine.at (by simp) (fun _ => id) (by simp) (fun _ => rfl) reads)
      · cases stepped
        refine inv.moved (mine.at (by simp) ?_ (by simp) (fun _ => rfl) ⟨reads.1, ?_⟩)
        · exact fun m held => Option.some.inj held
        · rintro _ ⟨⟩
          exact reads.2
  | lockParent g i also =>
      refine inv.acquire here (by simp) reads.1 ?_ (by simp) (fun _ => ⟨rfl, rfl⟩)
        (fun unlocked => ?_) stepped
      · exact fun m held => held.imp_left Eq.symm
      · -- a thread that holds the leaf does not find its lock free
        refine ⟨reads.1, fun same => ?_, reads.2⟩
        cases unlocked.symm.trans (mine.holds g same)
  | run rest =>
      cases rest with
      | nil =>
          cases stepped
          obtain ⟨stored, flushed⟩ := mine.well _ rfl
          refine inv.moved ⟨?_, ?_, fun _ => ⟨stored, List.map_eq_nil_iff.mp flushed⟩, mine.parity,
            trivial⟩
          · rintro _ ⟨⟩
          · rintro _ ⟨⟩
      | cons act rest =>
          cases stepped
          exact inv.act here

theorem step_inv (inv : Inv w) (event : Event) (stepped : step degree w event = some after) :
    Inv after := by
  cases event with
  | call tid job =>
      have mine := inv.threads tid
      simp only [step] at stepped
      split at stepped <;> cases stepped
      rename_i here
      rw [here] at mine
      exact inv.moved (mine.at (by simp) (fun _ => id) (by simp) (fun _ => rfl)
        ⟨inv.born, inv.born⟩)
  | load tid i =>
      have mine := inv.threads tid
      simp only [step] at stepped
      split at stepped
      · rename_i here
        rw [here] at mine
        split at stepped <;> cases stepped
        · exact inv
        · exact inv.moved (mine.at (by simp) (fun _ => id) (by simp) (fun _ => rfl)
            ⟨mine.reads.2, inv.valid _ mine.reads.2 i⟩)
      · cases stepped
  | finish tid =>
      have mine := inv.threads tid
      simp only [step] at stepped
      split at stepped <;> cases stepped
      rename_i here
      rw [here] at mine
      exact inv.moved (mine.at (by simp) (fun _ => id) (by simp) (fun _ => rfl) mine.reads)
  | move tid => exact inv.moveStep rfl stepped
  | restructure tid g i =>
      have mine := inv.threads tid
      have start (off : ∀ rest, w.pc tid ≠ .run rest) (none_ : ∀ n, (w.pc tid).bumps n = 0)
        (less : g < w.fresh) :
          Inv (w.goto tid (.lockParent g i none)) := by
        refine inv.moved (mine.at off ?_ (by simp) (fun n => (none_ n).symm) ⟨less, ?_⟩)
        · rintro _ ⟨⟩
        · rintro _ ⟨⟩
      simp only [step] at stepped
      split at stepped
      · rename_i here
        split at stepped <;> cases stepped
        exact start (by simp [here]) (by simp [here, Pc.bumps]) ‹_›
      · rename_i here
        split at stepped <;> cases stepped
        exact start (by simp [here]) (by simp [here, Pc.bumps]) ‹_›
      · cases stepped
  | make tid nodes root =>
      simp only [step] at stepped
      split at stepped
      · rename_i here
        split at stepped <;> cases stepped
        rename_i good
        exact inv.make here good.2.1 good.2.2
      · cases stepped
  | retry tid =>
      have mine := inv.threads tid
      simp only [step] at stepped
      split at stepped <;> cases stepped
      · rename_i here
        rw [here] at mine
        exact inv.moved (mine.unlockOnly mine.reads.2)
      · rename_i here
        rw [here] at mine
        obtain ⟨below, other, alsoBelow⟩ := mine.reads
        refine inv.moved (mine.write (by simp) (fun n member => unlock_both.mp member)
          (fun _ => rfl) ?_ ?_ ?_)
        · exact fun n => by cases ‹Option Nat› <;> simp
        · cases ‹Option Nat› with
          | none => simp [Well]
          | some n => simp_all [Well, eq_comm]
        · intro n member
          rcases unlock_both.mp member with rfl | both
          · exact below
          · exact alsoBelow n both

end Quiet

theorem run_inv {events : List Event} (run : Run (step degree) free initial events w) : Inv w :=
  run_invariant Inv initial_inv (fun _ event _ inv _ stepped => step_inv inv event stepped) run

/-- In every interleaving, what a search hands out outside the windows is persistent. -/
theorem answers_persistent (degree : Nat) {events : List Event}
    (run : Run (step degree) free initial events w) (event : Event)
    (outside : Outside degree w event) {answer : Answer}
    (given : answered degree w event = some answer) :
    Persistent w answer :=
  (run_inv run).answer event outside given

-- A search of a leaf with room that ends in an insert at its place `idx`, `acts` actions of it.
def insertAt (tid k v idx acts : Nat) : List Event :=
  [.call tid (.insert k v), .load tid 0, .finish tid] ++ List.replicate (14 + idx + acts)
    (.move tid)

def findFirst (tid k : Nat) : List Event :=
  [.call tid (.find k), .load tid 0, .finish tid] ++ List.replicate 3 (.move tid)

theorem finished_insert_persistent :
    ∃ last, Run (step 4) free initial (insertAt 0 5 7 0 9 ++ findFirst 1 5) last ∧
    answered 4 last (.move 1) = some (.found 1 0 5 7) ∧ Persistent last (.found 1 0 5 7) := by
  have replayed : (replay (step 4) free (insertAt 0 5 7 0 9 ++ findFirst 1 5) initial).map
      (fun w => (answered 4 w (.move 1), decide (Outside 4 w (.move 1)))) =
      some (some (.found 1 0 5 7), true) := by
    decide +kernel
  obtain ⟨last, run, seen⟩ := Option.map_eq_some_iff.mp replayed
  have run := run_of_replay _ run
  obtain ⟨given, outside⟩ := Prod.mk.inj seen
  exact ⟨last, run, given, answers_persistent 4 run (.move 1) (of_decide_eq_true outside) given⟩

-- The fifth insert splits the only leaf; its thread stops between clearing the mark and the sync.
def splitRun : List Event :=
  insertAt 0 1 6 0 10 ++ insertAt 0 2 6 1 10 ++ insertAt 0 3 6 2 10 ++ insertAt 0 4 6 3 10 ++
    [.call 0 (.insert 5 6), .load 0 0, .finish 0] ++ List.replicate 19 (.move 0) ++
    [.make 0 [⟨[], [1, 2], [6, 6]⟩, ⟨[], [3, 4, 5], [6, 6, 6]⟩, ⟨[2, 3], [3], []⟩] 4, .move 0,
      .move 0, .call 1 (.find 5)]

theorem window_not_persistent :
    (∃ last, Run (step 4) free initial (insertAt 0 5 7 0 7 ++ findFirst 1 5) last ∧
      answered 4 last (.move 1) = some (.found 1 0 5 7) ∧ ¬ Persistent last (.found 1 0 5 7)) ∧
    ∃ last, Run (step 4) free initial splitRun last ∧
      answered 4 last (.load 1 0) = some (.pointer 0 0 4) ∧ ¬ Persistent last (.pointer 0 0 4) := by
  have leaf : (replay (step 4) free (insertAt 0 5 7 0 7 ++ findFirst 1 5) initial).map
      (fun w => (answered 4 w (.move 1), w.pmem (.key 1 0))) =
      some (some (.found 1 0 5 7), clean 0) := by
    decide +kernel
  have slot : (replay (step 4) free splitRun initial).map
    (fun w => (answered 4 w (.load 1 0), w.pmem (.slot 0 0))) =
      some (some (.pointer 0 0 4), clean 1) := by
    decide +kernel
  obtain ⟨first, one, seen⟩ := Option.map_eq_some_iff.mp leaf
  obtain ⟨second, two, seen'⟩ := Option.map_eq_some_iff.mp slot
  obtain ⟨found, key⟩ := Prod.mk.inj seen
  obtain ⟨pointer, word⟩ := Prod.mk.inj seen'
  refine ⟨⟨first, run_of_replay _ one, found, fun held => ?_⟩, second, run_of_replay _ two, pointer,
    fun held => ?_⟩
  · exact nomatch key.symm.trans held.1
  · exact nomatch word.symm.trans held

end SetBench.AbPersist
