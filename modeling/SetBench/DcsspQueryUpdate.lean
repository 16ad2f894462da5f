import SetBench.DcsspQuerySteps

/-! The steps of linearize_update_at_write and linearize_update_at_cas. -/
namespace SetBench.DcsspQuery

open RangeQuery (Update)

variable {A V T N : Type} [DecidableEq T]

section Steps

variable {w : World A V T N} (inv : Inv w) {tid : T}

include inv

omit [DecidableEq T] in
theorem Inv.pending_le {p : T} {seq : Nat} (pending : w.pending p seq) : seq ≤ (w.desc p).seq := by
  obtain ⟨t, help, here, rfl, rfl, _⟩ := pending
  exact (inv.helps t help here).le

section SetDesc

variable {d : Desc A V N} {pc : Pc A V T N}

omit inv in
theorem setDesc_other {p : T} (apart : p ≠ tid) : (w.setDesc tid d).desc p = w.desc p :=
  Function.update_of_ne apart ..

omit inv in
theorem setDesc_self : (w.setDesc tid d).desc tid = d := Function.update_self ..

variable (seq : (w.desc tid).seq ≤ d.seq)
  (kept : d.seq = (w.desc tid).seq → (w.desc tid).seq % 2 = 1 →
    (d.args = (w.desc tid).args ∧ d.inserted = (w.desc tid).inserted
    ∧ d.deleted = (w.desc tid).deleted) ∧
      (d.payload1 ⊆ (w.desc tid).payload1 ∧ d.payload2 ⊆ (w.desc tid).payload2)
    ∧ d.installed = (w.desc tid).installed ∧ d.state = (w.desc tid).state)
  (done : d.state = .succeeded → (w.desc tid).state = .succeeded ∧ d.args = (w.desc tid).args ∧
    d.inserted = (w.desc tid).inserted
    ∧ d.deleted = (w.desc tid).deleted ∧ d.seq = (w.desc tid).seq)

include seq kept done

-- What the others have seen of a published descriptor stays.
theorem Inv.setDesc_later (quiet : pc.help = none) :
    Later w.shared ((w.setDesc tid d).goto tid pc).shared := by
  have silent {p : T} {number : Nat} (pending : ((w.setDesc tid d).goto tid pc).pending p number) :
    w.pending p number := by
    rcases pending_of (goto_others _ pc) pending with old | ⟨h, same, _⟩
    · exact old
    · rw [goto_self, quiet] at same
      cases same
  refine ⟨Nat.le_refl _, fun p => ?_, fun p => ?_, fun p => ?_, fun p => ?_, fun p => ?_,
    fun p => ?_, fun p number pending => .inl (silent pending),
    fun _ _ => rfl, fun _ => .inl rfl, fun _ some_ => some_, fun _ some_ => some_⟩
  · show (w.desc p).seq ≤ ((w.setDesc tid d).desc p).seq
    by_cases same : p = tid
    · rw [same, setDesc_self]
      exact seq
    · rw [setDesc_other same]
  · show ((w.setDesc tid d).desc p).seq = (w.desc p).seq → (w.desc p).seq % 2 = 1 →
      ((w.setDesc tid d).desc p).args = (w.desc p).args
      ∧ ((w.setDesc tid d).desc p).inserted = (w.desc p).inserted ∧
        ((w.setDesc tid d).desc p).deleted = (w.desc p).deleted
    by_cases same : p = tid
    · rw [same, setDesc_self]
      exact fun number odd => (kept number odd).1
    · rw [setDesc_other same]
      exact fun _ _ => ⟨rfl, rfl, rfl⟩
  · show ((w.setDesc tid d).desc p).seq = (w.desc p).seq → (w.desc p).seq % 2 = 1 →
      ((w.setDesc tid d).desc p).payload1 ⊆ (w.desc p).payload1
      ∧ ((w.setDesc tid d).desc p).payload2 ⊆ (w.desc p).payload2
    by_cases same : p = tid
    · rw [same, setDesc_self]
      exact fun number odd => (kept number odd).2.1
    · rw [setDesc_other same]
      exact fun _ _ => ⟨fun _ member => member, fun _ member => member⟩
  · show ((w.setDesc tid d).desc p).seq = (w.desc p).seq → (w.desc p).seq % 2 = 1 →
      (w.desc p).installed = true →
      ((w.setDesc tid d).desc p).installed = true
    by_cases same : p = tid
    · rw [same, setDesc_self]
      exact fun number odd yes => (kept number odd).2.2.1.trans yes
    · rw [setDesc_other same]
      exact fun _ _ yes => yes
  · intro number odd
    left
    show ((w.setDesc tid d).desc p).state = (w.desc p).state
    have number : ((w.setDesc tid d).desc p).seq = (w.desc p).seq := number
    have odd : (w.desc p).seq % 2 = 1 := odd
    by_cases same : p = tid
    · rw [same, setDesc_self] at number ⊢
      rw [same] at odd
      exact (kept number odd).2.2.2
    · rw [setDesc_other same]
  · intro apart odd
    have apart : ((w.setDesc tid d).desc p).seq ≠ (w.desc p).seq := apart
    show ((w.setDesc tid d).desc p).state ≠ .succeeded ∧ ¬ ((w.setDesc tid d).goto tid pc).pending p
      ((w.setDesc tid d).desc p).seq
    by_cases same : p = tid
    · rw [same, setDesc_self] at apart ⊢
      refine ⟨fun succeeded => apart (done succeeded).2.2.2.2, fun pending => ?_⟩
      have low := inv.pending_le (silent pending)
      omega
    · rw [setDesc_other same] at apart
      exact (apart rfl).elim

variable
  (lost1 : ∀ node ∈ (w.desc tid).payload1, (w.desc tid).seq % 2 = 1 →
    (w.desc tid).state = .succeeded → w.itime node = 0 →
    d.state = .succeeded ∧ node ∈ d.payload1)
  (lost2 : ∀ node ∈ (w.desc tid).payload2, (w.desc tid).seq % 2 = 1 →
    (w.desc tid).state = .succeeded → w.dtime node = 0 →
    d.state = .succeeded ∧ node ∈ d.payload2)
  (within : d.payload1 ⊆ d.inserted ∧ d.payload2 ⊆ d.deleted)
  (idle : d.installed = false ∨ d.state ≠ .undecided)

include lost1 lost2 within idle

theorem Inv.setDesc_facts : Facts (w.setDesc tid d) := by
  have facts := inv.facts
  refine ⟨facts.positive, fun p => ?_, fun node some_ zero => ?_, fun node some_ zero => ?_,
    facts.itime, facts.dtime, fun p => ?_, fun p => ?_,
    fun a p number tag => ?_⟩
  · by_cases same : p = tid
    · rw [same, setDesc_self]
      intro succeeded
      obtain ⟨before, args, inserted, deleted, _⟩ := done succeeded
      rw [args, inserted, deleted]
      exact facts.done tid before
    · rw [setDesc_other same]
      exact facts.done p
  · obtain ⟨p, ⟨odd, state, member⟩, value⟩ := facts.bornSet node some_ zero
    refine ⟨p, ?_⟩
    show (((w.setDesc tid d).desc p).seq % 2 = 1 ∧ ((w.setDesc tid d).desc p).state = .succeeded ∧
      node ∈ ((w.setDesc tid d).desc p).payload1)
      ∧ ((w.setDesc tid d).desc p).args.old1 = w.born node
    by_cases same : p = tid
    · rw [same] at odd state member value
      obtain ⟨succeeded, inside⟩ := lost1 node member odd state zero
      obtain ⟨_, args, _, _, number⟩ := done succeeded
      rw [same, setDesc_self, args, number]
      exact ⟨⟨odd, succeeded, inside⟩, value⟩
    · rw [setDesc_other same]
      exact ⟨⟨odd, state, member⟩, value⟩
  · obtain ⟨p, odd, state, member, value⟩ := facts.diedSet node some_ zero
    refine ⟨p, ?_⟩
    by_cases same : p = tid
    · rw [same] at odd state member value
      obtain ⟨succeeded, inside⟩ := lost2 node member odd state zero
      obtain ⟨_, args, _, _, number⟩ := done succeeded
      rw [same, setDesc_self, args, number]
      exact ⟨odd, succeeded, inside, value⟩
    · rw [setDesc_other same]
      exact ⟨odd, state, member, value⟩
  · by_cases same : p = tid
    · rw [same, setDesc_self]
      exact within
    · rw [setDesc_other same]
      exact facts.within p
  · by_cases same : p = tid
    · rw [same, setDesc_self]
      intro installed undecided
      rcases idle with absent | decided
      · rw [absent] at installed
        cases installed
      · exact (decided undecided).elim
    · rw [setDesc_other same]
      exact facts.words p
  · obtain ⟨low, odd, yes⟩ := facts.tags a p number tag
    by_cases same : p = tid
    · rw [same] at low yes
      rw [same, setDesc_self]
      refine ⟨low.trans seq, odd, fun now => ?_⟩
      have before : (w.desc tid).seq = number := by omega
      exact (kept (now.trans before.symm) (by omega)).2.2.1.trans (yes before)
    · rw [setDesc_other same]
      exact ⟨low, odd, yes⟩

/-- The owner writes its descriptor. -/
theorem Inv.setDesc (quiet : pc.help = none) (ok : ∀ s, pc.QueryOk s) (sees : ∀ s, pc.Sees s)
    (good : ∀ s : Shared A V T N, s.desc tid = d → s.itime = w.itime → s.dtime = w.dtime →
      pc.Good s tid) :
    Inv ((w.setDesc tid d).goto tid pc) := by
  have facts := inv.setDesc_facts seq kept done lost1 lost2 within idle
  refine inv.advance tid ⟨facts.positive, facts.done, facts.bornSet, facts.diedSet, facts.itime,
    facts.dtime, facts.within, facts.words, facts.tags⟩
    (inv.setDesc_later seq kept done quiet)
    (fun v apart => ⟨goto_others _ pc v apart, .inl (setDesc_other apart)⟩)
    (fun d member => .inl member) ?_ ?_ ?_ ?_
  · rw [goto_self]
    exact good _ setDesc_self rfl rfl
  · rw [goto_self, quiet]
    nofun
  · rw [goto_self]
    exact sees _
  · rw [goto_self]
    exact ok _

end SetDesc

-- The compare-and-swap that puts the tagptr into addr2.
theorem Inv.install [DecidableEq A] {u : Update A V N} {args : Args A V} {v : V}
    (pc : w.pc tid = .update u (.install args)) (free : w.mem args.addr2 = .value v) :
    Inv (((w.setMem args.addr2 (.tag tid (w.desc tid).seq)).setDesc tid
      { w.desc tid with installed := true }).goto tid
      (.update u (.own args ⟨tid, (w.desc tid).seq, .readTime args⟩))) := by
  have good := inv.threads tid
  rw [pc] at good
  obtain ⟨odd, state, absent, written⟩ := good
  have odd : (w.desc tid).seq % 2 = 1 := odd
  have state : (w.desc tid).state ≠ .succeeded := state
  have written : (w.desc tid).Written u args := written
  have facts := inv.facts
  let next := (w.setMem args.addr2 (.tag tid (w.desc tid).seq)).setDesc tid
    { w.desc tid with installed := true }
  have other (p : T) (apart : p ≠ tid) : next.desc p = w.desc p := Function.update_of_ne apart ..
  have self : next.desc tid = { w.desc tid with installed := true } := Function.update_self ..
  have rest (p : T) : (next.desc p).seq = (w.desc p).seq ∧ (next.desc p).state = (w.desc p).state ∧
    (next.desc p).args = (w.desc p).args
      ∧ (next.desc p).inserted = (w.desc p).inserted ∧ (next.desc p).deleted = (w.desc p).deleted ∧
        (next.desc p).payload1 = (w.desc p).payload1
      ∧ (next.desc p).payload2 = (w.desc p).payload2 ∧
        ((w.desc p).installed = true → (next.desc p).installed = true) := by
    by_cases same : p = tid
    · rw [same, self]
      exact ⟨rfl, rfl, rfl, rfl, rfl, rfl, rfl, fun _ => rfl⟩
    · rw [other p same]
      exact ⟨rfl, rfl, rfl, rfl, rfl, rfl, rfl, fun yes => yes⟩
  have later : Later w.shared
    (next.goto tid (.update u (.own args ⟨tid, (w.desc tid).seq, .readTime args⟩))).shared := by
    refine ⟨Nat.le_refl _, fun p => (rest p).1.ge,
      fun p _ _ => ⟨(rest p).2.2.1, (rest p).2.2.2.1, (rest p).2.2.2.2.1⟩, fun p _ _ => ?_,
      fun p _ _ => (rest p).2.2.2.2.2.2.2, fun p _ _ => .inl (rest p).2.1, fun p apart =>
        (apart (rest p).1).elim, fun p number pending => .inl ?_,
      fun _ _ => rfl, fun _ => .inl rfl, fun _ some_ => some_, fun _ some_ => some_⟩
    · exact ⟨fun node member => (show (next.desc p).payload1 = _ from (rest p).2.2.2.2.2.1) ▸
        member,
        fun node member => (show (next.desc p).payload2 = _ from (rest p).2.2.2.2.2.2.1) ▸ member⟩
    · rcases pending_of (goto_others next _) pending with old | ⟨h, same, _, _, yes⟩
      · exact old
      · rw [goto_self] at same
        cases same
        cases yes
  refine inv.advance tid ⟨facts.positive, fun p => ?_, fun node some_ zero => ?_,
    fun node some_ zero => ?_, facts.itime, facts.dtime, fun p => ?_, fun p => ?_,
    fun a p number tag => ?_⟩ later (fun v apart => ⟨goto_others _ _ v apart, .inl (other v apart)⟩)
      (fun d member => .inl member) ?_ ?_ ?_ ?_
  · show (next.desc p).state = .succeeded → 0 < (next.desc p).args.old1 ∧
      (∀ node ∈ (next.desc p).inserted, w.born node = (next.desc p).args.old1)
      ∧ ∀ node ∈ (next.desc p).deleted, w.died node = (next.desc p).args.old1
    obtain ⟨_, state, args, inserted, deleted, _⟩ := rest p
    rw [state, args, inserted, deleted]
    exact facts.done p
  · obtain ⟨p, ⟨odd, state, member⟩, value⟩ := facts.bornSet node some_ zero
    obtain ⟨number, same, args, _, _, payload1, _⟩ := rest p
    refine ⟨p, ?_⟩
    show ((next.desc p).seq % 2 = 1 ∧ (next.desc p).state = .succeeded ∧
      node ∈ (next.desc p).payload1) ∧ (next.desc p).args.old1 = w.born node
    rw [number, same, args, payload1]
    exact ⟨⟨odd, state, member⟩, value⟩
  · obtain ⟨p, odd, state, member, value⟩ := facts.diedSet node some_ zero
    obtain ⟨number, same, args, _, _, _, payload2, _⟩ := rest p
    refine ⟨p, ?_⟩
    show (next.desc p).seq % 2 = 1 ∧ (next.desc p).state = .succeeded ∧
      node ∈ (next.desc p).payload2 ∧ (next.desc p).args.old1 = w.died node
    rw [number, same, args, payload2]
    exact ⟨odd, state, member, value⟩
  · show (next.desc p).payload1 ⊆ (next.desc p).inserted ∧ (next.desc p).payload2 ⊆
      (next.desc p).deleted
    obtain ⟨_, _, _, inserted, deleted, payload1, payload2, _⟩ := rest p
    rw [inserted, deleted, payload1, payload2]
    exact facts.within p
  · show (next.desc p).installed = true → (next.desc p).state = .undecided →
      Function.update w.mem args.addr2 (.tag tid (w.desc tid).seq) (next.desc p).args.addr2 =
        .tag p (next.desc p).seq
    by_cases same : p = tid
    · rw [same, self]
      intro _ _
      show Function.update w.mem args.addr2 (.tag tid (w.desc tid).seq) (w.desc tid).args.addr2 =
        .tag tid (w.desc tid).seq
      rw [written.args, Function.update_self]
    · rw [other p same]
      intro installed undecided
      have old := facts.words p installed undecided
      rw [Function.update_of_ne]
      · exact old
      · intro same
        rw [same, free] at old
        cases old
  · have tag : Function.update w.mem args.addr2 (.tag tid (w.desc tid).seq) a = .tag p number := tag
    show number ≤ (next.desc p).seq ∧ number % 2 = 1 ∧
      ((next.desc p).seq = number → (next.desc p).installed = true)
    by_cases same : a = args.addr2
    · rw [same, Function.update_self] at tag
      obtain ⟨rfl, rfl⟩ := Word.tag.inj tag
      rw [self]
      exact ⟨Nat.le_refl _, odd, fun _ => rfl⟩
    · rw [Function.update_of_ne same] at tag
      obtain ⟨low, number', yes⟩ := facts.tags a p number tag
      refine ⟨low.trans (rest p).1.ge, number', fun now => (rest p).2.2.2.2.2.2.2 (yes ?_)⟩
      exact (rest p).1.symm.trans now
  · rw [goto_self]
    show (next.desc tid).seq % 2 = 1 ∧ (next.desc tid).installed = true ∧
      (next.desc tid).Written u args ∧ tid = tid ∧ (w.desc tid).seq = (next.desc tid).seq
    rw [self]
    exact ⟨odd, rfl, ⟨written.args, written.inserted, written.deleted, written.payload1,
      written.payload2⟩, rfl, rfl⟩
  · rw [goto_self]
    intro h same
    cases same
    refine ⟨(rest tid).1.ge, odd, fun _ => ?_⟩
    show args = (next.desc tid).args
    rw [(rest tid).2.2.1]
    exact written.args.symm
  · rw [goto_self]
    trivial
  · rw [goto_self]
    trivial

theorem Inv.setItime [DecidableEq N] {u : Update A V N} {old1 : Nat} {node : N} {rest : List N}
    (pc : w.pc tid = .update u (.setInsertionTimestamps old1 (node :: rest))) :
    Inv ({ w with itime := Function.update w.itime node old1 }.goto tid
      (.update u (.setInsertionTimestamps old1 rest))) := by
  have good := inv.threads tid
  rw [pc] at good
  obtain ⟨⟨odd, ⟨args, written, rfl⟩, succeeded⟩, within, covered⟩ := good
  have facts := inv.facts
  obtain ⟨positive, births, _⟩ := facts.done tid succeeded
  have value : (w.desc tid).args.old1 = args.old1 := congrArg Args.old1 written.args
  have born : w.born node = args.old1 := by
    rw [← value]
    exact births node (written.inserted.symm ▸ within List.mem_cons_self)
  have itime (n : N) : Function.update w.itime node args.old1 n ≠ 0 ↔ n = node ∨ w.itime n ≠ 0 := by
    by_cases self : n = node
    · rw [self, Function.update_self]
      exact ⟨fun _ => .inl rfl, fun _ => by omega⟩
    · rw [Function.update_of_ne self]
      exact ⟨.inr, fun either => either.resolve_left self⟩
  have later : Later w.shared ({ w with itime := Function.update w.itime node args.old1 }.goto tid
    (.update u (.setInsertionTimestamps args.old1 rest))).shared := by
    refine Later.still rfl rfl rfl (Nat.le_refl _) (fun n some_ => (itime n).mpr (.inr some_))
      (fun _ some_ => some_)
      (fun v apart => Function.update_of_ne apart ..) fun h same => ?_
    rw [goto_self] at same
    cases same
  refine inv.advance tid ⟨facts.positive, facts.done, fun n some_ zero => facts.bornSet n some_ ?_,
    facts.diedSet, fun n => ?_, facts.dtime, facts.within, facts.words,
    facts.tags⟩ later (fun v apart => ⟨Function.update_of_ne apart .., .inl rfl⟩)
      (fun d member => .inl member) ?_ ?_ ?_ ?_
  · by_contra old
    exact (itime n).mpr (.inr old) zero
  · show Function.update w.itime node args.old1 n ≠ 0 → Function.update w.itime node args.old1 n =
      w.born n
    by_cases self : n = node
    · rw [self, Function.update_self]
      exact fun _ => born.symm
    · rw [Function.update_of_ne self]
      exact facts.itime n
  · rw [goto_self]
    refine ⟨⟨odd, ⟨args, written, rfl⟩, succeeded⟩,
      fun _ member => within (List.mem_cons_of_mem _ member), fun n member => ?_⟩
    rcases covered n member with here | set
    · rcases List.mem_cons.mp here with self | later
      · exact .inr ((itime n).mpr (.inl self))
      · exact .inl later
    · exact .inr ((itime n).mpr (.inr set))
  · rw [goto_self]
    nofun
  · rw [goto_self]
    trivial
  · rw [goto_self]
    trivial

theorem Inv.setDtime [DecidableEq N] {u : Update A V N} {old1 : Nat} {node : N} {rest : List N}
    (pc : w.pc tid = .update u (.setDeletionTimestamps old1 (node :: rest))) :
    Inv ({ w with dtime := Function.update w.dtime node old1 }.goto tid
      (.update u (.setDeletionTimestamps old1 rest))) := by
  have good := inv.threads tid
  rw [pc] at good
  obtain ⟨⟨odd, ⟨args, written, rfl⟩, succeeded⟩, within, inserted, covered⟩ := good
  have facts := inv.facts
  obtain ⟨positive, _, deaths⟩ := facts.done tid succeeded
  have value : (w.desc tid).args.old1 = args.old1 := congrArg Args.old1 written.args
  have died : w.died node = args.old1 := by
    rw [← value]
    exact deaths node (written.deleted.symm ▸ within List.mem_cons_self)
  have dtime (n : N) : Function.update w.dtime node args.old1 n ≠ 0 ↔ n = node ∨ w.dtime n ≠ 0 := by
    by_cases self : n = node
    · rw [self, Function.update_self]
      exact ⟨fun _ => .inl rfl, fun _ => by omega⟩
    · rw [Function.update_of_ne self]
      exact ⟨.inr, fun either => either.resolve_left self⟩
  have later : Later w.shared ({ w with dtime := Function.update w.dtime node args.old1 }.goto tid
    (.update u (.setDeletionTimestamps args.old1 rest))).shared := by
    refine Later.still rfl rfl rfl (Nat.le_refl _) (fun _ some_ => some_)
      (fun n some_ => (dtime n).mpr (.inr some_))
      (fun v apart => Function.update_of_ne apart ..) fun h same => ?_
    rw [goto_self] at same
    cases same
  refine inv.advance tid ⟨facts.positive, facts.done, facts.bornSet,
    fun n some_ zero => facts.diedSet n some_ ?_, facts.itime, fun n => ?_, facts.within,
    facts.words,
    facts.tags⟩ later (fun v apart => ⟨Function.update_of_ne apart .., .inl rfl⟩)
      (fun d member => .inl member) ?_ ?_ ?_ ?_
  · by_contra old
    exact (dtime n).mpr (.inr old) zero
  · show Function.update w.dtime node args.old1 n ≠ 0 → Function.update w.dtime node args.old1 n =
      w.died n
    by_cases self : n = node
    · rw [self, Function.update_self]
      exact fun _ => died.symm
    · rw [Function.update_of_ne self]
      exact facts.dtime n
  · rw [goto_self]
    refine ⟨⟨odd, ⟨args, written, rfl⟩, succeeded⟩,
      fun _ member => within (List.mem_cons_of_mem _ member), inserted, fun n member => ?_⟩
    rcases covered n member with here | set
    · rcases List.mem_cons.mp here with self | later
      · exact .inr ((dtime n).mpr (.inl self))
      · exact .inl later
    · exact .inr ((dtime n).mpr (.inr set))
  · rw [goto_self]
    nofun
  · rw [goto_self]
    trivial
  · rw [goto_self]
    trivial

-- A step of dcsspHelp inside an update or a query.
theorem Inv.helping {next : World A V T N} {result : HelpPhase A V ⊕ Bool} {help : Help A V T}
    {pc : Pc A V T N} (helped : Helped w tid help next result pc)
    (good : pc.Good (next.goto tid pc).shared tid) (sees : pc.Sees (next.goto tid pc).shared)
    (ok : pc.QueryOk (next.goto tid pc).shared) : Inv (next.goto tid pc) := by
  refine inv.advance tid helped.facts helped.later (fun v apart => ⟨?_, helped.touched v⟩)
    (fun d member => .inl ?_) ?_ ?_ ?_ ?_
  · rw [goto_others next pc v apart, helped.pcs]
  · rw [← helped.decisions]
    exact member
  · rw [goto_self]
    exact good
  · rw [goto_self]
    exact helped.ok
  · rw [goto_self]
    exact sees
  · rw [goto_self]
    exact ok

-- A dcssp that was found in memory, helped by an update.
theorem Inv.helpOther [DecidableEq A] [DecidableEq V] [DecidableEq N] {next : World A V T N}
    {result : HelpPhase A V ⊕ Bool} {help : Help A V T} (here : (w.pc tid).help = some help)
    (installed : help.Installed w.shared) (moved : helpMove w help = some (next, result))
    (pc : Pc A V T N)
    (goes : ∀ phase, result = .inl phase → pc.help = some { help with phase := phase })
    (stops : ∀ b, result = .inr b → pc.help = none) :
    Helped w tid help next result pc ∧
      ∀ phase, ({ help with phase := phase } : Help A V T).Installed (next.goto tid pc).shared := by
  have helped := inv.helped here (fun _ _ current _ => installed current) moved pc goes stops
  have still : help.Installed (next.goto tid pc).shared :=
    helped.later.help_installed (inv.helps tid help here) installed
  exact ⟨helped, fun _ => still⟩

-- A step to a position that helps nobody.
theorem Inv.rests {pc : Pc A V T N} (none_ : pc.help = none) (good : pc.Good w.shared tid)
    (sees : pc.Sees w.shared) (ok : pc.QueryOk w.shared) :
    Inv (w.goto tid pc) := by
  refine inv.goto good ?_ sees ok ?_
  · rw [none_]
    nofun
  · rw [none_]
    nofun

-- A tagptr found in memory is helped.
theorem Inv.meets {a : A} {owner : T} {seq : Nat} (tag : w.mem a = .tag owner seq)
    {pc : Pc A V T N} (help : pc.help = some ⟨owner, seq, .copy⟩) (good : pc.Good w.shared tid)
    (sees : (⟨owner, seq, .copy⟩ : Help A V T).Installed w.shared → pc.Sees w.shared)
    (ok : pc.QueryOk w.shared) :
    Inv (w.goto tid pc) := by
  obtain ⟨low, odd, yes⟩ := inv.facts.tags _ _ _ tag
  refine inv.goto good (fun h same => ?_) (sees yes) ok (fun h same promises => ?_)
  · rw [help] at same
    cases same
    exact ⟨low, odd, fun _ => trivial⟩
  · rw [help] at same
    cases same
    cases promises

theorem Inv.descNew {u : Update A V N} {args : Args A V}
    (pc : w.pc tid = .update u (.descNew args)) :
    Inv
      ((w.setDesc tid
      { w.desc tid with seq := (w.desc tid).seq + 1, state := .undecided, installed := false }).goto
      tid (.update u (.fill args))) := by
  have good := inv.threads tid
  rw [pc] at good
  obtain ⟨odd, empty, _⟩ := good
  have odd : (w.desc tid).seq % 2 = 1 := odd
  refine inv.setDesc (Nat.le_succ _) (fun same => ?_) nofun (fun node member _ succeeded => ?_)
    (fun node member _ succeeded => ?_)
    (inv.facts.within tid) (.inl rfl) rfl (fun _ => trivial) (fun _ => trivial)
    (fun s same _ _ => ?_)
  · have same : (w.desc tid).seq + 1 = (w.desc tid).seq := same
    omega
  · rw [show (w.desc tid).payload1 = [] from (empty succeeded).1] at member
    cases member
  · rw [show (w.desc tid).payload2 = [] from (empty succeeded).2] at member
    cases member
  · show (s.desc tid).seq % 2 = 0 ∧ (s.desc tid).state = .undecided ∧ (s.desc tid).installed = false
    rw [same]
    refine ⟨?_, rfl, rfl⟩
    show ((w.desc tid).seq + 1) % 2 = 0
    omega

theorem Inv.fill {u : Update A V N} {args : Args A V} (pc : w.pc tid = .update u (.fill args)) :
    Inv ((w.setDesc tid ⟨(w.desc tid).seq, (w.desc tid).state, args, u.insertedNodes,
      u.deletedNodes, u.insertedNodes, u.deletedNodes, false⟩).goto tid
      (.update u (.initialized args))) := by
  have good := inv.threads tid
  rw [pc] at good
  obtain ⟨even, undecided, _⟩ := good
  have even : (w.desc tid).seq % 2 = 0 := even
  have undecided : (w.desc tid).state = .undecided := undecided
  refine inv.setDesc (Nat.le_refl _) (fun _ odd => by omega) (fun succeeded => ?_)
    (fun _ _ odd => by omega) (fun _ _ odd => by omega)
    ⟨fun _ member => member, fun _ member => member⟩ (.inl rfl) rfl (fun _ => trivial)
      (fun _ => trivial) (fun s same _ _ => ?_)
  · have succeeded : (w.desc tid).state = .succeeded := succeeded
    rw [undecided] at succeeded
    cases succeeded
  · show (s.desc tid).seq % 2 = 0 ∧ (s.desc tid).state = .undecided ∧ (s.desc tid).installed =
      false ∧ (s.desc tid).Written u args
    rw [same]
    exact ⟨even, undecided, rfl, ⟨rfl, rfl, rfl, rfl, rfl⟩⟩

theorem Inv.initialized {u : Update A V N} {args : Args A V}
    (pc : w.pc tid = .update u (.initialized args)) :
    Inv ((w.setDesc tid { w.desc tid with seq := (w.desc tid).seq + 1 }).goto tid
      (.update u (.install args))) := by
  have good := inv.threads tid
  rw [pc] at good
  obtain ⟨even, undecided, absent, written⟩ := good
  have even : (w.desc tid).seq % 2 = 0 := even
  have undecided : (w.desc tid).state = .undecided := undecided
  have written : (w.desc tid).Written u args := written
  refine inv.setDesc (Nat.le_succ _) (fun _ odd => by omega) (fun succeeded => ?_)
    (fun _ _ odd => by omega) (fun _ _ odd => by omega)
    (inv.facts.within tid) (.inl absent) rfl (fun _ => trivial) (fun _ => trivial)
    (fun s same _ _ => ?_)
  · have succeeded : (w.desc tid).state = .succeeded := succeeded
    rw [undecided] at succeeded
    cases succeeded
  · show (s.desc tid).seq % 2 = 1 ∧ (s.desc tid).state ≠ .succeeded ∧ (s.desc tid).installed =
      false ∧ (s.desc tid).Written u args
    rw [same]
    refine ⟨?_, ?_, absent, ⟨written.args, written.inserted, written.deleted, written.payload1,
      written.payload2⟩⟩
    · show ((w.desc tid).seq + 1) % 2 = 1
      omega
    · show (w.desc tid).state ≠ .succeeded
      rw [undecided]
      nofun

theorem Inv.discardPayload1 {u : Update A V N} (pc : w.pc tid = .update u .discardPayload1) :
    Inv ((w.setDesc tid { w.desc tid with payload1 := [] }).goto tid
      (.update u .discardPayload2)) := by
  have good := inv.threads tid
  rw [pc] at good
  obtain ⟨odd, succeeded, births, deaths⟩ := good
  refine inv.setDesc (Nat.le_refl _)
    (fun _ _ => ⟨⟨rfl, rfl, rfl⟩, ⟨List.nil_subset _, fun _ member => member⟩, rfl, rfl⟩)
    (fun yes => ⟨yes, rfl, rfl, rfl, rfl⟩)
    (fun node member _ _ zero => (births node member zero).elim)
    (fun node member _ yes _ => ⟨yes, member⟩)
    ⟨List.nil_subset _, (inv.facts.within tid).2⟩ (.inr ?_) rfl (fun _ => trivial)
      (fun _ => trivial) (fun s same _ dtime => ?_)
  · show (w.desc tid).state ≠ .undecided
    rw [show (w.desc tid).state = .succeeded from succeeded]
    nofun
  · show (s.desc tid).seq % 2 = 1 ∧ (s.desc tid).state = .succeeded ∧ (s.desc tid).payload1 = [] ∧
      ∀ node ∈ (s.desc tid).payload2, s.dtime node ≠ 0
    rw [same, dtime]
    exact ⟨odd, succeeded, rfl, deaths⟩

theorem Inv.discardPayload2 {u : Update A V N} (pc : w.pc tid = .update u .discardPayload2) :
    Inv ((w.setDesc tid { w.desc tid with payload2 := [] }).goto tid .idle) := by
  have good := inv.threads tid
  rw [pc] at good
  obtain ⟨odd, succeeded, empty, deaths⟩ := good
  have decided : (w.desc tid).state ≠ .undecided := by
    rw [show (w.desc tid).state = .succeeded from succeeded]
    nofun
  refine inv.setDesc (Nat.le_refl _)
    (fun _ _ => ⟨⟨rfl, rfl, rfl⟩, ⟨fun _ member => member, List.nil_subset _⟩, rfl, rfl⟩)
    (fun yes => ⟨yes, rfl, rfl, rfl, rfl⟩) (fun node member _ yes _ => ⟨yes, member⟩)
    (fun node member _ _ zero => (deaths node member zero).elim)
    ⟨(inv.facts.within tid).1, List.nil_subset _⟩ (.inr decided) rfl (fun _ => trivial)
      (fun _ => trivial) (fun s same _ _ => ?_)
  show (s.desc tid).Rest
  rw [same]
  exact ⟨odd, fun _ => ⟨empty, rfl⟩, fun _ => decided⟩

section Updates

variable [DecidableEq A] [DecidableEq V] [DecidableEq N] {after : World A V T N} {u : Update A V N}
    {help : Help A V T}

theorem Inv.readHelp {old1 : Nat} (pc : w.pc tid = .update u (.readHelp old1 help))
    (moved : updateMove w tid u (.readHelp old1 help) = some after) : Inv after := by
  have good := inv.threads tid
  have sees := inv.sees tid
  have here : (w.pc tid).help = some help := by rw [pc]; rfl
  rw [pc] at good sees
  obtain ⟨⟨next, result⟩, stepped, rfl⟩ := Option.map_eq_some_iff.mp moved
  cases result with
  | inl phase =>
      obtain ⟨helped, still⟩ :=
        inv.helpOther here sees stepped (.update u (.readHelp old1 { help with phase := phase }))
        (fun _ same => by cases same; rfl) nofun
      exact inv.helping helped (Desc.Rest.touched good (helped.touched tid)) (still phase) trivial
  | inr b =>
      obtain ⟨helped, _⟩ := inv.helpOther here sees stepped (.update u (.readAddr old1)) nofun
        fun _ _ => rfl
      exact inv.helping helped (Desc.Rest.touched good (helped.touched tid)) trivial trivial

theorem Inv.installMove {args : Args A V} (pc : w.pc tid = .update u (.install args))
    (moved : updateMove w tid u (.install args) = some after) : Inv after := by
  have good := inv.threads tid
  rw [pc] at good
  simp only [updateMove] at moved
  split at moved
  · rename_i owner seq tag
    cases moved
    exact inv.meets tag rfl good (fun yes => yes) trivial
  · rename_i r value
    obtain ⟨odd, failed, absent, _⟩ := good
    have rest : (w.desc tid).Rest := by
      refine ⟨odd, fun succeeded => (failed succeeded).elim, fun installed => ?_⟩
      rw [show (w.desc tid).installed = false from absent] at installed
      cases installed
    split at moved
    · cases moved
      exact inv.install pc value
    · split at moved <;> cases moved
      · exact inv.rests rfl rest trivial trivial
      · exact inv.rests rfl rest trivial trivial

theorem Inv.installHelp {args : Args A V} (pc : w.pc tid = .update u (.installHelp args help))
    (moved : updateMove w tid u (.installHelp args help) = some after) : Inv after := by
  have good := inv.threads tid
  have sees := inv.sees tid
  have here : (w.pc tid).help = some help := by rw [pc]; rfl
  rw [pc] at good sees
  have again : (Pc.update u (.install args) : Pc A V T N).Good w.shared tid := good
  obtain ⟨⟨next, result⟩, stepped, rfl⟩ := Option.map_eq_some_iff.mp moved
  cases result with
  | inl phase =>
      obtain ⟨helped, still⟩ :=
        inv.helpOther here sees stepped (.update u (.installHelp args { help with phase := phase }))
        (fun _ same => by cases same; rfl) nofun
      exact inv.helping helped (again.touched (helped.touched tid) helped.later.itime
        helped.later.dtime) (still phase) trivial
  | inr b =>
      obtain ⟨helped, _⟩ := inv.helpOther here sees stepped (.update u (.install args)) nofun
        fun _ _ => rfl
      exact inv.helping helped (again.touched (helped.touched tid) helped.later.itime
        helped.later.dtime) trivial trivial

/-- The owner runs its own dcssp, and learns its outcome. -/
theorem Inv.own {args : Args A V} (pc : w.pc tid = .update u (.own args help))
    (moved : updateMove w tid u (.own args help) = some after) : Inv after := by
  have good := inv.threads tid
  have here : (w.pc tid).help = some help := by rw [pc]; rfl
  rw [pc] at good
  obtain ⟨odd, installed, written, owner, number⟩ := good
  obtain ⟨⟨next, result⟩, stepped, rfl⟩ := Option.map_eq_some_iff.mp moved
  have helped := inv.helped here (fun _ _ _ _ => by rw [owner]; exact installed) stepped
  cases result with
  | inl phase =>
      have helped := helped (.update u (.own args { help with phase := phase }))
        (fun _ same => by cases same; rfl) nofun
      have before : (Pc.update u (.own args { help with phase := phase }) : Pc A V T N).Good
        w.shared tid := ⟨odd, installed, written, owner, number⟩
      exact inv.helping helped (before.touched (helped.touched tid) helped.later.itime
        helped.later.dtime) trivial trivial
  | inr b =>
      have current : (next.desc help.owner).seq = help.seq → (w.desc tid).state ≠ .undecided ∧
        (b = true ↔ (w.desc tid).state = .succeeded) := by
        intro now
        obtain ⟨args', phase⟩ := (helped .idle nofun fun _ _ => rfl).ended b rfl now
        have ok := (inv.helps tid help here).phase (by rw [owner]; exact number.symm)
        rw [phase, owner] at ok
        exact ok.2
      have touched := (helped .idle nofun fun _ _ => rfl).touched
      obtain ⟨decided, value⟩ :=
        current (by rw [owner]; exact (touched tid).flags.1.trans number.symm)
      have same : next.desc tid = w.desc tid := (touched tid).resolve_right fun other =>
        decided other.2.1
      cases b with
      | true =>
          refine inv.helping (helped _ nofun fun _ _ => rfl) ⟨?_, fun _ member => member,
            fun _ member => .inl member⟩ trivial trivial
          show (next.desc tid).Done u args.old1
          rw [same]
          exact ⟨odd, ⟨args, written, rfl⟩, value.mp rfl⟩
      | false =>
          refine inv.helping (helped _ nofun fun _ _ => rfl) ?_ trivial trivial
          show (next.desc tid).Rest
          rw [same]
          exact ⟨odd, fun succeeded => Bool.noConfusion (value.mpr succeeded), fun _ => decided⟩

theorem Inv.update {stage : Stage A V T N} (pc : w.pc tid = .update u stage)
    (moved : updateMove w tid u stage = some after) : Inv after := by
  have good := inv.threads tid
  rw [pc] at good
  cases stage with
  | readTime =>
      simp only [updateMove] at moved
      split at moved <;> cases moved
      · exact inv.rests rfl good trivial trivial
      · exact inv.rests rfl good trivial trivial
  | readAddr old1 =>
      simp only [updateMove] at moved
      split at moved <;> cases moved
      · exact inv.rests rfl good trivial trivial
      · rename_i owner seq tag
        exact inv.meets tag rfl good (fun yes => yes) trivial
  | readHelp old1 help => exact inv.readHelp pc moved
  | descNew args =>
      cases moved
      exact inv.descNew pc
  | fill args =>
      cases moved
      exact inv.fill pc
  | initialized args =>
      cases moved
      exact inv.initialized pc
  | install args => exact inv.installMove pc moved
  | installHelp args help => exact inv.installHelp pc moved
  | own args help => exact inv.own pc moved
  | setInsertionTimestamps old1 rest =>
      cases rest with
      | nil =>
          cases moved
          refine inv.rests rfl ⟨good.1, fun _ member => member, fun node member => ?_,
            fun _ member => .inl member⟩ trivial trivial
          exact (good.2.2 node member).resolve_left List.not_mem_nil
      | cons node rest =>
          cases moved
          exact inv.setItime pc
  | setDeletionTimestamps old1 rest =>
      cases rest with
      | nil =>
          cases moved
          obtain ⟨⟨odd, ⟨args, written, _⟩, succeeded⟩, _, births, deaths⟩ := good
          refine inv.rests rfl ⟨odd, succeeded,
            fun node member => births node (written.payload1 ▸ member), fun node member => ?_⟩
            trivial trivial
          exact (deaths node (written.payload2 ▸ member)).resolve_left List.not_mem_nil
      | cons node rest =>
          cases moved
          exact inv.setDtime pc
  | discardPayload1 =>
      cases moved
      exact inv.discardPayload1 pc
  | discardPayload2 =>
      cases moved
      exact inv.discardPayload2 pc

end Updates

end Steps

end SetBench.DcsspQuery
