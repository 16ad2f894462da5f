import SetBench.DcsspQueryUpdate

/-! The steps of traversal_start and __traversal_try_add, and what a query decides. -/
namespace SetBench.DcsspQuery

open Transition
open RangeQuery (Update)

variable {A V T N : Type} [DecidableEq T]

-- A helper that has read the timestamp works for an installed dcssp.
omit [DecidableEq T] in
theorem Inv.pending_installed {w : World A V T N} (inv : Inv w) {p : T}
    (pending : w.pending p (w.desc p).seq) : (w.desc p).installed = true := by
  obtain ⟨v, help, here, rfl, number, promises⟩ := pending
  have ok := (inv.helps v help here).phase number.symm
  cases phase : help.phase with
  | copy | check | readTime | finish =>
      rw [phase] at promises
      cases promises
  | readMutables args succeeds | cas args succeeds =>
      rw [phase] at ok promises
      exact (ok.2 promises).1

-- A thread between two dcssp operations has nothing to hide.
omit [DecidableEq T] in
theorem Inv.rest_clear {w : World A V T N} (inv : Inv w) {t : T} (rest : (w.desc t).Rest)
    (node : N) (time : Nat) (kind : Kind) :
    w.shared.Clear t node time kind := by
  cases kind with
  | insertion =>
      rintro ⟨_, succeeded, member⟩
      have member : node ∈ (w.desc t).payload1 := member
      rw [(rest.2.1 succeeded).1] at member
      cases member
  | deletion =>
      rintro ⟨_, member, _, succeeded | ⟨undecided, pending⟩⟩
      · have member : node ∈ (w.desc t).payload2 := member
        rw [(rest.2.1 succeeded).2] at member
        cases member
      · exact rest.2.2 (inv.pending_installed pending) undecided

section Steps

variable {w : World A V T N} (inv : Inv w) {tid : T} {time : Nat} {node : N} {found : Bool}
    {try_ : Try A V T N}
  (pc : w.pc tid = .trying time node found try_) (asks : Asks w.shared node time)

include inv pc

-- The query reads something and goes on.
theorem Inv.look {next : Try A V T N} (ok : next.Ok w.shared node time found)
    (asks : Asks w.shared node time)
    (quiet : (Pc.trying time node found next : Pc A V T N).help = none) :
    Inv (w.goto tid (.trying time node found next)) := by
  have good := inv.threads tid
  rw [pc] at good
  refine inv.goto good (fun h same => ?_) trivial ⟨asks, ok⟩ (fun h same => ?_)
  · rw [quiet] at same
    cases same
  · rw [quiet] at same
    cases same

include asks

theorem Inv.decideNode {used : Bool} (ok : Decision.Ok w.shared ⟨time, node, found, used⟩) :
    Inv (decideNode w tid time node found used) := by
  have good := inv.threads tid
  rw [pc] at good
  have later : Later w.shared (DcsspQuery.decideNode w tid time node found used).shared := by
    refine Later.still rfl rfl rfl (Nat.le_refl _) (fun _ some_ => some_) (fun _ some_ => some_)
      (fun v apart => Function.update_of_ne apart ..)
      fun h same => ?_
    rw [DcsspQuery.decideNode, goto_self] at same
    cases same
  refine inv.advance tid ⟨inv.facts.positive, inv.facts.done, inv.facts.bornSet, inv.facts.diedSet,
    inv.facts.itime, inv.facts.dtime, inv.facts.within,
    inv.facts.words, inv.facts.tags⟩ later
      (fun v apart => ⟨Function.update_of_ne apart .., .inl rfl⟩) (fun d member => ?_) ?_ ?_ ?_ ?_
  · rcases List.mem_cons.mp member with rfl | old
    · exact .inr (later.decision ok)
    · exact .inl old
  · rw [DcsspQuery.decideNode, goto_self]
    exact good
  · rw [DcsspQuery.decideNode, goto_self]
    nofun
  · rw [DcsspQuery.decideNode, goto_self]
    trivial
  · rw [DcsspQuery.decideNode, goto_self]
    exact ⟨asks.positive, asks.past⟩

theorem Inv.skip (late : time ≤ w.born node) :
    Inv (DcsspQuery.decideNode w tid time node found false) :=
  inv.decideNode pc asks ⟨asks, nofun, fun _ => .inl late⟩

theorem Inv.proceed (early : w.born node < time) : Inv (proceed w tid time node found) := by
  rw [DcsspQuery.proceed]
  split
  · rename_i traversed
    exact inv.decideNode pc asks ⟨asks, fun _ => ⟨early, .inl traversed⟩, nofun⟩
  · rename_i missed
    exact inv.look pc ⟨early, by simpa using missed⟩ asks rfl

-- The node is deleted at a known time.
theorem Inv.deleted (ready : Kind.deletion.Ready w.shared node time found)
    (dead : w.died node ≠ 0) :
    Inv (DcsspQuery.decideNode w tid time node found (time ≤ w.died node)) := by
  refine inv.decideNode pc asks ⟨asks, fun used => ⟨ready.1, .inr (.inl ⟨dead, ?_⟩)⟩,
    fun skipped => .inr ⟨ready.2, dead, ?_⟩⟩
  · show time ≤ w.died node
    simpa using used
  · show w.died node < time
    simpa using skipped

theorem Inv.known {kind : Kind} {p : T} {args : Args A V}
    (ready : kind.Ready w.shared node time found) (succeeded : (w.desc p).state = .succeeded)
    (same : args = (w.desc p).args) (named : node ∈ (w.desc p).full kind) :
    Inv (known w tid time node found args.old1 kind) := by
  obtain ⟨positive, births, deaths⟩ := inv.facts.done p succeeded
  rw [same]
  cases kind with
  | insertion =>
      have born : w.born node = (w.desc p).args.old1 := births node named
      simp only [DcsspQuery.known]
      rw [← born]
      split
      · rename_i late
        exact inv.skip pc asks late
      · rename_i early
        exact inv.proceed pc asks (by omega)
  | deletion =>
      have died : w.died node = (w.desc p).args.old1 := deaths node named
      simp only [DcsspQuery.known]
      rw [← died]
      exact inv.deleted pc asks ready (by omega)

-- The process is out of the question, and the loop goes on.
theorem Inv.next {kind : Kind} {p : T} {others : List T}
    (ready : kind.Ready w.shared node time found)
    (swept : ∀ q, q = p ∨ q ∈ others ∨ w.shared.Clear q node time kind)
    (clear : w.shared.Clear p node time kind) :
    Inv (w.goto tid (.trying time node found (.loop kind others))) := by
  refine inv.look pc ⟨ready, fun q => ?_⟩ asks rfl
  rcases swept q with rfl | ahead | done
  · exact .inr clear
  · exact .inl ahead
  · exact .inr done

end Steps

omit [DecidableEq T] in
theorem clear_of_failed {s : Shared A V T N} {p : T} {node : N} {time : Nat} {kind : Kind}
    (failed : (s.desc p).state = .failed) :
    s.Clear p node time kind := by
  cases kind with
  | insertion =>
      rintro ⟨_, succeeded, _⟩
      rw [failed] at succeeded
      cases succeeded
  | deletion =>
      rintro ⟨_, _, _, succeeded | ⟨undecided, _⟩⟩
      · rw [failed] at succeeded
        cases succeeded
      · rw [failed] at undecided
        cases undecided

omit [DecidableEq T] in
theorem clear_of_even {s : Shared A V T N} {p : T} {node : N} {time : Nat} {kind : Kind}
    (even : ¬ (s.desc p).seq % 2 = 1) :
    s.Clear p node time kind := by
  cases kind with
  | insertion => exact fun inserts => even inserts.1
  | deletion => exact fun risk => even risk.1

omit [DecidableEq T] in
theorem clear_of_absent {s : Shared A V T N} {p : T} {node : N} {time : Nat} {kind : Kind}
    (absent : node ∉ (s.desc p).payload kind) :
    s.Clear p node time kind := by
  cases kind with
  | insertion => exact fun inserts => absent inserts.2.2
  | deletion => exact fun risk => absent risk.2.1

section Look

variable [DecidableEq A] [DecidableEq V] [DecidableEq N] {w : World A V T N} (inv : Inv w) {tid : T}
    {time : Nat} {node : N} {found : Bool}
  {kind : Kind} {p : T} {others : List T}

include inv

-- A step of the help that a query gives.
theorem Inv.helpQuery {seq : Nat} {args : Args A V} {help : Help A V T} {after : World A V T N}
    (pc : w.pc tid = .trying time node found (.look kind p others (.help seq args help)))
    (careful : (w.pc tid).Careful w)
    (moved : lookMove w tid time node found kind p others (.help seq args help) = some after) :
    Inv after := by
  have good := inv.threads tid
  have here : (w.pc tid).help = some help := by rw [pc]; rfl
  have ok := inv.queries tid
  rw [pc] at good ok careful
  obtain ⟨asks, ready, swept, current, named, owner, low, settled⟩ := ok
  obtain ⟨owner', number, place⟩ := help
  obtain rfl : owner' = p := owner
  obtain ⟨⟨next, result⟩, stepped, rfl⟩ := Option.map_eq_some_iff.mp moved
  have seen (args' : Args A V) (phase : place = .readTime args')
    (now : (w.desc owner').seq = number) (time' : w.timestamp = args'.old1) :
      (w.desc owner').installed = true := by
    rw [phase] at careful
    exact careful now time'
  have helped := inv.helped here seen stepped
  have helpOk := inv.helps tid _ here
  cases result with
  | inl phase =>
      have helped := helped (.trying time node found
        (.look kind owner' others (.help seq args ⟨owner', number, phase⟩)))
        (fun _ same => by cases same; rfl) nofun
      have later := helped.later
      refine inv.helping helped (Desc.Rest.touched good (helped.touched tid)) trivial
        ⟨later.still_asks asks, later.ready asks ready,
        fun q => (swept q).imp_right (Or.imp_right (later.clear asks.born asks.past)),
          later.still_current asks current, later.named current named,
        rfl, low, fun args' succeeded same now undecided => ?_⟩
      have new := helped.ok ⟨owner', number, phase⟩ rfl
      have le : number ≤ (next.desc owner').seq := new.le
      have now : (next.desc owner').seq = seq := now
      have low : seq ≤ number := low
      have same : phase = .finish args' succeeded := same
      have facts := new.phase (show (next.desc owner').seq = number by omega)
      rw [same] at facts
      exact (facts.2.1 undecided).elim
  | inr b =>
      have helped := helped (.trying time node found (.look kind owner' others (.state2 seq args)))
        nofun fun _ _ => rfl
      have later := helped.later
      refine inv.helping helped (Desc.Rest.touched good (helped.touched tid)) trivial
        ⟨later.still_asks asks, later.ready asks ready,
        fun q => (swept q).imp_right (Or.imp_right (later.clear asks.born asks.past)),
          later.still_current asks current, later.named current named,
        fun now undecided => ?_⟩
      have le : number ≤ (w.desc owner').seq := helpOk.le
      have grows : (w.desc owner').seq ≤ (next.desc owner').seq := later.seq owner'
      have now' : (next.desc owner').seq = seq := now
      have low : seq ≤ number := low
      obtain ⟨args', phase⟩ := helped.ended b rfl (show (next.desc owner').seq = number by omega)
      exact later.settled asks current (settled args' b phase) now undecided

theorem Inv.lookMove {look : Look A V T N} {after : World A V T N}
    (pc : w.pc tid = .trying time node found (.look kind p others look))
    (careful : (w.pc tid).Careful w)
    (moved : lookMove w tid time node found kind p others look = some after) : Inv after := by
  have ok := inv.queries tid
  rw [pc] at ok
  obtain ⟨asks, ready, swept, looks⟩ := ok
  cases look with
  | tagptr =>
      simp only [DcsspQuery.lookMove] at moved
      split at moved <;> cases moved
      · rename_i odd
        exact inv.look pc ⟨ready, swept, odd, Nat.le_refl _, fun apart => (apart rfl).elim⟩ asks rfl
      · rename_i even
        exact inv.next pc asks ready swept (clear_of_even even)
  | mutables seq =>
      cases moved
      exact inv.look pc ⟨ready, swept, looks, fun _ => ⟨fun same => same, fun same => same⟩⟩
        asks rfl
  | args seq state =>
      cases moved
      exact inv.look pc ⟨ready, swept, looks.1, fun now => ⟨looks.2 now, rfl⟩⟩ asks rfl
  | payload seq state args =>
      cases moved
      refine inv.look pc ⟨ready, swept, looks.1,
        fun now => ⟨looks.2 now, fun member => ?_, fun absent => absent⟩⟩ asks rfl
      have within := inv.facts.within p
      cases kind with
      | insertion => exact within.1 member
      | deletion => exact within.2 member
  | check seq state args payload =>
      obtain ⟨current, facts⟩ := looks
      simp only [DcsspQuery.lookMove] at moved
      split at moved
      · rename_i valid
        obtain ⟨⟨seen, same⟩, listed, _⟩ := facts valid.1
        split at moved <;> cases moved
        · exact inv.next pc asks ready swept (clear_of_failed (seen.1 rfl))
        · exact inv.known pc asks ready (seen.2 rfl) same (listed valid.2)
        · exact inv.look pc ⟨ready, swept, current,
            fun now => ⟨(facts now).1.2, (facts now).2.1 valid.2⟩⟩ asks rfl
      · rename_i invalid
        cases moved
        refine inv.next pc asks ready swept ?_
        by_cases now : (w.desc p).seq = seq
        · exact clear_of_absent ((facts now).2.2 fun member => invalid ⟨now, member⟩)
        · exact current.other now
  | addr2 seq args =>
      obtain ⟨current, named⟩ := looks
      simp only [DcsspQuery.lookMove] at moved
      split at moved <;> cases moved
      · exact inv.look pc ⟨ready, swept, current, named⟩ asks rfl
      · rename_i gone
        refine inv.look pc ⟨ready, swept, current, named, fun now undecided => ?_⟩ asks rfl
        have undecided : (w.desc p).state = .undecided := undecided
        cases kind with
        | insertion =>
            rintro ⟨_, succeeded, _⟩
            rw [show (w.desc p).state = .succeeded from succeeded] at undecided
            cases undecided
        | deletion =>
            rintro ⟨_, _, _, succeeded | ⟨_, pending⟩⟩
            · rw [show (w.desc p).state = .succeeded from succeeded] at undecided
              cases undecided
            · have tag := inv.facts.words p (inv.pending_installed pending) undecided
              rw [show (w.desc p).args = args from (named now).1.symm, show (w.desc p).seq = seq
                from now] at tag
              exact gone tag
  | helpProcess seq args =>
      obtain ⟨current, named⟩ := looks
      have good := inv.threads tid
      rw [pc] at good
      simp only [DcsspQuery.lookMove] at moved
      split at moved <;> cases moved
      · rename_i odd
        refine inv.goto good (fun h same => ?_) trivial ⟨asks, ready, swept, current, named, rfl,
          current.le, nofun⟩ (fun h same promises => ?_)
        · cases same
          exact ⟨Nat.le_refl _, odd, fun _ => trivial⟩
        · cases same
          cases promises
      · rename_i even
        refine inv.look pc ⟨ready, swept, current, named, fun now _ => ?_⟩ asks rfl
        have odd := current.odd
        have now : (w.desc p).seq = seq := now
        omega
  | help seq args help => exact inv.helpQuery pc careful moved
  | state2 seq args =>
      obtain ⟨current, named, settled⟩ := looks
      simp only [DcsspQuery.lookMove] at moved
      split at moved <;> cases moved
      · rename_i valid
        exact inv.known pc asks ready valid.2 (named valid.1).1 (named valid.1).2
      · rename_i invalid
        refine inv.next pc asks ready swept ?_
        by_cases now : (w.desc p).seq = seq
        · cases state : (w.desc p).state with
          | undecided => exact settled now state
          | failed => exact clear_of_failed state
          | succeeded => exact (invalid ⟨now, state⟩).elim
        · exact current.other now

omit [DecidableEq A] [DecidableEq V] [DecidableEq N] in
-- At the start of a loop: the thread itself is no question.
theorem Inv.others_swept (config : Config T) (rest : (w.desc tid).Rest) (q : T) :
    q ∈ config.others tid ∨ w.shared.Clear q node time kind := by
  by_cases self : q = tid
  · rw [self]
    exact .inr (inv.rest_clear rest node time kind)
  · exact .inl (List.mem_filter.mpr ⟨config.all q, by simpa using self⟩)

theorem Inv.tryMove {config : Config T} {try_ : Try A V T N} {after : World A V T N}
    (pc : w.pc tid = .trying time node found try_) (careful : (w.pc tid).Careful w)
    (moved : tryMove config w tid time node found try_ = some after) : Inv after := by
  have rest := inv.threads tid
  have ok := inv.queries tid
  rw [pc] at ok rest
  obtain ⟨asks, ok⟩ := ok
  have facts := inv.facts
  have swept (kind : Kind) (q : T) : q ∈ config.others tid ∨ w.shared.Clear q node time kind :=
    inv.others_swept config rest q
  cases try_ with
  | itime =>
      cases moved
      exact inv.look pc (fun some_ => some_) asks rfl
  | itimeAgain seen =>
      simp only [DcsspQuery.tryMove] at moved
      split at moved <;> cases moved
      · rename_i late
        have born := facts.itime node (ok late.1)
        exact inv.skip pc asks (by omega)
      · exact inv.look pc ⟨trivial, swept .insertion⟩ asks rfl
  | loop kind others =>
      obtain ⟨ready, clear⟩ := ok
      cases kind with
      | insertion =>
          simp only [DcsspQuery.tryMove] at moved
          split at moved
          · rename_i unset
            cases others with
            | nil =>
                -- A node that was inserted and has no itime is still named by its inserter.
                obtain ⟨p, inserts, _⟩ := facts.bornSet node asks.born unset
                exact ((clear p).resolve_left List.not_mem_nil inserts).elim
            | cons p others =>
                cases moved
                refine inv.look pc ⟨trivial, fun q => ?_, trivial⟩ asks rfl
                exact (clear q).elim (fun member => (List.mem_cons.mp member).imp_right .inl)
                  fun done => .inr (.inr done)
          · rename_i set
            have born := facts.itime node set
            split at moved <;> cases moved
            · exact inv.skip pc asks (by omega)
            · exact inv.proceed pc asks (by omega)
      | deletion =>
          simp only [DcsspQuery.tryMove] at moved
          split at moved
          · rename_i unset
            cases others with
            | nil =>
                cases moved
                refine inv.decideNode pc asks ⟨asks, fun _ => ⟨ready.1, .inr ?_⟩, nofun⟩
                have risk (p : T) : ¬ w.shared.Risk p node time :=
                  (clear p).resolve_left List.not_mem_nil
                by_cases dead : w.died node = 0
                · exact .inr ⟨dead, risk⟩
                · refine .inl ⟨dead, ?_⟩
                  obtain ⟨p, odd, succeeded, member, value⟩ := facts.diedSet node dead unset
                  by_contra early
                  have early : ¬ time ≤ w.died node := early
                  refine risk p ⟨odd, member, ?_, .inl succeeded⟩
                  show (w.desc p).args.old1 < time
                  omega
            | cons p others =>
                cases moved
                refine inv.look pc ⟨ready, fun q => ?_, trivial⟩ asks rfl
                exact (clear q).elim (fun member => (List.mem_cons.mp member).imp_right .inl)
                  fun done => .inr (.inr done)
          · rename_i set
            have died := facts.dtime node set
            cases moved
            rw [died]
            exact inv.deleted pc asks ready (by omega)
  | look kind p others look => exact inv.lookMove pc careful moved
  | dtime =>
      simp only [DcsspQuery.tryMove] at moved
      split at moved <;> cases moved
      · rename_i early
        have died := facts.dtime node early.1
        refine inv.decideNode pc asks ⟨asks, nofun, fun _ => .inr ⟨ok.2, ?_, ?_⟩⟩
        · show w.died node ≠ 0
          omega
        · show w.died node < time
          omega
      · exact inv.look pc ⟨ok, swept .deletion⟩ asks rfl

end Look

omit [DecidableEq T] in
theorem initial_inv (mem : A → V) (args : Args A V) : Inv (initial mem args : World A V T N) where
  facts := ⟨Nat.one_pos, nofun, fun _ some_ => (some_ rfl).elim, fun _ some_ => (some_ rfl).elim,
    fun _ some_ => (some_ rfl).elim,
    fun _ some_ => (some_ rfl).elim, fun _ => ⟨fun _ member => member, fun _ member => member⟩,
      nofun, nofun⟩
  threads := fun _ => ⟨rfl, nofun, nofun⟩
  helps := nofun
  sees := fun _ => trivial
  queries := fun _ => trivial
  decisions := nofun

theorem step_inv [DecidableEq A] [DecidableEq V] [DecidableEq N] (config : Config T)
    (before : World A V T N) (event : Event A V T N) (after : World A V T N) (inv : Inv before)
    (careful : Careful before event) (stepped : step config before event = some after) :
    Inv after := by
  cases event with
  | update tid u =>
      obtain ⟨idle, ⟨⟩⟩ := Option.ite_none_right_eq_some.mp stepped
      have good := inv.threads tid
      rw [idle] at good
      exact inv.goto good nofun trivial trivial nofun
  | traversalStart tid =>
      obtain ⟨idle, ⟨⟩⟩ := Option.ite_none_right_eq_some.mp stepped
      have good := inv.threads tid
      rw [idle] at good
      have facts := inv.facts
      have later : Later before.shared
          ({ before with timestamp := before.timestamp + 1 }.goto tid
            (.query (before.timestamp + 1)) : World A V T N).shared := by
        refine Later.still rfl rfl rfl (Nat.le_succ _) (fun _ some_ => some_) (fun _ some_ => some_)
          (fun v apart => Function.update_of_ne apart ..)
          fun h same => ?_
        rw [goto_self] at same
        cases same
      refine inv.advance tid ⟨Nat.succ_pos _, facts.done, facts.bornSet, facts.diedSet, facts.itime,
        facts.dtime, facts.within, facts.words, facts.tags⟩
        later (fun v apart => ⟨Function.update_of_ne apart .., .inl rfl⟩)
          (fun d member => .inl member) ?_ ?_ ?_ ?_
      · rw [goto_self]
        exact good
      · rw [goto_self]
        nofun
      · rw [goto_self]
        trivial
      · rw [goto_self]
        exact ⟨Nat.succ_pos _, Nat.le_refl _⟩
  | tryAdd tid node found =>
      simp only [step] at stepped
      split at stepped
      · rename_i time pc
        obtain ⟨born, ⟨⟩⟩ := Option.ite_none_right_eq_some.mp stepped
        have good := inv.threads tid
        have ok := inv.queries tid
        rw [pc] at good ok
        exact inv.goto good nofun trivial ⟨⟨born, ok.1, ok.2⟩, trivial⟩ nofun
      · cases stepped
  | traversalEnd tid =>
      simp only [step] at stepped
      split at stepped <;> cases stepped
      rename_i pc
      have good := inv.threads tid
      rw [pc] at good
      exact inv.goto good nofun trivial trivial nofun
  | move tid =>
      simp only [step, move] at stepped
      split at stepped
      · cases stepped
      · cases stepped
      · rename_i pc
        exact inv.update pc stepped
      · rename_i pc
        exact inv.tryMove pc careful stepped

-- A deletion that has succeeded and not yet set dtime belongs to an update that is under way.
omit [DecidableEq T] in
theorem Inv.deleter {w : World A V T N} (inv : Inv w) {node : N} (dead : w.died node ≠ 0)
    (unset : w.dtime node = 0) :
    ∃ t u stage, w.pc t = .update u stage ∧ (w.desc t).state = .succeeded ∧
      node ∈ u.deletedNodes := by
  obtain ⟨p, odd, succeeded, member, _⟩ := inv.facts.diedSet node dead unset
  have good := inv.threads p
  have rest (rest : (w.desc p).Rest) : False := by
    rw [(rest.2.1 succeeded).2] at member
    cases member
  cases place : w.pc p with
  | idle | query | trying =>
      rw [place] at good
      exact (rest good).elim
  | update u stage =>
      rw [place] at good
      have named (payload : (w.desc p).payload2 = u.deletedNodes) :
          ∃ t u stage, w.pc t = .update u stage ∧ (w.desc t).state = .succeeded ∧
            node ∈ u.deletedNodes :=
        ⟨p, u, stage, place, succeeded, payload ▸ member⟩
      cases stage with
      | readTime | readAddr | readHelp | descNew => exact (rest good).elim
      | fill args | initialized args =>
          have undecided : (w.desc p).state = .undecided := good.2.1
          rw [succeeded] at undecided
          cases undecided
      | install args | installHelp args help => exact (good.2.1 succeeded).elim
      | own args help => exact named good.2.2.1.payload2
      | setInsertionTimestamps old1 nodes | setDeletionTimestamps old1 nodes =>
          obtain ⟨_, ⟨args, written, _⟩, _⟩ := good.1
          exact named written.payload2
      | discardPayload1 | discardPayload2 => exact (good.2.2.2 node member unset).elim

omit [DecidableEq T] in
theorem Decision.Ok.used_iff_of_died {s : Shared A V T N} {d : Decision N} (ok : d.Ok s)
    (dead : s.died d.node ≠ 0) :
    d.used = true ↔ s.born d.node < d.rqLinTime ∧
      (d.foundDuringTraversal = true ∨ d.rqLinTime ≤ s.died d.node) := by
  constructor
  · intro yes
    obtain ⟨early, reason⟩ := ok.used yes
    refine ⟨early, reason.imp_right fun spared => ?_⟩
    rcases spared with ⟨_, late⟩ | ⟨alive, _⟩
    · exact late
    · exact (dead alive).elim
  · rintro ⟨early, reason⟩
    by_contra no
    rcases ok.skipped (by simpa using no) with late | ⟨missed, _, before⟩
    · omega
    · rcases reason with found | late
      · rw [missed] at found
        cases found
      · omega

omit [DecidableEq T] in
theorem Decision.Ok.used_iff_of_alive {s : Shared A V T N} {d : Decision N} (ok : d.Ok s)
    (alive : s.died d.node = 0) :
    d.used = true ↔ s.born d.node < d.rqLinTime := by
  constructor
  · exact fun yes => (ok.used yes).1
  · intro early
    by_contra no
    rcases ok.skipped (by simpa using no) with late | ⟨_, dead, _⟩
    · omega
    · exact dead alive

/-- The decision agrees with the values of itime and dtime: once both are set, and also while
dtime is unset and no update has taken the node out of the structure. -/
def Decision.Follows (w : World A V T N) (d : Decision N) : Prop :=
  (w.itime d.node ≠ 0 → w.dtime d.node ≠ 0 →
      (d.used = true ↔ w.itime d.node < d.rqLinTime ∧
        (d.foundDuringTraversal = true ∨ d.rqLinTime ≤ w.dtime d.node)))
    ∧ (w.itime d.node ≠ 0 → w.dtime d.node = 0 →
      (∀ t u stage, w.pc t = .update u stage → (w.desc t).state = .succeeded →
        d.node ∉ u.deletedNodes) →
      (d.used = true ↔ w.itime d.node < d.rqLinTime))

/-- Every decision of every query agrees with the timestamps that the nodes are given, in every
run in which helpProcess reads no timestamp for a dcssp that is not yet installed. -/
theorem decisions_follow_timestamps [DecidableEq A] [DecidableEq V] [DecidableEq N]
    {config : Config T} {mem : A → V} {args : Args A V} {events : List (Event A V T N)}
    {w : World A V T N} (run : Run (step config) Careful (initial mem args) events w)
    {d : Decision N} (member : d ∈ w.decisions) : d.Follows w := by
  have inv : Inv w := run_invariant Inv (initial_inv mem args) (step_inv config) run
  have ok := inv.decisions d member
  refine ⟨fun itime dtime => ?_, fun itime dtime calm => ?_⟩
  · have dead : w.died d.node ≠ 0 := by
      rw [← inv.facts.dtime d.node dtime]
      exact dtime
    rw [inv.facts.itime d.node itime, inv.facts.dtime d.node dtime]
    exact ok.used_iff_of_died dead
  · have alive : w.died d.node = 0 := by
      by_contra dead
      obtain ⟨t, u, stage, pc, succeeded, gone⟩ := inv.deleter dead dtime
      exact calm t u stage pc succeeded gone
    rw [inv.facts.itime d.node itime]
    exact ok.used_iff_of_alive alive

instance [DecidableEq A] [DecidableEq V] [DecidableEq N] (w : World A V T N) (pc : Pc A V T N) :
    Decidable (pc.Careful w) := by
  unfold Pc.Careful
  split <;> infer_instance

instance [DecidableEq A] [DecidableEq V] [DecidableEq N] (w : World A V T N)
    (event : Event A V T N) : Decidable (Careful w event) :=
  match event with
  | .move tid => inferInstanceAs (Decidable ((w.pc tid).Careful w))
  | .update _ _ | .traversalStart _ | .tryAdd _ _ _ | .traversalEnd _ => .isTrue trivial

def three : Config (Fin 3) := ⟨[0, 1, 2], by decide⟩

def empty : World Nat Nat (Fin 3) Nat := initial (fun _ => 0) ⟨0, 0, 0, 0⟩

def moves (tid : Fin 3) (count : Nat) : List (Event Nat Nat (Fin 3) Nat) :=
  List.replicate count (.move tid)

-- Thread 0 inserts 1 and deletes it again after thread 1 has begun a query, which learns from the
-- descriptor that the deletion came after it; then thread 0 sets the dtime.
def readsDescriptor : List (Event Nat Nat (Fin 3) Nat) :=
  [[.update 0 ⟨0, none, 1, [1], []⟩], moves 0 15,
    [.traversalStart 1, .update 0 ⟨0, some 1, 5, [], [1]⟩], moves 0 10, [.tryAdd 1 1 false],
    moves 1 10,
    moves 0 1].flatten

theorem descriptor_decides :
    ∃ w, Run (step three) Careful empty readsDescriptor w ∧ ⟨2, 1, false, true⟩ ∈ w.decisions ∧
      w.itime 1 = 1 ∧ w.dtime 1 = 2
    ∧ (true = true ↔ 1 < 2 ∧ (false = true ∨ 2 ≤ 2)) := by
  have replayed : (replay (step three) Careful readsDescriptor empty).map
    (fun w => (w.decisions, w.itime 1, w.dtime 1)) =
      some ([⟨2, 1, false, true⟩], 1, 2) := by
    decide +kernel
  obtain ⟨w, same, values⟩ := Option.map_eq_some_iff.mp replayed
  simp only [Prod.mk.injEq] at values
  obtain ⟨decisions, itime, dtime⟩ := values
  have run := run_of_replay readsDescriptor same
  have member : ⟨2, 1, false, true⟩ ∈ w.decisions := by
    rw [decisions]
    exact List.mem_cons_self
  have follows := (decisions_follow_timestamps run member).1 (by rw [itime]; decide)
    (by rw [dtime]; decide)
  rw [itime, dtime] at follows
  exact ⟨w, run, member, itime, dtime, follows⟩

-- Thread 2 inserts 1 and 2. A query of thread 1 finds the deletion of 1 by thread 0 in addr2;
-- thread 0 completes it and describes its next dcssp, which shall delete 2. helpProcess then
-- lets that dcssp succeed before it is installed. Thread 2 changes the word first, so that the
-- dcssp fails, and the next query of thread 1 takes 2 for deleted.
def helpsTooEarly : List (Event Nat Nat (Fin 3) Nat) :=
  [[.update 2 ⟨0, none, 1, [1, 2], []⟩], moves 2 16,
    [.traversalStart 1, .update 0 ⟨0, some 1, 5, [], [1]⟩], moves 0 5, [.tryAdd 1 1 false],
    moves 1 11,
    moves 0 9, [.update 0 ⟨1, some 0, 7, [], [2]⟩], moves 0 4, moves 1 9,
      [.update 2 ⟨1, some 0, 9, [3], []⟩], moves 2 14, moves 0 1,
    [.traversalEnd 1, .traversalStart 1, .tryAdd 1 2 false], moves 1 10].flatten

theorem early_help_misleads :
    ¬ ∀ (events : List (Event Nat Nat (Fin 3) Nat)) (w : World Nat Nat (Fin 3) Nat)
      (d : Decision Nat),
    Run (step three) free empty events w → d ∈ w.decisions → d.Follows w := by
  intro always
  have replayed : (replay (step three) free helpsTooEarly empty).map (fun w =>
      (w.decisions.head?, w.itime 2, w.dtime 2,
        decide (w.pc 0 = .idle ∧ w.pc 1 = .query 3 ∧ w.pc 2 = .idle))) =
      some (some ⟨3, 2, false, false⟩, 1, 0, true) := by
    decide +kernel
  obtain ⟨w, same, values⟩ := Option.map_eq_some_iff.mp replayed
  simp only [Prod.mk.injEq, decide_eq_true_eq] at values
  obtain ⟨decision, itime, dtime, first, second, third⟩ := values
  have follows := (always helpsTooEarly w ⟨3, 2, false, false⟩ (run_of_replay _ same)
    (List.mem_of_head? decision)).2 (by rw [itime]; decide) dtime
    (Fin.forall_fin_succ.mpr ⟨by rw [first]; nofun,
      Fin.forall_fin_two.mpr ⟨by rw [show Fin.succ 0 = (1 : Fin 3) from rfl, second]; nofun,
      by rw [show Fin.succ 1 = (2 : Fin 3) from rfl, third]; nofun⟩⟩)
  rw [itime] at follows
  exact absurd follows (by decide)

end SetBench.DcsspQuery
