import SetBench.ReaderSteps

/-! The writer's own steps, from `storeLoad` to `clear`, and with them every step of
the pointer and of the epoch structure. -/
namespace SetBench.VersionedPtr

open SetBench.Transition

variable {workers : Nat} {before after : State workers}

theorem store_next_inv {state : State workers} (inv : Inv state) (id : Fin workers) {new : Ptr}
    {old : Word} {object : Nat} (locked : state.writer = some id)
    (pc : state.pc id = .storeNext new old) (is : new.object = some object) :
    Inv
      { state.goto id (.camLoad new old) with next := Function.update state.next object old } := by
  have own := inv.writer id locked
  rw [pc] at own
  obtain ⟨fresh, steady, tracks⟩ := own
  have absent (index : Nat) (ptr : Ptr) (present : state.versions[index]? = some ptr) :
      ptr.object ≠ some object := by
    obtain ⟨mine, same, _, _, absent, _⟩ := fresh
    rw [is] at same
    cases same
    exact absent index ptr present
  have growth : Grows state
      { state.goto id (.camLoad new old) with next := Function.update state.next object old } :=
    grows_of_same rfl rfl rfl rfl
  have history : History
      { state.goto id (.camLoad new old) with next := Function.update state.next object old } := by
    have held := inv.history
    refine ⟨held.first, held.stored, held.distinct, held.known, ?_, held.stamped, held.bound,
      held.above⟩
    intro index ptr other present named
    have different : other ≠ object := by
      intro here
      exact absent _ ptr present (here ▸ named)
    simp only [Function.update_of_ne different]
    exact (held.chain index ptr other present named).grow growth
  refine writer_moves inv id locked growth rfl (fun _ different => goto_other _ _ different) rfl rfl
    (Nat.le_refl _) history inv.unused inv.durable locked (by rw [goto_self]; rfl) ?_
  simp only [goto_self]
  refine ⟨fresh, steady.keep growth rfl rfl rfl, tracks, fun other named => ?_⟩
  rw [is] at named
  cases named
  exact Function.update_self ..

theorem link_versions {state : State workers} {new ptr : Ptr} {id : Fin workers} {pc : Pc}
    {index : Nat} (present : ((state.link new).goto id pc).versions[index]? = some ptr) :
    state.versions[index]? = some ptr ∨ (index = state.versions.length ∧ ptr = new) := by
  simp only [State.goto, State.link, List.getElem?_append] at present
  split at present
  · exact Or.inl present
  · rename_i beyond
    rcases List.getElem?_eq_some_iff.mp present with ⟨bound, value⟩
    simp only [List.length_cons, List.length_nil, Nat.zero_add, Nat.lt_one_iff] at bound
    simp only [bound, List.getElem_cons_zero] at value
    exact Or.inr ⟨by omega, value.symm⟩

theorem link_grows {state : State workers} {new : Ptr} {id : Fin workers} {pc : Pc}
    (fresh : Fresh state new) :
    Grows state ((state.link new).goto id pc) := by
  obtain ⟨object, is, known, unstamped, absent, stores⟩ := fresh
  have kept (ptr : Ptr) (other : ptr.object ≠ some object) :
      ((state.link new).goto id pc).linkedOf ptr = state.linkedOf ptr := by
    cases mine : ptr.object with
    | none =>
        cases ptr with
        | null => rfl
        | node id | link id => cases mine
    | some theirs =>
        rw [linkedOf_object mine, linkedOf_object mine]
        simp only [State.goto, State.link, is]
        exact Function.update_of_ne (fun here => other (by rw [mine, here])) ..
  refine ⟨Nat.le_refl _, fun _ _ opened => Or.inl opened, ?_, ?_, ?_,
    fun _ _ stamped => stamped, ?_⟩
  · intro index ptr present
    have bound := (List.getElem?_eq_some_iff.mp present).1
    simpa [State.goto, State.link, List.getElem?_append_left bound] using present
  · intro index ptr present
    rcases link_versions present with old | ⟨_, rfl⟩
    · exact Or.inl old
    · refine Or.inr ⟨by rw [stampOf_object is]; exact unstamped, ?_⟩
      rw [linkedOf_object is]
      simp [State.goto, State.link, is]
  · intro index ptr present
    exact kept ptr (absent index ptr present)
  · intro index ptr stamp present none_ some_
    have same : ((state.link new).goto id pc).stampOf ptr = state.stampOf ptr := by
      cases ptr <;> rfl
    rw [same, none_] at some_
    cases some_

theorem link_history {state : State workers} {new : Ptr} {id : Fin workers} {pc : Pc}
    (history : History state) (fresh : Fresh state new) (steady : Steady state)
    (chained : ∀ object, new.object = some object → Shows state (state.next object)
      (state.versions.length - 1)) :
    History ((state.link new).goto id pc) := by
  have growth : Grows state ((state.link new).goto id pc) := link_grows fresh
  obtain ⟨object, is, known, unstamped, absent, stores⟩ := fresh
  have newest (place : Nat) (ptr : Ptr) (present : state.versions[place]? = some ptr) :
      place < state.versions.length := (List.getElem?_eq_some_iff.mp present).1
  have linked : ((state.link new).goto id pc).linkedOf new = state.epoch.clock := by
    rw [linkedOf_object is]
    simp [State.goto, State.link, is]
  have unset : ((state.link new).goto id pc).stampOf new = none := by
    rw [stampOf_object is]; exact unstamped
  refine ⟨?_, ?_, ?_, ?_, ?_, ?_, ?_, ?_⟩
  · obtain ⟨ptr, stamp, present, stamped, old⟩ := history.first
    exact ⟨ptr, stamp, growth.versions _ _ present, growth.stampOf stamped, old.grow growth⟩
  · intro index ptr present
    rcases link_versions present with old | ⟨_, rfl⟩
    · exact history.stored index ptr old
    · rintro rfl
      cases is
  · intro i j first second other here there firstIs secondIs
    rcases link_versions here with oldFirst | ⟨atFirst, rfl⟩ <;>
      rcases link_versions there with oldSecond | ⟨atSecond, rfl⟩
    · exact history.distinct i j first second other oldFirst oldSecond firstIs secondIs
    · rw [is] at secondIs
      cases secondIs
      exact absurd firstIs (absent i first oldFirst)
    · rw [is] at firstIs
      cases firstIs
      exact absurd secondIs (absent j second oldSecond)
    · rw [atFirst, atSecond]
  · intro index ptr other present named
    rcases link_versions present with old | ⟨_, rfl⟩
    · exact history.known index ptr other old named
    · rw [is] at named
      cases named
      exact known
  · intro index ptr other present named
    rcases link_versions present with old | ⟨last, rfl⟩
    · exact (history.chain index ptr other old named).grow growth
    · have place : index = state.versions.length - 1 := by omega
      rw [place]
      exact (chained other named).grow growth
  · intro index earlier ptr present later
    rcases link_versions later with old | ⟨last, rfl⟩
    · have before : state.versions[index]? = some earlier := by
        rcases link_versions present with held | ⟨at_, _⟩
        · exact held
        · have := newest _ _ old
          omega
      obtain ⟨stamp, stamped, bound⟩ := history.stamped index earlier ptr before old
      exact ⟨stamp, growth.stampOf stamped, by rw [growth.linked _ _ old]; exact bound⟩
    · have before : state.versions[index]? = some earlier := by
        rcases link_versions present with held | ⟨at_, _⟩
        · exact held
        · omega
      have place : index = state.versions.length - 1 := by omega
      obtain ⟨stamp, stamped⟩ := Option.ne_none_iff_exists'.mp (steady.2.2 earlier (place ▸ before))
      exact ⟨stamp, growth.stampOf stamped, by
        rw [linked]; exact (history.bound index earlier before).2 stamp stamped⟩
  · intro index ptr present
    rcases link_versions present with old | ⟨_, rfl⟩
    · obtain ⟨held, stamps⟩ := history.bound index ptr old
      refine ⟨by rw [growth.linked _ _ old]; exact held, fun stamp now => ?_⟩
      have same : ((state.link new).goto id pc).stampOf ptr = state.stampOf ptr := by
        cases ptr <;> rfl
      exact stamps stamp (same ▸ now)
    · refine ⟨by rw [linked]; exact Nat.le_refl _, fun stamp now => ?_⟩
      rw [unset] at now
      cases now
  · intro index ptr stamp present now
    rcases link_versions present with old | ⟨_, rfl⟩
    · have same : ((state.link new).goto id pc).stampOf ptr = state.stampOf ptr := by
        cases ptr <;> rfl
      rw [growth.linked _ _ old]
      exact history.above index ptr stamp old (same ▸ now)
    · rw [unset] at now
      cases now

-- The cam that takes effect, whether the first one or the one after a lost race.
theorem link_inv {state : State workers} (inv : Inv state) (id : Fin workers) {new : Ptr}
    (pc : Pc) (locked : state.writer = some id) (fresh : Fresh state new) (steady : Steady state)
    (chained : ∀ object, new.object = some object → Shows state (state.next object)
      (state.versions.length - 1))
    (stores : storing pc = true)
    (writer : Unstamped ((state.link new).goto id pc) new → WriterInv ((state.link new).goto id pc)
      id pc) :
    Inv ((state.link new).goto id pc) := by
  have growth : Grows state ((state.link new).goto id pc) := link_grows fresh
  refine writer_moves inv id locked growth rfl (fun _ different => goto_other _ _ different) rfl rfl
    (Nat.le_refl _) (link_history inv.history fresh steady chained) inv.unused
    (growth.versions _ _ inv.durable)
    locked (by rw [goto_self]; exact stores) ?_
  rw [goto_self]
  apply writer
  obtain ⟨object, is, known, unstamped, absent, started⟩ := fresh
  have positive : state.versions ≠ [] := by
    obtain ⟨ptr, _, present, _⟩ := inv.history.first
    intro empty
    rw [empty] at present
    cases present
  have length := List.length_pos_iff.mpr positive
  have flushed := steady.2.1
  refine ⟨⟨rfl, ?_, ?_, ?_⟩, ?_, by rw [stampOf_object is]; exact unstamped⟩
  · simp [State.goto, State.link]
  · simp only [State.goto, State.link, started]
    exact (List.tail_append_of_ne_nil positive).symm
  · simp only [State.goto, State.link, List.length_append, List.length_cons, List.length_nil]
    omega
  · simp only [State.goto, State.link, List.length_append, List.length_cons, List.length_nil]
    omega


theorem afterStore_writer {state : State workers} {id : Fin workers} {new : Ptr}
    (signed : Signed state id new) :
    storing (afterStore new) = true ∧ WriterInv state id (afterStore new) := by
  simp only [afterStore]
  split
  · exact ⟨rfl, signed⟩
  · exact ⟨rfl, rfl, signed⟩

theorem writer_stamping {id : Fin workers} {new : Ptr} {place : StampPc} (inv : Inv before)
    (locked : before.writer = some id) (pc : before.pc id = .stampNew new place)
    (stepped : stampStep before id new place (.stampNew new) (afterStore new) = some after) :
    Inv after := by
  have own := inv.writer id locked
  rw [pc] at own
  obtain ⟨unstamped, placed⟩ := own
  obtain ⟨object, is⟩ := unstamped.1.object inv.history
  have unset := unstamped.2.2
  rw [stampOf_object is] at unset
  have busy : before.pc id ≠ .idle := by simp [pc]
  have resume (next : StampPc) (justified : Place before id new next) :
      Inv (before.goto id (.stampNew new next)) :=
    writer_goto inv id _ locked rfl ⟨unstamped, justified⟩
  cases place with
  | test =>
      simp only [stampStep, is, unset, if_true, Option.some.injEq] at stepped
      subst stepped
      exact resume _ trivial
  | call =>
      simp only [stampStep, is] at stepped
      obtain ⟨epoch, called, rfl⟩ := Option.map_eq_some_iff.mp stepped
      have thread := Epoch.callWriteStamp_thread called
      refine stamp_call_inv inv id _ (.callWriteStamp id) rfl trivial (by simp) called
        (by rw [pc]; rfl) busy
        trivial fun _ => ⟨unstamped, before.epoch.clock, by simp only [thread.2], ?_⟩
      exact (inv.history.bound _ _ unstamped.1.2.1).1
  | wait => simp [stampStep, is] at stepped
  | retest stamp =>
      simp only [stampStep, is, unset, if_true, Option.some.injEq] at stepped
      subst stepped
      exact resume _ placed
  | load stamp =>
      simp only [stampStep, is, unset, if_true, Option.some.injEq] at stepped
      subst stepped
      exact resume _ placed
  | exchange stamp =>
      simp only [stampStep, is, unset, if_true, Option.some.injEq] at stepped
      subst stepped
      obtain ⟨above, bound, member⟩ := placed
      rw [linkedOf_object is] at above
      have signed : Signed { before.goto id (afterStore new) with
          stamp := Function.update before.stamp object (some stamp) } id new := by
        refine ⟨unstamped.1, unstamped.2.1, stamp, ?_, member⟩
        rw [stampOf_object is]
        exact Function.update_self ..
      refine stamp_inv inv id _ object stamp unset (inv.history.known _ _ _ unstamped.1.2.1 is)
        above bound ?_
        busy (fun other => absurd locked other)
        (fun _ => ?_) fun _ => (afterStore_writer signed).2
      · rw [pc, (afterStore_writer signed).1]; rfl
      · simp only [afterStore]; split <;> trivial

/-- Here the write path would shortcut: the stamp was taken by the writer itself
since it announced, so it is above done_stamp and the test fails. -/
theorem path_test_fails {state : State workers} (inv : Inv state) {id : Fin workers} {new : Ptr}
    (busy : state.pc id ≠ .idle) (signed : Signed state id new) :
    atMost (state.stampOf new) state.epoch.doneStamp = false := by
  obtain ⟨_, _, stamp, stamped, member⟩ := signed
  have above := Epoch.done_lt_taken inv.epoch (inv.inside id busy) member
  rw [stamped]
  simp only [atMost, decide_eq_false_iff_not, Nat.not_le]
  exact above

theorem flush_inv {state : State workers} (inv : Inv state) (id : Fin workers) {new : Ptr}
    {shortcutted : Bool} (locked : state.writer = some id)
    (pc : state.pc id = .flush new shortcutted) :
    Inv { state.goto id (.clear new shortcutted) with
      persistent := state.word, durable := state.versions.length - 1 } := by
  have own := inv.writer id locked
  rw [pc] at own
  obtain ⟨plain, linked, flushed, stamp, stamped, member⟩ := own
  have growth : Grows state { state.goto id (.clear new shortcutted) with
      persistent := state.word, durable := state.versions.length - 1 } :=
        grows_of_same rfl rfl rfl rfl
  have later : state.durable ≤ state.versions.length - 1 := by omega
  refine writer_moves inv id locked growth rfl (fun _ different => goto_other _ _ different) rfl rfl
    later (inv.history.grow growth rfl rfl (Nat.le_refl _)) inv.unused ?_ locked
      (by rw [goto_self]; rfl) ?_
  · simp only [linked.1]
    exact linked.2.1
  · rw [goto_self]
    refine ⟨plain, linked, ?_, ?_⟩
    · change state.versions.length - 1 + 1 = state.versions.length
      omega
    · change state.stampOf new ≠ none
      rw [stamped]
      simp

theorem clear_inv {state : State workers} (inv : Inv state) (id : Fin workers) {new : Ptr}
    {shortcutted : Bool} (locked : state.writer = some id)
    (pc : state.pc id = .clear new shortcutted) :
    Inv { state.goto id .idle with
      writer := none, word := if new.isIndirect && shortcutted then state.word
        else clean new } := by
  have own := inv.writer id locked
  rw [pc] at own
  obtain ⟨rfl, linked, flushed, stamped⟩ := own
  simp only [Bool.and_false, Bool.false_eq_true, if_false]
  have growth : Grows state { state.goto id .idle with writer := none, word := clean new } :=
    grows_of_same rfl rfl rfl rfl
  refine assemble inv id growth inv.epoch (fun _ _ => rfl)
    (fun _ different => goto_other _ _ different)
    (fun _ _ => rfl) (Nat.le_refl _) (inv.history.grow growth rfl rfl (Nat.le_refl _)) inv.unused
    inv.durable
    ?_ (by simp) ?_ (by rw [goto_self]; trivial) (fun read member => Or.inl member)
      (by simp [State.goto])
  · intro _
    refine ⟨⟨⟨rfl, Or.inl linked.2.1⟩, flushed, ?_⟩, linked.2.2.1⟩
    intro ptr present
    change state.versions[state.versions.length - 1]? = some ptr at present
    rw [linked.2.1] at present
    cases present
    exact stamped
  · intro other stores
    by_cases here : other = id
    · subst here
      simp only [goto_self, storing] at stores
      cases stores
    · have theirs := inv.owner other (by simpa only [goto_other _ _ here] using stores)
      rw [locked] at theirs
      cases theirs
      exact absurd rfl here

theorem shortcut_done_inv {id : Fin workers} {head : Word} {stamp : Option Nat} (inv : Inv before)
    (pc : before.pc id = .shortcutDone head stamp) (stepped : advance before id = some after) :
    Inv after := by
  have own := inv.reader id
  rw [pc] at own
  obtain ⟨reading, indirect, known⟩ := own
  simp only [advance, pc, Option.some.injEq] at stepped
  split at stepped <;> subst stepped
  · rename_i bound
    obtain ⟨object, link⟩ := indirect_link indirect
    cases stamp with
    | none => cases bound
    | some value =>
        have stamped := known value rfl
        simp only [State.stampAt, link, Ptr.object, Option.bind_some] at stamped
        simp only [atMost, decide_eq_true_eq] at bound
        exact reader_goto inv id _ (by rw [pc]; rfl) rfl (by simp [pc])
          ⟨reading, object, value, link, stamped, old_of_done inv bound⟩
  · exact reader_goto inv id _ (by rw [pc]; rfl) rfl (by simp [pc]) (finish_reader reading)

section Cam

variable {id : Fin workers} {new : Ptr} {old : Word} (inv : Inv before)
    (locked : before.writer = some id)

include inv locked

theorem cam_load_inv (pc : before.pc id = .camLoad new old)
    (stepped : advance before id = some after) : Inv after := by
  have held := inv.writer id locked
  rw [pc] at held
  obtain ⟨fresh, steady, tracks, follows⟩ := held
  simp only [advance, pc, Option.some.injEq] at stepped
  subst stepped
  split
  · exact writer_goto inv id _ locked rfl ⟨fresh, steady, tracks, follows⟩
  · rename_i moved
    obtain ⟨null, indirect⟩ := tracks.2.resolve_left moved
    rw [if_pos indirect]
    refine writer_goto inv id _ locked rfl
      ⟨indirect, Or.inl ⟨fresh, steady, null, fun object is => ?_⟩⟩
    rw [follows object is]
    exact tracks.1

theorem cam_exchange_inv (pc : before.pc id = .camExchange new old)
    (stepped : advance before id = some after) : Inv after := by
  have held := inv.writer id locked
  rw [pc] at held
  obtain ⟨fresh, steady, tracks, follows⟩ := held
  have chained (object : Nat) (is : new.object = some object) :
      Shows before (before.next object) (before.versions.length - 1) := by
    rw [follows object is]
    exact tracks.1
  simp only [advance, pc] at stepped
  split at stepped <;> simp only [Option.some.injEq] at stepped <;> subst stepped
  · split
    · rename_i indirect
      exact link_inv inv id _ locked fresh steady chained rfl fun linked =>
        ⟨indirect, Or.inr linked⟩
    · exact link_inv inv id _ locked fresh steady chained rfl fun linked => ⟨linked, trivial⟩
  · rename_i moved
    obtain ⟨null, indirect⟩ := tracks.2.resolve_left moved
    rw [if_pos indirect]
    exact writer_goto inv id _ locked rfl ⟨indirect, Or.inl ⟨fresh, steady, null, chained⟩⟩

theorem recheck_inv (pc : before.pc id = .recheck new old)
    (stepped : advance before id = some after) : Inv after := by
  have held := inv.writer id locked
  rw [pc] at held
  obtain ⟨_, pending | linked⟩ := held
  · simp only [advance, pc, pending.2.2.1, if_true, Option.some.injEq] at stepped
    subst stepped
    exact writer_goto inv id _ locked rfl pending
  · have kept : before.word ≠ clean .null := by rw [linked.1.1]; simp [marked, clean]
    simp only [advance, pc, kept, if_false, Option.some.injEq] at stepped
    subst stepped
    exact writer_goto inv id _ locked rfl ⟨linked, trivial⟩

-- The null pointer that lost the race is replaced after all.
theorem again_exchange_inv (pc : before.pc id = .againExchange new)
    (stepped : advance before id = some after) : Inv after := by
  have held := inv.writer id locked
  rw [pc] at held
  obtain ⟨fresh, steady, null, chained⟩ := held
  simp only [advance, pc, null, if_true, Option.some.injEq] at stepped
  subst stepped
  exact link_inv inv id _ locked fresh steady chained rfl fun linked => ⟨linked, trivial⟩

end Cam

theorem advance_inv {id : Fin workers} (inv : Inv before)
    (stepped : advance before id = some after) :
    Inv after := by
  have own := inv.reader id
  cases pc : before.pc id with
  | idle => simp [advance, pc] at stepped
  | spin snapshot => exact reader_spin inv pc stepped
  | stamping snapshot head place =>
      simp only [advance, pc] at stepped
      exact reader_stamping inv pc stepped
  | shortcutStamp head =>
      rw [pc] at own
      simp only [advance, pc, Option.some.injEq] at stepped
      subst stepped
      exact reader_goto inv id _ (by rw [pc]; rfl) rfl (by simp [pc])
        ⟨own.1, own.2, fun _ same => same⟩
  | shortcutDone head stamp => exact shortcut_done_inv inv pc stepped
  | shortcutLoad head =>
      rw [pc] at own
      simp only [advance, pc, Option.some.injEq] at stepped
      split at stepped <;> subst stepped
      · exact reader_goto inv id _ (by rw [pc]; rfl) rfl (by simp [pc]) own
      · exact reader_goto inv id _ (by rw [pc]; rfl) rfl (by simp [pc]) (finish_reader own.1)
  | shortcutExchange head =>
      rw [pc] at own
      simp only [advance, pc] at stepped
      split at stepped <;> simp only [Option.some.injEq] at stepped <;> subst stepped
      · rename_i here
        exact shortcut_exchange_inv inv id pc here
      · exact reader_goto inv id _ (by rw [pc]; rfl) rfl (by simp [pc]) (finish_reader own.1)
  | chase snapshot head => exact chase_inv inv pc stepped
  | finish snapshot value =>
      simp only [advance, pc, Option.some.injEq] at stepped
      subst stepped
      exact finish_inv inv id pc
  | storeLoad new =>
      have locked := inv.owner id (by rw [pc]; rfl)
      have held := inv.writer id locked
      rw [pc] at held
      simp only [advance, pc, Option.some.injEq] at stepped
      subst stepped
      exact writer_goto inv id _ locked rfl ⟨held.1, held.2, held.2.1, Or.inl rfl⟩
  | storeNext new old =>
      have locked := inv.owner id (by rw [pc]; rfl)
      simp only [advance, pc] at stepped
      split at stepped
      · rename_i object is
        simp only [Option.some.injEq] at stepped
        subst stepped
        exact store_next_inv inv id locked pc is
      · cases stepped
  | camLoad new old => exact cam_load_inv inv (inv.owner id (by rw [pc]; rfl)) pc stepped
  | camExchange new old => exact cam_exchange_inv inv (inv.owner id (by rw [pc]; rfl)) pc stepped
  | recheck new old => exact recheck_inv inv (inv.owner id (by rw [pc]; rfl)) pc stepped
  | againLoad new =>
      have locked := inv.owner id (by rw [pc]; rfl)
      have held := inv.writer id locked
      rw [pc] at held
      simp only [advance, pc, held.2.2.1, if_true, Option.some.injEq] at stepped
      subst stepped
      exact writer_goto inv id _ locked rfl held
  | againExchange new => exact again_exchange_inv inv (inv.owner id (by rw [pc]; rfl)) pc stepped
  | stampNew new place =>
      simp only [advance, pc] at stepped
      exact writer_stamping inv (inv.owner id (by rw [pc]; rfl)) pc stepped
  | pathStamp new =>
      have locked := inv.owner id (by rw [pc]; rfl)
      have held := inv.writer id locked
      rw [pc] at held
      simp only [advance, pc, Option.some.injEq] at stepped
      subst stepped
      obtain ⟨object, is⟩ := held.1.object inv.history
      refine writer_goto inv id _ locked rfl ⟨held, ?_⟩
      rw [stampOf_object is, State.stampAt, is]
      rfl
  | pathDone new stamp =>
      have locked := inv.owner id (by rw [pc]; rfl)
      have held := inv.writer id locked
      rw [pc] at held
      obtain ⟨signed, rfl⟩ := held
      simp only [advance, pc, path_test_fails inv (by simp [pc]) signed, Bool.false_eq_true,
        if_false,
        Option.some.injEq] at stepped
      subst stepped
      exact writer_goto inv id _ locked rfl ⟨rfl, signed⟩
  | pathLoad new =>
      have held := inv.writer id (inv.owner id (by rw [pc]; rfl))
      rw [pc] at held
      exact held.elim
  | pathExchange new =>
      have held := inv.writer id (inv.owner id (by rw [pc]; rfl))
      rw [pc] at held
      exact held.elim
  | flush new shortcutted =>
      simp only [advance, pc, Option.some.injEq] at stepped
      subst stepped
      exact flush_inv inv id (inv.owner id (by rw [pc]; rfl)) pc
  | clear new shortcutted =>
      simp only [advance, pc, Option.some.injEq] at stepped
      subst stepped
      exact clear_inv inv id (inv.owner id (by rw [pc]; rfl)) pc


theorem store_inv {state : State workers} (inv : Inv state) (id : Fin workers) (null : Bool)
    (inside : (state.epoch.thread id).announcing = .inside) (unlocked : state.writer = none) :
    Inv
      { state.goto id
          (.storeLoad (if null then .link state.allocated else .node state.allocated)) with
      writer := some id
      allocated := state.allocated + 1
      stores := state.stores ++ [if null then .link state.allocated else .node state.allocated]
        } := by
  have is : (if null then Ptr.link state.allocated else Ptr.node state.allocated).object =
      some state.allocated := by cases null <;> rfl
  generalize (if null then Ptr.link state.allocated else Ptr.node state.allocated) = new at is ⊢
  have growth : Grows state { state.goto id (.storeLoad new) with
      writer := some id, allocated := state.allocated + 1, stores := state.stores ++ [new] } :=
    grows_of_same rfl rfl rfl rfl
  obtain ⟨steady, stores⟩ := inv.free unlocked
  refine assemble inv id growth inv.epoch (fun _ _ => rfl)
    (fun _ different => goto_other _ _ different)
    (fun _ _ => rfl) (Nat.le_refl _) (inv.history.grow growth rfl rfl (Nat.le_succ _))
    (fun object beyond => inv.unused object (Nat.le_of_succ_le beyond)) inv.durable (by simp) ?_ ?_
    (by rw [goto_self]; trivial) (fun read member => Or.inl member) (fun _ => inside)
  · rintro other ⟨⟩
    rw [goto_self]
    refine ⟨⟨state.allocated, is, Nat.lt_succ_self _, inv.unused _ (Nat.le_refl _), ?_, ?_⟩,
      steady.keep growth rfl rfl rfl⟩
    · intro index ptr present named
      exact Nat.lt_irrefl _ (inv.history.known index ptr _ present named)
    · simp only [stores]
      rfl
  · intro other storing'
    by_cases here : other = id
    · rw [here]
    · have theirs := inv.owner other (by simpa only [goto_other _ _ here] using storing')
      rw [unlocked] at theirs
      cases theirs

theorem epoch_event_inv {state : State workers} {epoch : Epoch.State workers} (inv : Inv state)
    (event : Epoch.Event workers) (kept : Epoch.callersAnnounced state.epoch event)
    (allowed : permitted state event = true) (stepped : Epoch.step state.epoch event = some epoch) :
    Inv { state with epoch } := by
  have growth : Grows state { state with epoch } := epoch_grows event stepped rfl rfl rfl
  obtain ⟨_, _, _, moves⟩ := Epoch.step_moves event stepped
  have busy (id : Fin workers) (working : state.pc id ≠ .idle) :
      (epoch.thread id).localStamp = (state.epoch.thread id).localStamp ∧
      (epoch.thread id).stampCall = (state.epoch.thread id).stampCall ∧
      (epoch.thread id).announcing = .inside ∧
      (state.epoch.thread id).taken ⊆ (epoch.thread id).taken := by
    have not_ (blocked : permitted state event = decide (state.pc id = .idle)) : False := by
      rw [allowed] at blocked
      exact working (of_decide_eq_true blocked.symm)
    have stay := (moves id).stay (inv.inside id working) (by rintro rfl; exact not_ rfl)
    refine ⟨?_, ?_, stay.1, stay.2.2⟩
    · rcases (moves id).snapshot with same | ⟨rfl, _⟩ | ⟨rfl, _⟩
      · exact same
      · exact (not_ rfl).elim
      · exact (not_ rfl).elim
    · rcases (moves id).call with same | ⟨rfl, _⟩ | ⟨_, rfl, _⟩
      · exact same
      · exact (not_ rfl).elim
      · exact (not_ rfl).elim
  refine ⟨Epoch.step_invariant event inv.epoch kept stepped, inv.history.grow growth rfl rfl
    (Nat.le_refl _),
    inv.unused, inv.durable, ?_, ?_, inv.owner, ?_, fun read member =>
      (inv.reads read member).grow growth, ?_⟩
  · intro unlocked
    exact ⟨(inv.free unlocked).1.keep growth rfl rfl rfl, (inv.free unlocked).2⟩
  · intro id locked
    have held := inv.writer id locked
    have working : state.pc id ≠ .idle := by
      intro idle
      rw [idle] at held
      exact held
    obtain ⟨_, call, _, taken⟩ := busy id working
    exact held.keep inv.history ⟨growth, rfl, rfl, rfl, rfl, rfl, rfl, call, taken,
      fun _ none_ some_ => absurd none_ some_⟩
  · intro id
    by_cases idle : state.pc id = .idle
    · simp only [idle]
      trivial
    · obtain ⟨snapshot, call, _, taken⟩ := busy id idle
      exact (inv.reader id).keep inv.epoch ⟨growth, snapshot, call, taken, rfl, Nat.le_refl _⟩
  · intro id working
    exact (busy id working).2.2.1

theorem step_inv (event : Event workers) (inv : Inv before) (kept : callersAnnounced before event)
    (stepped : step before event = some after) : Inv after := by
  cases event with
  | epoch event =>
      simp only [step, Option.ite_none_right_eq_some] at stepped
      obtain ⟨epoch, moved, rfl⟩ := Option.map_eq_some_iff.mp stepped.2
      exact epoch_event_inv inv event kept stepped.1 moved
  | load id =>
      simp only [step, Option.ite_none_right_eq_some, Option.some.injEq] at stepped
      obtain ⟨⟨idle, inside, _⟩, rfl⟩ := stepped
      exact reader_moves inv id _ before.source before.reads (by rw [idle]; rfl) rfl
        (fun _ _ => rfl) rfl
        (fun _ member => Or.inl member) (fun _ => inside)
  | store id null =>
      simp only [step, Option.ite_none_right_eq_some, Option.some.injEq] at stepped
      obtain ⟨⟨idle, inside, _, unlocked⟩, rfl⟩ := stepped
      exact store_inv inv id null inside unlocked
  | advance id => exact advance_inv inv stepped
  | returnStamp id stamp =>
      simp only [step] at stepped
      split at stepped
      · rename_i snapshot head pc
        obtain ⟨epoch, returned, rfl⟩ := Option.map_eq_some_iff.mp stepped
        obtain ⟨called, open_, above, bound, clock, thread⟩ :=
          Epoch.returnWriteStamp_thread returned
        have own := inv.reader id
        rw [pc] at own
        obtain ⟨reading, asked, mine, linked⟩ := own
        rw [open_] at mine
        cases mine
        refine stamp_call_inv inv id _ (.returnWriteStamp id stamp) rfl trivial (by simp) returned
          (by rw [pc]; rfl) (by simp [pc])
          ⟨reading.keep inv.epoch (epoch_grows _ returned rfl rfl rfl) (by simp only [thread]) rfl
            (Nat.le_refl _),
            ?_, ?_, ?_⟩ fun locked => absurd locked (not_writer inv (by rw [pc]; rfl))
        · exact Nat.lt_of_le_of_lt linked above
        · change stamp ≤ epoch.clock
          omega
        · simp only [thread, List.mem_cons, true_or]
      · rename_i new pc
        obtain ⟨epoch, returned, rfl⟩ := Option.map_eq_some_iff.mp stepped
        obtain ⟨called, open_, above, bound, clock, thread⟩ :=
          Epoch.returnWriteStamp_thread returned
        have own := inv.writer id (inv.owner id (by rw [pc]; rfl))
        rw [pc] at own
        obtain ⟨unstamped, asked, mine, linked⟩ := own
        rw [open_] at mine
        cases mine
        refine stamp_call_inv inv id _ (.returnWriteStamp id stamp) rfl trivial (by simp) returned
          (by rw [pc]; rfl) (by simp [pc]) trivial fun _ => ⟨unstamped, ?_, ?_, ?_⟩
        · exact Nat.lt_of_le_of_lt linked above
        · change stamp ≤ epoch.clock
          omega
        · simp only [thread, List.mem_cons, true_or]
      · cases stepped

theorem run_inv {clock : Nat} {stamp : Option Nat} {next : Nat → Word}
    {events : List (Event workers)} {state : State workers}
    (past : ∀ value, stamp = some value → value ≤ clock)
    (run : Run step callersAnnounced (initial clock stamp next) events state) : Inv state :=
  run_invariant Inv (initial_inv past next)
    (fun _ event _ inv kept stepped => step_inv event inv kept stepped) run

end SetBench.VersionedPtr
