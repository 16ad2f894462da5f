import Mathlib
import SetBench.FlockLockInv

/-! Runs of any number of threads that call try_lock_result on one lock. -/
namespace SetBench.FlockLock

open Flock Transition

variable {init : Memory} {s s' : State} {t d mine : Nat} {pc : Pc}

theorem Later.of_same (taken : s'.taken = s.taken) (sections : s'.sections = s.sections)
    (descriptor : s'.descriptor = s.descriptor) (runs : s.runs ≤ s'.runs) : Later s s' where
  taken _ member := taken ▸ member
  sections _ member := sections ▸ member
  runs := runs
  done _ _ done := descriptor ▸ done

-- Thread `t` moves; the others stay where they are.
theorem Inv.places (inv : Inv init s) (later : Later s s')
    (moved : s'.pc = Function.update s.pc t pc) (ok : PcOk s' pc)
    (own : ∀ u d, u ≠ t → (s.pc u).mine = some d → d ∈ s'.taken → d ∈ s.taken) (u : Nat) :
    PcOk s' (s'.pc u) := by
  rw [moved]
  by_cases same : u = t
  · rw [same, Function.update_self]
    exact ok
  · rw [Function.update_of_ne same]
    exact (inv.place u).later later fun d mine => own u d same mine

theorem Inv.mine_alone (inv : Inv init s) {u : Nat} (first : (s.pc t).mine = some d)
    (second : (s.pc u).mine = some d) : u = t :=
  (inv.owns u d second).1.symm.trans (inv.owns t d first).1

theorem Inv.section_taken (inv : Inv init s) {r : Nat} (member : (d, r) ∈ s.sections) :
    d ∈ s.taken :=
  inv.done_taken (inv.ended d r member).done

theorem mine_goto (same : pc.mine = (s.pc t).mine) (u : Nat) :
    ((s.goto t pc).pc u).mine = (s.pc u).mine := by
  show (Function.update s.pc t pc u).mine = _
  by_cases own : u = t
  · rw [own, Function.update_self, same]
  · rw [Function.update_of_ne own]

theorem Inv.goto (inv : Inv init s) (same : pc.mine = (s.pc t).mine) (ok : PcOk s pc) :
    Inv init (s.goto t pc) where
  serial := inv.serial
  ended := inv.ended
  unstarted := inv.unstarted
  known := inv.known
  once := inv.once
  held d locked := ⟨(inv.held d locked).1, (mine_goto same _).trans (inv.held d locked).2⟩
  owns u d here := inv.owns u d ((mine_goto same u).symm.trans here)
  place := inv.places (Later.of_same rfl rfl rfl (Nat.le_refl _)) rfl
    (ok.later (Later.of_same rfl rfl rfl (Nat.le_refl _)) fun _ _ => id) fun _ _ _ _ => id
  returned d a member := by
    obtain ⟨known, gone, answers⟩ := inv.returned d a member
    exact ⟨known, fun u here => gone u ((mine_goto same u).symm.trans here), answers⟩

/-- A new descriptor, which only its thread knows. -/
theorem Inv.allocate (inv : Inv init s) (free : (s.pc t).mine = none) (f : Thunk) (counter : Nat)
    (own : pc.mine = some s.descriptors) (ok : PcOk (s.newDescriptor t f counter) pc) :
    Inv init ((s.newDescriptor t f counter).goto t pc) := by
  have old {d : Nat} (member : d ∈ s.taken) : ((s.newDescriptor t f counter).goto t pc).descriptor
    d = s.descriptor d :=
    Function.update_of_ne (Nat.ne_of_lt (inv.known d member)) ..
  have pc_other {u : Nat} (apart : u ≠ t) : ((s.newDescriptor t f counter).goto t pc).pc u =
    s.pc u := Function.update_of_ne apart ..
  have pc_self : ((s.newDescriptor t f counter).goto t pc).pc t = pc := Function.update_self ..
  constructor
  case serial =>
    obtain ⟨final, used, owner, serial, at_end, owned⟩ := inv.serial
    refine ⟨final, used, _, serial.congr fun d r member => congrArg Flock.State.thunk
      (old (inv.section_taken member)), ?_, owned.change (Nat.le_refl _)
      fun o has => absurd has (has_start f s.memory o)⟩
    rcases at_end with all | ⟨d, all, locked, open_, held⟩
    · exact .inl all
    · have member : d ∈ s.taken := all ▸ List.mem_append_right _ (List.mem_singleton_self d)
      refine .inr ⟨d, all, locked, ?_, ?_⟩
      · rw [old member]
        exact open_
      · rw [old member]
        exact held
  case ended =>
    intro d r member
    rw [old (inv.section_taken member)]
    exact inv.ended d r member
  case unstarted =>
    intro d absent
    by_cases new : d = s.descriptors
    · exact ⟨f, s.memory, new ▸ Function.update_self ..⟩
    · obtain ⟨g, memory, same⟩ := inv.unstarted d absent
      exact ⟨g, memory, (Function.update_of_ne new ..).trans same⟩
  case known => exact fun d member => Nat.lt_succ_of_lt (inv.known d member)
  case once => exact inv.once
  case held =>
    intro d locked
    obtain ⟨member, here⟩ := inv.held d locked
    refine ⟨member, ?_⟩
    have owner : ((s.newDescriptor t f counter).goto t pc).owner d = s.owner d :=
      Function.update_of_ne (Nat.ne_of_lt (inv.known d member)) ..
    have apart : s.owner d ≠ t := by
      intro same
      rw [same, free] at here
      cases here
    rw [owner, pc_other apart]
    exact here
  case owns =>
    intro u d here
    by_cases same : u = t
    · rw [same, pc_self, own] at here
      cases here
      exact ⟨(Function.update_self ..).trans same.symm, Nat.lt_succ_self _⟩
    · rw [pc_other same] at here
      obtain ⟨owner, known⟩ := inv.owns u d here
      exact ⟨(Function.update_of_ne (Nat.ne_of_lt known) ..).trans owner, Nat.lt_succ_of_lt known⟩
  case place =>
    have later : Later s ((s.newDescriptor t f counter).goto t pc) :=
      ⟨fun _ => id, fun _ => id, Nat.le_refl _, fun d member done => by rw [old member]; exact done⟩
    exact inv.places later rfl (ok.later (Later.of_same rfl rfl rfl (Nat.le_refl _)) fun _ _ => id)
      fun _ _ _ _ => id
  case returned =>
    intro d a member
    obtain ⟨known, gone, answers⟩ := inv.returned d a member
    refine ⟨Nat.lt_succ_of_lt known, fun u here => ?_, answers⟩
    by_cases same : u = t
    · rw [same, pc_self, own] at here
      cases here
      exact Nat.lt_irrefl _ known
    · exact gone u ((congrArg Pc.mine (pc_other same)).symm.trans here)

/-- The compare-and-swap that takes the lock: all earlier sections are done. -/
theorem Inv.install (inv : Inv init s) {counter : Nat} (place : s.pc t = .installing mine counter)
    (free : s.lck = .free counter) :
    Inv init { s.goto t (.rereading mine) with lck := .held mine, taken := s.taken ++ [mine] } := by
  have fresh : mine ∉ s.taken := by
    have ok := inv.place t
    rw [place] at ok
    exact ok
  have here : (s.pc t).mine = some mine := congrArg Pc.mine place
  have same (u : Nat) : ((s.goto t (.rereading mine)).pc u).mine = (s.pc u).mine :=
    mine_goto (show (Pc.rereading mine).mine = (s.pc t).mine from here.symm) u
  constructor
  case serial =>
    obtain ⟨final, used, owner, serial, at_end, owned⟩ := inv.serial
    rcases at_end with ⟨all, memory⟩ | ⟨_, _, locked, _⟩
    · obtain ⟨f, m, started⟩ := inv.unstarted mine fresh
      refine ⟨final, used, owner, serial, .inr ⟨mine, congrArg (· ++ [mine]) all, rfl,
        congrArg Flock.State.done started, ?_⟩, owned⟩
      have begins : Held (Flock.start f m) s.memory s.memory [] :=
        ⟨[0], [], _, agreed_initial f s.memory⟩
      rw [← memory]
      show Held (s.descriptor mine) s.memory s.memory []
      rw [started]
      exact begins
    · exact absurd (free.symm.trans locked) LockEntry.noConfusion
  case ended => exact inv.ended
  case unstarted =>
    exact fun d absent => inv.unstarted d fun member => absent (List.mem_append_left _ member)
  case known =>
    intro d member
    rcases List.mem_append.mp member with old | new
    · exact inv.known d old
    · rw [List.mem_singleton.mp new]
      exact (inv.owns t mine here).2
  case once =>
    refine List.nodup_append.mpr ⟨inv.once, List.nodup_singleton _, fun a old b new clash => ?_⟩
    rw [clash, List.mem_singleton.mp new] at old
    exact fresh old
  case held =>
    intro d locked
    cases locked
    refine ⟨List.mem_append_right _ (List.mem_singleton_self mine), (same _).trans ?_⟩
    show (s.pc (s.owner mine)).mine = some mine
    rw [(inv.owns t mine here).1]
    exact here
  case owns => exact fun u d at_u => inv.owns u d ((same u).symm.trans at_u)
  case place =>
    have later :
      Later s { s.goto t (.rereading mine) with lck := .held mine, taken := s.taken ++ [mine] } :=
      ⟨fun _ => List.mem_append_left _, fun _ => id, Nat.le_refl _, fun _ _ => id⟩
    refine inv.places later rfl trivial fun u d apart at_u member => ?_
    rcases List.mem_append.mp member with old | new
    · exact old
    · rw [List.mem_singleton.mp new] at at_u
      exact absurd (inv.mine_alone here at_u) apart
  case returned =>
    intro d a member
    obtain ⟨known, gone, unused, result⟩ := inv.returned d a member
    refine ⟨known, fun u at_u => gone u ((same u).symm.trans at_u), fun none_ inside => ?_, result⟩
    rcases List.mem_append.mp inside with old | new
    · exact unused none_ old
    · rw [List.mem_singleton.mp new] at gone
      exact gone t here

/-- clear: the section in the lock is done. -/
theorem Inv.unlock (inv : Inv init s) (locked : s.lck = .held d)
    (done : (s.descriptor d).done = true) (counter : Nat) :
    Inv init { s with lck := .free counter } where
  serial := by
    obtain ⟨final, used, owner, serial, at_end, owned⟩ := inv.serial
    refine ⟨final, used, owner, serial, ?_, owned⟩
    rcases at_end with all | ⟨last, _, in_lock, open_, _⟩
    · exact .inl all
    · cases locked.symm.trans in_lock
      rw [done] at open_
      cases open_
  ended := inv.ended
  unstarted := inv.unstarted
  known := inv.known
  once := inv.once
  held _ no := LockEntry.noConfusion no
  owns := inv.owns
  place u := (inv.place u).later (Later.of_same rfl rfl rfl (Nat.le_refl _)) fun _ _ => id
  returned := inv.returned

/-- The call returns. -/
theorem Inv.leave (inv : Inv init s) (here : (s.pc t).mine = some mine)
    (unlocked : s.lck ≠ .held mine) {answer : Option Nat}
    (unused : answer = none → mine ∉ s.taken)
    (result : ∀ r, answer = some r → (mine, r) ∈ s.sections) :
    Inv init (s.leave t mine answer) := by
  have pc_other {u : Nat} (apart : u ≠ t) : (s.leave t mine answer).pc u = s.pc u :=
    Function.update_of_ne apart ..
  have pc_self : (s.leave t mine answer).pc t = .idle := Function.update_self ..
  constructor
  case serial => exact inv.serial
  case ended => exact inv.ended
  case unstarted => exact inv.unstarted
  case known => exact inv.known
  case once => exact inv.once
  case held =>
    intro d locked
    obtain ⟨member, at_owner⟩ := inv.held d locked
    refine ⟨member, ?_⟩
    show ((s.leave t mine answer).pc (s.owner d)).mine = some d
    have apart : s.owner d ≠ t := by
      intro same
      rw [same, here] at at_owner
      cases at_owner
      exact unlocked locked
    rw [pc_other apart]
    exact at_owner
  case owns =>
    intro u d at_u
    by_cases same : u = t
    · rw [same, pc_self] at at_u
      cases at_u
    · rw [pc_other same] at at_u
      exact inv.owns u d at_u
  case place =>
    exact inv.places (Later.of_same rfl rfl rfl (Nat.le_refl _)) rfl
      (show PcOk _ .idle from trivial) fun _ _ _ _ => id
  case returned =>
    intro d a member
    rcases List.mem_append.mp member with old | new
    · obtain ⟨known, gone, answers⟩ := inv.returned d a old
      refine ⟨known, fun u at_u => ?_, answers⟩
      by_cases same : u = t
      · rw [same, pc_self] at at_u
        cases at_u
      · exact gone u ((congrArg Pc.mine (pc_other same)).symm.trans at_u)
    · cases List.mem_singleton.mp new
      refine ⟨(inv.owns t mine here).2, fun u at_u => ?_, unused, result⟩
      by_cases same : u = t
      · rw [same, pc_self] at at_u
        cases at_u
      · rw [pc_other same] at at_u
        exact same (inv.mine_alone here at_u)

-- The call ends behind clear: it returns the result of its own thunk, and nothing after it has
-- helped.
theorem Inv.leave_with (inv : Inv init s) {result : Nat} (here : (s.pc t).mine = some mine)
    (unlocked : s.lck ≠ .held d) (ok : (d, result) ∈ s.sections ∧ (mine ≠ d → mine ∉ s.taken)) :
    Inv init (s.leave t mine (if mine = d then some result else none)) := by
  by_cases own : mine = d
  · rw [if_pos own]
    refine inv.leave here (own ▸ unlocked) nofun fun r same => ?_
    cases same
    exact own ▸ ok.1
  · rw [if_neg own]
    exact inv.leave here (fun locked => ok.2 own (inv.held mine locked).1) (fun _ => ok.2 own)
      fun _ => nofun

/-- The log of a descriptor that has been in the lock changes, and no word does. -/
theorem Inv.change (inv : Inv init s) (member : d ∈ s.taken) {log : Flock.State}
    (thunk : log.thunk = (s.descriptor d).thunk) (done : log.done = (s.descriptor d).done)
    (held : ∀ begin outside, Held (s.descriptor d) s.memory begin outside →
      Held log s.memory begin outside)
    (helper : ∀ h < s.runs, ∀ r, (s.descriptor d).helpers h = .finished r →
      log.helpers h = .finished r) {objects : Nat} (more : s.objects ≤ objects)
    (has : ∀ o, log.Has o → (s.descriptor d).Has o ∨ s.objects ≤ o ∧ o < objects) :
    Inv init { s with
      descriptor := Function.update s.descriptor d log
      objects := objects } := by
  have same_thunk (q : Nat) : (Function.update s.descriptor d log q).thunk =
    (s.descriptor q).thunk := by
    by_cases own : q = d
    · rw [own, Function.update_self, thunk]
    · rw [Function.update_of_ne own]
  have same_done (q : Nat) : (Function.update s.descriptor d log q).done =
    (s.descriptor q).done := by
    by_cases own : q = d
    · rw [own, Function.update_self, done]
    · rw [Function.update_of_ne own]
  have kept (q : Nat) (begin : Memory) (outside : List (Nat × Nat))
    (before : Held (s.descriptor q) s.memory begin outside) :
      Held (Function.update s.descriptor d log q) s.memory begin outside := by
    by_cases own : q = d
    · subst own
      rw [Function.update_self]
      exact held begin outside before
    · rw [Function.update_of_ne own]
      exact before
  constructor
  case serial =>
    obtain ⟨final, used, owner, serial, at_end, owned⟩ := inv.serial
    refine ⟨final, used, _, serial.congr fun q _ _ => same_thunk q, ?_, owned.change more has⟩
    rcases at_end with all | ⟨last, all, locked, open_, before⟩
    · exact .inl all
    · exact .inr ⟨last, all, locked, (same_done last).trans open_, kept last final [] before⟩
  case ended =>
    intro q r inside
    obtain ⟨was_done, ⟨h, known, at_h⟩, begin, outside, before⟩ := inv.ended q r inside
    refine ⟨(same_done q).trans was_done, ⟨h, known, ?_⟩, begin, outside,
      kept q begin outside before⟩
    show (Function.update s.descriptor d log q).helpers h = .finished r
    by_cases own : q = d
    · subst own
      rw [Function.update_self]
      exact helper h known r at_h
    · rw [Function.update_of_ne own]
      exact at_h
  case unstarted =>
    intro q absent
    have other : q ≠ d := fun same => absent (same ▸ member)
    obtain ⟨f, memory, started⟩ := inv.unstarted q absent
    exact ⟨f, memory, (Function.update_of_ne other ..).trans started⟩
  case known => exact inv.known
  case once => exact inv.once
  case held => exact inv.held
  case owns => exact inv.owns
  case place =>
    have later : Later s { s with
        descriptor := Function.update s.descriptor d log
        objects := objects } :=
      ⟨fun _ => id, fun _ => id, Nat.le_refl _, fun q _ was_done => (same_done q).trans was_done⟩
    exact fun u => (inv.place u).later later fun _ _ => id
  case returned => exact inv.returned

theorem Inv.more_runs (inv : Inv init s) : Inv init { s with runs := s.runs + 1 } where
  serial := inv.serial
  ended d r member := by
    obtain ⟨done, ⟨h, known, at_h⟩, held⟩ := inv.ended d r member
    exact ⟨done, ⟨h, Nat.lt_succ_of_lt known, at_h⟩, held⟩
  unstarted := inv.unstarted
  known := inv.known
  once := inv.once
  held := inv.held
  owns := inv.owns
  place u := by
    have later : Later s { s with runs := s.runs + 1 } := Later.of_same rfl rfl rfl (Nat.le_succ _)
    exact (inv.place u).later later fun _ _ => id
  returned := inv.returned

/-- A thread starts to run the thunk of a descriptor that has been in the lock. -/
theorem Inv.enter (inv : Inv init s) (here : (s.pc t).mine = some mine) (member : d ∈ s.taken)
    (helps : mine ≠ d → mine ∉ s.taken) :
    Inv init (s.enter t mine d) := by
  let log := s.descriptor d
  have changed :
    Inv init
    { s with
      descriptor :=
        Function.update s.descriptor d (log.put s.runs (.ready ⟨0, 0⟩ (.op log.thunk))) } := by
    apply inv.change member
    case thunk => rfl
    case done => rfl
    case held => exact fun begin outside held => held.enter s.runs
    case helper => exact fun h known r at_h =>
      (Function.update_of_ne (Nat.ne_of_lt known) ..).trans at_h
    case more => exact Nat.le_refl _
    case has =>
      intro o has
      have moved : (log.put s.runs (.ready ⟨0, 0⟩ (.op log.thunk))).helpers =
        Function.update log.helpers s.runs (.ready ⟨0, 0⟩ (.op log.thunk)) := rfl
      have old := (Flock.Has.put moved (fun _ => .inl) (fun _ here => by cases here) le_rfl).2 o has
      exact old.imp_right fun ⟨low, high⟩ => absurd high (Nat.not_lt.mpr low)
  exact changed.more_runs.goto here.symm ⟨member, helps, Nat.lt_succ_self _⟩

section Thunk

variable {h : Nat} {after : Flock.State}

theorem Inv.open_held (inv : Inv init s) (member : d ∈ s.taken)
    (open_ : (s.descriptor d).done = false) : d ∉ s.sections.map Prod.fst ∧ ∃ final used owner,
    Serial (fun d => (s.descriptor d).thunk) init s.sections used final ∧ s.taken =
      s.sections.map Prod.fst ++ [d] ∧ s.lck = .held d ∧
      Held (s.descriptor d) s.memory final [] ∧
      Owned s.descriptor s.objects s.sections owner used := by
  obtain ⟨final, used, owner, serial, at_end, owned⟩ := inv.serial
  have unlisted : d ∉ s.sections.map Prod.fst := by
    intro listed
    obtain ⟨⟨_, r⟩, inside, rfl⟩ := List.mem_map.mp listed
    exact Bool.false_ne_true (open_.symm.trans (inv.ended _ r inside).done)
  refine ⟨unlisted, final, used, owner, serial, ?_⟩
  rcases at_end with ⟨all, _⟩ | ⟨last, all, locked, _, held⟩
  · exact absurd (all ▸ member) unlisted
  · rcases List.mem_append.mp (all ▸ member) with earlier | here
    · exact absurd earlier unlisted
    · rw [List.mem_singleton.mp here]
      exact ⟨all, locked, held, owned⟩

/-- A step of a helper whose thunk is done: its result is the one already known, and no word
changes. -/
theorem Inv.late (inv : Inv init s) (member : d ∈ s.taken) (done : (s.descriptor d).done = true)
    (stepped : (s.view d).advance h = some after) :
    Inv init (s.ran d after) ∧ ∀ r, after.helpers h = .finished r → (d, r) ∈ s.sections := by
  obtain ⟨result, inside⟩ := inv.section_of member done
  obtain ⟨_, ⟨first, _, at_first⟩, begin, outside, held⟩ := inv.ended d result inside
  have advanced : Advanced (s.view d) after h := advance_spec stepped
  have apart {k r : Nat} (at_k : (s.descriptor d).helpers k = .finished r) : k ≠ h := by
    rintro rfl
    exact advanced.running r at_k
  have memory : after.memory = s.memory := by
    obtain ⟨chain, committed, now, agreed⟩ := held
    have lifted := advance_outside (s.view d) h outside
    rw [stepped] at lifted
    have kept := late_memory (recount agreed s.objects) done (advance_spec lifted)
    exact kept
  constructor
  · obtain ⟨more, has⟩ := advance_has stepped
    have changed : Inv init { s with
        descriptor := Function.update s.descriptor d after
        objects := after.objects } := by
      apply inv.change member
      case thunk => exact (held.advance stepped).1
      case done => exact (advanced.done done).trans done.symm
      case held => exact fun begin outside before => memory ▸ (before.advance stepped).2
      case helper => exact fun k _ r at_k => (advanced.others k (apart at_k)).trans at_k
      case more => exact more
      case has => exact has
    have same : s.ran d after = { s with
        descriptor := Function.update s.descriptor d after
        objects := after.objects } := by
      rw [State.ran, memory]
    exact same ▸ changed
  · intro r at_h
    have kept : after.helpers first = .finished result :=
      (advanced.others first (apart at_first)).trans at_first
    rw [(held.advance stepped).2.same_result at_h kept]
    exact inside

/-- A step of a helper of the thunk in the lock; `sections` is the history after it. -/
theorem Inv.current (inv : Inv init s) (member : d ∈ s.taken)
    (open_ : (s.descriptor d).done = false) (known : h < s.runs)
    (stepped : (s.view d).advance h = some after) (sections : List (Nat × Nat))
    (ends : (sections = s.sections ∧ after.done = false) ∨ ∃ r, after.helpers h = .finished r ∧
      sections = s.sections ++ [(d, r)]) :
    Inv init { s.ran d after with sections := sections } := by
  obtain ⟨unlisted, final, used, owner, serial, all, locked, held, owned⟩ :=
    inv.open_held member open_
  obtain ⟨more, has⟩ := advance_has stepped
  have owned' := owned.change more has
  have advanced : Advanced (s.view d) after h := advance_spec stepped
  obtain ⟨thunk, held'⟩ := held.advance stepped
  have other {q : Nat} (apart : q ≠ d) : (s.ran d after).descriptor q = s.descriptor q :=
    Function.update_of_ne apart ..
  have here : (s.ran d after).descriptor d = after := Function.update_self ..
  have apart_done {q : Nat} (done : (s.descriptor q).done = true) : q ≠ d := by
    rintro rfl
    exact Bool.false_ne_true (open_.symm.trans done)
  have serial' :
      Serial (fun q => ((s.ran d after).descriptor q).thunk) init s.sections used final :=
    serial.congr fun q r inside =>
      congrArg Flock.State.thunk (other (apart_done (inv.ended q r inside).done))
  have ended : ∀ q r, (q, r) ∈ s.sections → Ended ((s.ran d after).descriptor q) after.memory s.runs
    r := by
    intro q r inside
    obtain ⟨done, helper, begin, outside, before⟩ := inv.ended q r inside
    rw [other (apart_done done)]
    rcases advanced.memory with same | ⟨_, l, _, v, _, _, _, written⟩
    · exact ⟨done, helper, begin, outside, same ▸ before⟩
    · exact ⟨done, helper, begin, outside ++ [(l, v)], written ▸ before.write done l v⟩
  have grows : ∀ x ∈ s.sections, x ∈ sections := by
    rcases ends with ⟨rfl, _⟩ | ⟨r, _, rfl⟩
    · exact fun _ => id
    · exact fun _ => List.mem_append_left _
  constructor
  case serial =>
    rcases ends with ⟨rfl, still⟩ | ⟨r, at_h, rfl⟩
    · refine ⟨final, used, _, serial', .inr ⟨d, all, locked, ?_, ?_⟩, owned'⟩
      · exact (congrArg Flock.State.done here).trans still
      · show Held ((s.ran d after).descriptor d) after.memory final []
        rw [here]
        exact held'
    · obtain ⟨objects, ran, logged⟩ := held'.ran at_h
      have logged' : ∀ o ∈ objects, (Function.update s.descriptor d after d).Logged o := by
        rw [Function.update_self]
        exact logged
      obtain ⟨fresh, owned''⟩ := owned'.finish unlisted logged' r
      have ran' : ((s.ran d after).descriptor d).thunk.run final objects =
        some (r, after.memory) := by
        rw [here]
        exact ran
      refine ⟨after.memory, _, _, serial'.snoc ran' fresh, .inl ⟨?_, rfl⟩, owned''⟩
      show s.taken = (s.sections ++ [(d, r)]).map Prod.fst
      rw [all, List.map_append]
      rfl
  case ended =>
    rcases ends with ⟨rfl, _⟩ | ⟨r, at_h, rfl⟩
    · exact ended
    · intro q r' inside
      rcases List.mem_append.mp inside with old | new
      · exact ended q r' old
      · cases List.mem_singleton.mp new
        show Ended ((s.ran d after).descriptor d) after.memory s.runs r
        rw [here]
        exact ⟨advanced.finished r at_h, ⟨h, known, at_h⟩, final, [], held'⟩
  case unstarted =>
    intro q absent
    have apart : q ≠ d := fun same => absent (same ▸ member)
    obtain ⟨f, memory, started⟩ := inv.unstarted q absent
    exact ⟨f, memory, (other apart).trans started⟩
  case known => exact inv.known
  case once => exact inv.once
  case held => exact inv.held
  case owns => exact inv.owns
  case place =>
    have later : Later s { s.ran d after with sections := sections } :=
      ⟨fun _ => id, grows, Nat.le_refl _,
        fun q _ done => (congrArg Flock.State.done (other (apart_done done))).trans done⟩
    exact fun u => (inv.place u).later later fun _ _ => id
  case returned =>
    intro q a member
    obtain ⟨old, gone, unused, result⟩ := inv.returned q a member
    exact ⟨old, gone, unused, fun r same => grows _ (result r same)⟩

theorem Inv.finish (inv : Inv init s) (member : d ∈ s.taken) (known : h < s.runs)
    (stepped : (s.view d).advance h = some after) {result : Nat}
    (at_h : after.helpers h = .finished result) :
    Inv init ((s.finish d result).ran d after) ∧ (d, result) ∈ (s.finish d result).sections := by
  unfold State.finish
  by_cases done : (s.descriptor d).done = true
  · rw [if_pos done]
    obtain ⟨kept, known_result⟩ := inv.late member done stepped
    exact ⟨kept, known_result result at_h⟩
  · rw [if_neg done]
    have kept := inv.current member (Bool.eq_false_iff.mpr done) known stepped _
      (.inr ⟨result, at_h, rfl⟩)
    exact ⟨kept, List.mem_append_right _ (List.mem_singleton_self _)⟩

theorem Inv.go_on (inv : Inv init s) (member : d ∈ s.taken) (known : h < s.runs)
    (stepped : (s.view d).advance h = some after)
    (unfinished : ∀ result, after.helpers h ≠ .finished result) : Inv init (s.ran d after) := by
  by_cases done : (s.descriptor d).done = true
  · exact (inv.late member done stepped).1
  · have open_ : (s.descriptor d).done = false := Bool.eq_false_iff.mpr done
    have still : after.done = false := ((advance_spec stepped).unfinished unfinished).trans open_
    exact inv.current member open_ known stepped s.sections (.inl ⟨rfl, still⟩)

end Thunk

theorem Inv.load (inv : Inv init s) {f : Thunk} (at_t : s.pc t = .loading f)
    (stepped : s.advance t = some s') : Inv init s' := by
  have free : (s.pc t).mine = none := congrArg Pc.mine at_t
  have fresh : s.descriptors ∉ s.taken := fun member => Nat.lt_irrefl _ (inv.known _ member)
  simp only [State.advance, at_t] at stepped
  cases locked : s.lck with
  | free counter =>
      rw [locked] at stepped
      cases stepped
      exact inv.allocate free f counter rfl fresh
  | held d =>
      rw [locked] at stepped
      dsimp only at stepped
      split at stepped
      · rename_i own
        have mine := (inv.held d locked).2
        rw [own, free] at mine
        cases mine
      · cases stepped
        exact inv.allocate free f 0 rfl ⟨fresh, (inv.held d locked).1⟩

theorem Inv.advance (inv : Inv init s) (stepped : s.advance t = some s') : Inv init s' := by
  have ok := inv.place t
  cases at_t : s.pc t with
  | idle | inside f =>
      simp only [State.advance, at_t] at stepped
      cases stepped
  | loading f => exact inv.load at_t stepped
  | checking mine counter =>
      rw [at_t] at ok
      simp only [State.advance, at_t] at stepped
      cases stepped
      apply inv.goto
      case same =>
        rw [at_t]
        split <;> rfl
      case ok =>
        split
        · exact ok
        · trivial
  | installing mine counter =>
      simp only [State.advance, at_t] at stepped
      split at stepped
      · rename_i free
        cases stepped
        exact inv.install at_t free
      · cases stepped
        exact inv.goto (congrArg Pc.mine at_t).symm trivial
  | rereading mine =>
      simp only [State.advance, at_t] at stepped
      cases stepped
      apply inv.goto
      case same => exact (congrArg Pc.mine at_t).symm
      case ok =>
        refine ⟨fun member => ?_, fun locked => (inv.held mine locked).1⟩
        by_cases done : (s.descriptor mine).done = true
        · exact .inr done
        · obtain ⟨_, _, _, _, _, _, locked, _⟩ :=
            inv.open_held member (Bool.eq_false_iff.mpr done)
          exact .inl locked
  | asking mine current =>
      rw [at_t] at ok
      have here : (s.pc t).mine = some mine := congrArg Pc.mine at_t
      simp only [State.advance, at_t] at stepped
      split at stepped
      · rename_i takes
        cases stepped
        exact inv.enter here (takes.elim inv.done_taken ok.2) fun other => absurd rfl other
      · rename_i fails
        cases stepped
        have unused : mine ∉ s.taken := fun member => fails (ok.1 member).symm
        exact inv.leave here (fun locked => unused (inv.held mine locked).1) (fun _ => unused)
          fun _ => nofun
  | helping mine d =>
      rw [at_t] at ok
      have here : (s.pc t).mine = some mine := congrArg Pc.mine at_t
      simp only [State.advance, at_t] at stepped
      split at stepped
      · cases stepped
        exact inv.goto here.symm ok
      · cases stepped
        exact inv.leave here (fun locked => ok.1 (inv.held mine locked).1) (fun _ => ok.1) fun _ =>
          nofun
  | acquired mine d =>
      rw [at_t] at ok
      have here : (s.pc t).mine = some mine := congrArg Pc.mine at_t
      simp only [State.advance, at_t] at stepped
      split at stepped
      · cases stepped
        exact inv.enter here ok.2 fun _ => ok.1
      · cases stepped
        exact inv.leave here (fun locked => ok.1 (inv.held mine locked).1) (fun _ => ok.1) fun _ =>
          nofun
  | running mine d h =>
      rw [at_t] at ok
      obtain ⟨member, helps, known⟩ := ok
      simp only [State.advance, at_t] at stepped
      cases ran : (s.view d).advance h with
      | none =>
          rw [ran] at stepped
          cases stepped
      | some after =>
          rw [ran] at stepped
          dsimp only at stepped
          split at stepped
          · rename_i result at_h
            cases stepped
            obtain ⟨kept, listed⟩ := inv.finish member known ran at_h
            have same : ((s.finish d result).ran d after).pc = s.pc ∧
              ((s.finish d result).ran d after).taken = s.taken := by
              unfold State.finish
              split <;> exact ⟨rfl, rfl⟩
            apply kept.goto
            case same =>
              rw [same.1, at_t]
              rfl
            case ok => exact ⟨listed, fun other => same.2 ▸ helps other⟩
          · rename_i unfinished
            cases stepped
            exact inv.go_on member known ran fun result at_h => unfinished result at_h
  | clearing mine d result =>
      rw [at_t] at ok
      have here : (s.pc t).mine = some mine := congrArg Pc.mine at_t
      simp only [State.advance, at_t] at stepped
      split at stepped
      · cases stepped
        exact inv.goto here.symm ok
      · rename_i unlocked
        cases stepped
        exact inv.leave_with here unlocked ok
  | freeing mine d result =>
      rw [at_t] at ok
      have here : (s.pc t).mine = some mine := congrArg Pc.mine at_t
      simp only [State.advance, at_t] at stepped
      split at stepped
      · rename_i locked
        cases stepped
        have cleared := inv.unlock locked (inv.ended d result ok.1).done (s.counter d + 1)
        exact cleared.leave_with here LockEntry.noConfusion ok
      · rename_i unlocked
        cases stepped
        exact inv.leave_with here unlocked ok

theorem Inv.step (inv : Inv init s) {event : Event} (stepped : step s event = some s') :
    Inv init s' := by
  cases event with
  | call t f =>
      simp only [FlockLock.step] at stepped
      split at stepped
      · rename_i at_t
        cases stepped
        exact inv.goto (congrArg Pc.mine at_t).symm trivial
      · cases stepped
  | step t => exact inv.advance stepped

/-- Critical sections of a lock-free lock are atomic: in every run of any number of threads, the
thunks of the descriptors that took the lock have run one after the other, each once and with
objects of its own, whoever ran them, and the memory is the one they left or that of the next one
on its way; a call that returns a result is one of them and the result is the one of that run, and
the thunk of a call that returns nothing has no effect. -/
theorem sections_atomic {memory : Memory} {events : List Event} {last : State}
    (run : Run step free (start memory) events last) :
    (∃ final used, Serial (fun d => (last.descriptor d).thunk) memory last.sections used final ∧
      ((last.taken = last.sections.map Prod.fst ∧ last.memory = final) ∨
        ∃ d, last.taken = last.sections.map Prod.fst ++ [d] ∧ last.lck = .held d ∧
          PartWay (last.descriptor d).thunk final last.memory)) ∧
    last.taken.Nodup ∧
    ∀ d answer, (d, answer) ∈ last.returned → (answer = none → d ∉ last.taken) ∧ ∀ result, answer =
      some result → (d, result) ∈ last.sections := by
  have inv : Inv memory last :=
    run_invariant (Inv memory) (Inv.initial memory)
    (fun _ _ _ inv _ stepped => inv.step stepped) run
  obtain ⟨final, used, _, serial, at_end, _⟩ := inv.serial
  refine ⟨⟨final, used, serial, ?_⟩, inv.once, fun d answer member =>
    (inv.returned d answer member).2.2⟩
  rcases at_end with all | ⟨d, all, locked, _, held⟩
  · exact .inl all
  · exact .inr ⟨d, all, locked, held.partWay⟩

def increment : Thunk := .load 0 fun x => .store 0 (x + 1) (.ret x)

-- Thread 0 takes the lock and stops inside its section; thread 1 runs that section to its end and
-- returns nothing; thread 0 goes on.
def helpedSection : List Event :=
  .call 0 increment :: List.replicate 9 (.step 0) ++ .call 1 increment :: List.replicate 18
    (.step 1) ++ List.replicate 8 (.step 0)

theorem helped_section_atomic :
    ∃ last, Run step free (start fun _ => ⟨5, 1⟩) helpedSection last ∧ last.memory 0 = ⟨6, 2⟩ ∧
    (0, 5) ∈ last.sections ∧ 1 ∉ last.taken := by
  have replayed : (replay step free helpedSection (start fun _ => ⟨5, 1⟩)).map
    (fun s => (s.memory 0, s.returned)) =
      some (⟨6, 2⟩, [(1, none), (0, some 5)]) := by
    decide +kernel
  obtain ⟨last, same, facts⟩ := Option.map_eq_some_iff.mp replayed
  obtain ⟨word, returned⟩ := Prod.mk.inj facts
  have run := run_of_replay helpedSection same
  have answers := (sections_atomic run).2.2
  have own : (0, some 5) ∈ last.returned :=
    returned ▸ List.mem_cons_of_mem _ (List.mem_singleton_self _)
  have helper : (1, none) ∈ last.returned := returned ▸ List.mem_cons_self
  exact ⟨last, run, word, (answers 0 _ own).2 5 rfl, (answers 1 _ helper).1 rfl⟩

end SetBench.FlockLock
