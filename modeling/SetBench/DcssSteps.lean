import SetBench.DcssHistory

/-! What each thread may rely on at each position, and that the steps of all threads keep
it. A helper knows of the tagptr it saw only that it was installed once; what it copied
from the descriptor is good as long as the sequence number has not moved. -/
namespace SetBench.Dcss

open Transition

variable {V : Type} {w after : World V} {tid seq : Nat} {op : Op V} {blank : Op V}

/-- The words before `field` agree. -/
def Op.Upto (got op : Op V) : Field → Prop
  | .addr1 => True
  | .old1 => got.addr1 = op.addr1
  | .addr2 => got.addr1 = op.addr1 ∧ got.old1 = op.old1
  | .old2 => got.addr1 = op.addr1 ∧ got.old1 = op.old1 ∧ got.addr2 = op.addr2
  | .new2 => got.addr1 = op.addr1 ∧ got.old1 = op.old1 ∧ got.addr2 = op.addr2 ∧ got.old2 = op.old2

theorem Op.Upto.next {got op : Op V} {field next : Field} (agree : got.Upto op field)
    (more : field.next = some next) :
    (got.put op field).Upto op next := by
  cases field <;> cases more <;> simp_all [Op.Upto, Op.put]

theorem Op.Upto.last {got op : Op V} {field : Field} (agree : got.Upto op field)
    (last : field.next = none) :
    got.put op field = op := by
  cases field <;> cases last
  obtain ⟨addr1, old1, addr2, old2⟩ := agree
  cases op
  simp_all [Op.put]

def stateOf : Option (Bool × Nat) → State
  | none => .undecided
  | some (true, _) => .succeeded
  | some (false, _) => .failed

structure Seen (w : World V) (tid seq : Nat) (r : Record V) (i : Nat) : Prop where
  issued : w.record tid seq = some r
  installed : r.installed = some i

structure Fits (help : Help V) (r : Record V) : Prop where
  seq : help.snapSeq = help.seq
  snap : help.snap = r.op

def PlaceOk (w : World V) : Place V → Prop
  | .attempt => True
  | .copyMutables tid seq => ∃ r i, Seen w tid seq r i
  | .copy tid seq snapSeq got field => ∃ r i, Seen w tid seq r i ∧
      ((w.desc tid).mutables.seq = seq → snapSeq = seq ∧ got.Upto r.op field)
  | .validate tid seq snapSeq got => ∃ r i, Seen w tid seq r i ∧
      ((w.desc tid).mutables.seq = seq → snapSeq = seq ∧ got = r.op)
  | .readAddr1 help => ∃ r i, Seen w help.tid help.seq r i ∧ Fits help r
  | .readMutables help val1 instant => ∃ r i, Seen w help.tid help.seq r i ∧ Fits help r ∧
      i < instant ∧ instant < w.clock ∧ w.controlAt instant r.op.addr1 = val1
  | .casState help val1 instant seen => ∃ r i, Seen w help.tid help.seq r i ∧ Fits help r ∧
      i < instant ∧ instant < w.clock ∧ w.controlAt instant r.op.addr1 = val1 ∧ seen = help.seq
  | .finish help _ success => ∃ r i, Seen w help.tid help.seq r i ∧ Fits help r ∧
      ((∃ instant, r.verdict = some (success, instant)) ∨ help.seq < (w.desc help.tid).mutables.seq)

def Help.own (help : Help V) : Option (Nat × Nat) :=
  if help.helpingOther then none else some (help.tid, help.seq)

/-- The tagptr of the call that dcssHelp runs for its own thread. -/
def Place.own : Place V → Option (Nat × Nat)
  | .readAddr1 help | .readMutables help _ _ | .casState help _ _ _ | .finish help _ _ => help.own
  | _ => none

/-- The descriptor is the thread's alone: no call has its sequence number. -/
structure Filling (w : World V) (tid : Nat) : Prop where
  unissued : w.record tid (w.desc tid).mutables.seq = none
  undecided : (w.desc tid).mutables.state = .undecided

structure Live (w : World V) (tid : Nat) (op : Op V) (seq started : Nat) (r : Record V) : Prop where
  current : (w.desc tid).mutables.seq = seq
  issued : w.record tid seq = some r
  op : r.op = op
  started : r.started = started
  waiting : r.returned = none

def TaskOk (w : World V) (tid started : Nat) (own : Option (Nat × Nat)) : Task V → Prop
  | .read _ => own = none
  | .dcss op seq => ∃ r, Live w tid op seq started r ∧
      ((own = none ∧ r.installed = none) ∨ (own = some (tid, seq) ∧ r.installed ≠ none))

def PcOk (w : World V) (tid started : Nat) : Pc V → Prop
  | .idle => True
  | .descNew _ => True
  | .renew _ seen => seen.seq = (w.desc tid).mutables.seq
  | .fill op field => Filling w tid ∧ (w.desc tid).op.Upto op field
  | .initialized op => Filling w tid ∧ (w.desc tid).op = op
  | .publish op seen => Filling w tid ∧ (w.desc tid).op = op ∧ seen = (w.desc tid).mutables
  | .makeTag op => ∃ r, Live w tid op (w.desc tid).mutables.seq started r ∧ r.installed = none
  | .work task place => PlaceOk w place ∧ TaskOk w tid started place.own task

structure Inv (w : World V) : Prop where
  history : History w
  bounded : ∀ tid seq r, w.record tid seq = some r → seq ≤ (w.desc tid).mutables.seq
  current : ∀ tid r, w.record tid (w.desc tid).mutables.seq = some r →
    (w.desc tid).op = r.op ∧ (w.desc tid).mutables.state = stateOf r.verdict
  threads : ∀ tid, (w.thread tid).started ≤ w.clock ∧ PcOk w tid (w.thread tid).started
    (w.thread tid).pc
  owners : ∀ a tid seq, w.data a = .tag tid seq →
    ∃ op place, (w.thread tid).pc = .work (.dcss op seq) place ∧ place.own = some (tid, seq)

/-! What a step leaves to the others. -/

/-- Nothing that a thread relies on goes away. -/
structure Moves (w after : World V) : Prop where
  later : Later w after
  grows : ∀ tid seq r, w.record tid seq = some r → ∃ r', after.record tid seq = some r' ∧ Grows r r'
  up : ∀ tid, (w.desc tid).mutables.seq ≤ (after.desc tid).mutables.seq

/-- The step leaves `tid` its descriptor and its calls, up to verdicts. -/
structure Spares (w after : World V) (tid : Nat) : Prop where
  seq : (after.desc tid).mutables.seq = (w.desc tid).mutables.seq
  op : (after.desc tid).op = (w.desc tid).op
  unissued : w.record tid (w.desc tid).mutables.seq = none →
    after.desc tid = w.desc tid ∧ after.record tid (w.desc tid).mutables.seq = none
  issued : ∀ seq r, w.record tid seq = some r → ∃ r', after.record tid seq = some r' ∧ Grows r r' ∧
    r'.installed = r.installed ∧ r'.returned = r.returned

theorem PlaceOk.extend (inv : Inv w) (moves : Moves w after) {place : Place V}
    (ok : PlaceOk w place) : PlaceOk after place := by
  have seen {tid seq i : Nat} {r : Record V} (seen : Seen w tid seq r i) :
    ∃ r', Seen after tid seq r' i ∧ Grows r r' := by
    obtain ⟨r', issued, grown⟩ := moves.grows tid seq r seen.issued
    exact ⟨r', ⟨issued, grown.installed i seen.installed⟩, grown⟩
  -- a sequence number that is still the tagptr's has not moved
  have still {tid seq i : Nat} {r : Record V} (seen : Seen w tid seq r i)
    (same : (after.desc tid).mutables.seq = seq) :
      (w.desc tid).mutables.seq = seq := by
    have low := inv.bounded tid seq r seen.issued
    have high := moves.up tid
    omega
  have clock := moves.later.clock
  cases place with
  | attempt => trivial
  | copyMutables tid seq =>
      obtain ⟨r, i, here⟩ := ok
      obtain ⟨r', there, _⟩ := seen here
      exact ⟨r', i, there⟩
  | copy tid seq snapSeq got field =>
      obtain ⟨r, i, here, agree⟩ := ok
      obtain ⟨r', there, grown⟩ := seen here
      refine ⟨r', i, there, fun same => ?_⟩
      rw [grown.op]
      exact agree (still here same)
  | validate tid seq snapSeq got =>
      obtain ⟨r, i, here, agree⟩ := ok
      obtain ⟨r', there, grown⟩ := seen here
      refine ⟨r', i, there, fun same => ?_⟩
      rw [grown.op]
      exact agree (still here same)
  | readAddr1 help =>
      obtain ⟨r, i, here, fits⟩ := ok
      obtain ⟨r', there, grown⟩ := seen here
      exact ⟨r', i, there, fits.seq, by rw [grown.op]; exact fits.snap⟩
  | readMutables help val1 instant =>
      obtain ⟨r, i, here, fits, low, high, read⟩ := ok
      obtain ⟨r', there, grown⟩ := seen here
      refine ⟨r', i, there, ⟨fits.seq, by rw [grown.op]; exact fits.snap⟩, low, by omega, ?_⟩
      rw [grown.op, moves.later.control instant high.le]
      exact read
  | casState help val1 instant seenSeq =>
      obtain ⟨r, i, here, fits, low, high, read, same⟩ := ok
      obtain ⟨r', there, grown⟩ := seen here
      refine ⟨r', i, there, ⟨fits.seq, by rw [grown.op]; exact fits.snap⟩, low, by omega, ?_, same⟩
      rw [grown.op, moves.later.control instant high.le]
      exact read
  | finish help val1 success =>
      obtain ⟨r, i, here, fits, done⟩ := ok
      obtain ⟨r', there, grown⟩ := seen here
      refine ⟨r', i, there, ⟨fits.seq, by rw [grown.op]; exact fits.snap⟩, ?_⟩
      rcases done with ⟨instant, verdict⟩ | gone
      · exact .inl ⟨instant, grown.verdict _ verdict⟩
      · exact .inr (gone.trans_le (moves.up help.tid))

theorem Live.extend {started : Nat} {r : Record V} (live : Live w tid op seq started r)
    (spares : Spares w after tid) :
    ∃ r', Live after tid op seq started r' ∧ r'.installed = r.installed := by
  obtain ⟨r', issued, grown, installed, returned⟩ := spares.issued seq r live.issued
  refine ⟨r', ⟨?_, issued, ?_, ?_, ?_⟩, installed⟩
  · rw [spares.seq]
    exact live.current
  · rw [grown.op]
    exact live.op
  · rw [grown.started]
    exact live.started
  · rw [returned]
    exact live.waiting

theorem TaskOk.extend {started : Nat} {own : Option (Nat × Nat)} {task : Task V}
    (ok : TaskOk w tid started own task) (spares : Spares w after tid) :
    TaskOk after tid started own task := by
  cases task with
  | read a => exact ok
  | dcss op seq =>
      obtain ⟨r, live, installed⟩ := ok
      obtain ⟨r', live', same⟩ := live.extend spares
      exact ⟨r', live', by rw [same]; exact installed⟩

theorem Filling.extend (filling : Filling w tid) (spares : Spares w after tid) :
    Filling after tid ∧ after.desc tid = w.desc tid := by
  obtain ⟨same, unissued⟩ := spares.unissued filling.unissued
  refine ⟨⟨?_, ?_⟩, same⟩
  · rw [same]
    exact unissued
  · rw [same]
    exact filling.undecided

theorem PcOk.extend (inv : Inv w) (moves : Moves w after) (spares : Spares w after tid)
    {started : Nat} {pc : Pc V} (ok : PcOk w tid started pc) : PcOk after tid started pc := by
  cases pc with
  | idle => trivial
  | descNew op => trivial
  | renew op seen =>
      have same : seen.seq = (w.desc tid).mutables.seq := ok
      exact same.trans spares.seq.symm
  | fill op field =>
      obtain ⟨filling, agree⟩ := ok
      obtain ⟨filling', same⟩ := filling.extend spares
      exact ⟨filling', by rw [same]; exact agree⟩
  | initialized op =>
      obtain ⟨filling, agree⟩ := ok
      obtain ⟨filling', same⟩ := filling.extend spares
      exact ⟨filling', by rw [same]; exact agree⟩
  | publish op seen =>
      obtain ⟨filling, agree, read⟩ := ok
      obtain ⟨filling', same⟩ := filling.extend spares
      exact ⟨filling', by rw [same]; exact agree, by rw [same]; exact read⟩
  | makeTag op =>
      obtain ⟨r, live, fresh⟩ := ok
      obtain ⟨r', live', same⟩ := live.extend spares
      refine ⟨r', ?_, by rw [same]; exact fresh⟩
      rw [spares.seq]
      exact live'
  | work task place =>
      obtain ⟨placeOk, taskOk⟩ := ok
      exact ⟨placeOk.extend inv moves, taskOk.extend spares⟩

/-- The invariant after a step of `tid`: what is left to show is about `tid` and the
words it wrote. -/
theorem Inv.move (inv : Inv w) (moves : Moves w after) (spares : ∀ t, t ≠ tid → Spares w after t)
    (others : ∀ t, t ≠ tid → after.thread t = w.thread t) (history : History after)
    (bounded : ∀ seq r, after.record tid seq = some r → seq ≤ (after.desc tid).mutables.seq)
    (current : ∀ t r, after.record t (after.desc t).mutables.seq = some r →
      (after.desc t).op = r.op ∧ (after.desc t).mutables.state = stateOf r.verdict)
    (begun : (after.thread tid).started ≤ after.clock)
    (ok : PcOk after tid (after.thread tid).started (after.thread tid).pc)
    (fresh : ∀ t seq, t ≠ tid → w.record t seq = none → after.record t seq = none)
    (owners : ∀ a t seq, after.data a = .tag t seq → ∃ op place, (after.thread t).pc = .work
      (.dcss op seq) place ∧ place.own = some (t, seq)) : Inv after := by
  refine ⟨history, fun t seq r issued => ?_, current, fun t => ?_, owners⟩
  · by_cases same : t = tid
    · subst same
      exact bounded seq r issued
    · rw [(spares t same).seq]
      cases old : w.record t seq with
      | none =>
          rw [fresh t seq same old] at issued
          cases issued
      | some r' => exact inv.bounded t seq r' old
  · by_cases same : t = tid
    · subst same
      exact ⟨begun, ok⟩
    · obtain ⟨early, fine⟩ := inv.threads t
      rw [others t same]
      exact ⟨by rw [moves.later.clock]; omega, fine.extend inv moves (spares t same)⟩

/-! Steps that change no shared word. -/

section Quiet

variable (later : Later w after) (record : after.record = w.record) (desc : after.desc = w.desc)
include later record desc

theorem quiet_moves : Moves w after := by
  refine ⟨later, fun t seq r issued => ⟨r, ?_, .refl r⟩, fun t => ?_⟩
  · rw [record]
    exact issued
  · rw [desc]

omit later in
theorem quiet_spares (t : Nat) : Spares w after t := by
  refine ⟨by rw [desc], by rw [desc],
    fun unissued => ⟨by rw [desc], by rw [record]; exact unissued⟩, fun seq r issued => ?_⟩
  exact ⟨r, by rw [record]; exact issued, .refl r, rfl, rfl⟩

omit desc in
theorem quiet_history (history : History w) (data : after.data = w.data)
    (reads : ∀ c ∈ after.reads, c.finished < after.clock ∧ ∃ k, c.started ≤ k ∧ k ≤ c.finished ∧
      after.dataAt k c.addr = .value c.value) :
    History after := by
  have grows : ∀ t seq r, w.record t seq = some r → ∃ r', after.record t seq = some r' ∧
    Grows r r' := by
    intro t seq r issued
    exact ⟨r, by rw [record]; exact issued, .refl r⟩
  refine history.extend later grows (fun t seq r issued => ?_) (fun a t seq tag => ?_)
    (fun a => same_now later history (by rw [data])) reads
  · rw [record] at issued
    refine (history.records t seq r issued).extend later fun i installed undecided => ?_
    rw [data]
    exact history.open_now issued installed undecided
  · rw [data] at tag
    exact history.known_now later grows tag

theorem quiet_inv (tid : Nat) (inv : Inv w) (data : after.data = w.data)
    (reads : ∀ c ∈ after.reads, c.finished < after.clock ∧ ∃ k, c.started ≤ k ∧ k ≤ c.finished ∧
      after.dataAt k c.addr = .value c.value)
    (others : ∀ t, t ≠ tid → after.thread t = w.thread t)
    (begun : (after.thread tid).started ≤ after.clock)
    (ok : PcOk after tid (after.thread tid).started (after.thread tid).pc)
    (keeps : ∀ op seq place, (w.thread tid).pc = .work (.dcss op seq) place →
      place.own = some (tid, seq) → ∃ place', (after.thread tid).pc = .work (.dcss op seq) place' ∧
      place'.own = some (tid, seq)) : Inv after := by
  refine inv.move (quiet_moves later record desc) (fun t _ => quiet_spares record desc t) others
    (quiet_history later record inv.history data reads) (fun seq r issued => ?_)
    (fun t r issued => ?_) begun ok
    (fun t seq _ unissued => by rw [record]; exact unissued) fun a t seq tag => ?_
  · rw [record] at issued
    rw [desc]
    exact inv.bounded tid seq r issued
  · rw [record, desc] at issued
    rw [desc]
    exact inv.current t r issued
  · rw [data] at tag
    obtain ⟨op, place, here, own⟩ := inv.owners a t seq tag
    by_cases same : t = tid
    · subst same
      obtain ⟨place', there, own'⟩ := keeps op seq place here own
      exact ⟨op, place', there, own'⟩
    · exact ⟨op, place, by rw [others t same]; exact here, own⟩

end Quiet

theorem goto_later (w : World V) (tid : Nat) (pc : Pc V) : Later w (w.goto tid pc) := tick_later w

theorem goto_inv (inv : Inv w) {pc : Pc V}
    (ok : PcOk (w.goto tid pc) tid (w.thread tid).started pc)
    (keeps : ∀ op seq place, (w.thread tid).pc = .work (.dcss op seq) place →
      place.own = some (tid, seq) → ∃ place', pc = .work (.dcss op seq) place' ∧ place'.own =
      some (tid, seq)) : Inv (w.goto tid pc) := by
  have self : (w.goto tid pc).thread tid = ⟨pc, (w.thread tid).started⟩ :=
    Function.update_self _ _ _
  refine quiet_inv (goto_later w tid pc) rfl rfl tid inv rfl
    (reads_later (w := w) (goto_later w tid pc) inv.history)
    (fun t differ => Function.update_of_ne differ _ _) ?_ (by rw [self]; exact ok)
    (by rw [self]; exact keeps)
  rw [self]
  exact (inv.threads tid).1.trans (Nat.le_succ _)

/-- A step inside the loops that only moves the thread on. -/
theorem place_inv (inv : Inv w) {task : Task V} {place place' : Place V}
    (here : (w.thread tid).pc = .work task place) (own : place'.own = place.own)
    (ok : PlaceOk (w.goto tid (.work task place')) place') :
    Inv (w.goto tid (.work task place')) := by
  have fine := (inv.threads tid).2
  rw [here] at fine
  have spares : Spares w (w.goto tid (.work task place')) tid := quiet_spares (by rfl) (by rfl) tid
  refine goto_inv inv ⟨ok, ?_⟩ ?_
  · rw [own]
    exact fine.2.extend spares
  · intro op seq place₁ there own₁
    rw [here] at there
    cases there
    exact ⟨place', rfl, own.trans own₁⟩

theorem start_inv (inv : Inv w) (idle : (w.thread tid).pc = .idle) {pc : Pc V}
    (ok : PcOk (w.start tid pc) tid w.clock pc) :
    Inv (w.start tid pc) := by
  have self : (w.start tid pc).thread tid = ⟨pc, w.clock⟩ := Function.update_self _ _ _
  have later : Later w (w.start tid pc) := tick_later w
  refine quiet_inv later rfl rfl tid inv rfl (reads_later (w := w) later inv.history)
    (fun t differ => Function.update_of_ne differ _ _) ?_ (by rw [self]; exact ok) ?_
  · rw [self]
    exact Nat.le_succ _
  · intro op seq place there
    rw [idle] at there
    cases there

theorem store_inv (inv : Inv w) (a : Nat) (v : V) :
    Inv { w with control := Function.update w.control a v }.tick := by
  have later : Later w { w with control := Function.update w.control a v }.tick := tick_later w
  have spares : Spares w { w with control := Function.update w.control a v }.tick 0 :=
    quiet_spares (by rfl) (by rfl) 0
  obtain ⟨begun, ok⟩ := inv.threads 0
  refine quiet_inv later rfl rfl 0 inv rfl (reads_later (w := w) later inv.history) (fun _ _ => rfl)
    (begun.trans (Nat.le_succ _)) (ok.extend inv (quiet_moves later rfl rfl) spares) ?_
  intro op seq place there own
  exact ⟨place, there, own⟩

theorem returnRead_inv (inv : Inv w) {a : Nat} {v : V} {place : Place V}
    (here : (w.thread tid).pc = .work (.read a) place) (held : w.data a = .value v) :
    Inv (w.returnRead tid a v) := by
  have self : (w.returnRead tid a v).thread tid = ⟨.idle, (w.thread tid).started⟩ :=
    Function.update_self _ _ _
  have later : Later w (w.returnRead tid a v) := tick_later w
  obtain ⟨begun, _⟩ := inv.threads tid
  refine quiet_inv later rfl rfl tid inv rfl ?_
    (fun t differ => Function.update_of_ne differ _ _) ?_
    (by rw [self]; trivial) ?_
  · intro c member
    rcases List.mem_cons.mp member with rfl | old
    · refine ⟨Nat.lt_succ_self _, w.clock, begun, le_refl _, ?_⟩
      rw [later.data w.clock (le_refl _), inv.history.dataNow]
      exact held
    · exact reads_later later inv.history c old
  · rw [self]
    exact begun.trans (Nat.le_succ _)
  · intro op seq place there
    rw [here] at there
    cases there

end SetBench.Dcss
