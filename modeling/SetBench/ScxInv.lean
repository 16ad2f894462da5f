import SetBench.Scx

/-! What holds in every state of a run. Nodes that an scx has frozen stay frozen until it is
decided, because nobody links to a tag that is not; the allFrozen bit excludes an abort,
since a node that was lost to another scx can never be frozen again. -/
namespace SetBench.Scx

variable {V : Type} {max : Nat}

def Phase.Seals (p : Phase) : Prop := p = .frozen ∨ p = .committed

def Phase.Decides (p : Phase) : Prop := p = .committed ∨ p = .aborted

def Sealed (w : World V) (t : Tag) : Prop := ∃ r, w.record t = some r ∧ r.phase.Seals

def Decided (w : World V) (t : Tag) : Prop := t = .init ∨ ∃ r, w.record t = some r ∧ r.phase.Decides

/-- A tag that a later scx may find in the node and replace. -/
def Linkable (w : World V) (n : Nat) (t : Tag) : Prop :=
  t = .init ∨ ∃ r, w.record t = some r ∧
    (r.phase = .aborted ∨ r.phase = .committed ∧ ∀ d ∈ r.op.deps, d.node = n → d.finalize = false)

-- One of its nodes went to another scx.
def Doomed (w : World V) (t : Tag) (op : Op V) : Prop :=
  ∃ d ∈ op.deps, d.seen ∈ (w.held d.node).tail ∧ t ∉ w.held d.node

structure LinkOk (w : World V) (n : Nat) (t : Tag) (link : Nat → List V) : Prop where
  held : t ∈ w.held n
  linkable : Linkable w n t
  same : w.scxPtr n = t → w.log n = link
  past : ∀ i, link i <:+ w.log n i

/-- At the update nothing has happened to the nodes since the linked llx. -/
def MomentOk (t : Tag) (r : Record V) (m : Moment V) : Prop :=
  ∀ d ∈ r.op.deps, m.log d.node = r.link d.node ∧ ∀ x ∈ m.markers d.node, x = t

structure RecordOk (max : Nat) (w : World V) (t : Tag) (r : Record V) : Prop where
  room : r.op.deps.length ≤ max
  links : ∀ d ∈ r.op.deps, LinkOk w d.node d.seen (r.link d.node)
  same : ∀ d ∈ r.op.deps, ∀ e ∈ r.op.deps, d.node = e.node → d.seen = e.seen
  field : ∃ d ∈ r.op.deps, d.node = r.op.node
  old : (r.link r.op.node r.op.index).head? = some r.op.oldVal
  new : r.op.newVal ∉ r.link r.op.node r.op.index
  left : ∀ d ∈ r.op.deps, t ∈ w.held d.node → d.seen ∈ (w.held d.node).tail
  still : ∀ d ∈ r.op.deps, w.scxPtr d.node = t → r.updates = [] → w.log d.node = r.link d.node
  holds : r.phase.Seals → ∀ d ∈ r.op.deps, t ∈ w.held d.node
  unchanged : ¬ r.phase.Seals → r.updates = []
  updated : ∀ m rest, r.updates = m :: rest → rest = [] ∧ MomentOk t r m ∧
    r.op.newVal :: r.link r.op.node r.op.index <:+ w.log r.op.node r.op.index
  committed : r.phase = .committed → r.updates ≠ [] ∧ ∀ d ∈ r.op.deps, d.finalize = true →
    t ∈ w.markers d.node
  aborted : r.phase = .aborted → Doomed w t r.op
  returned : ∀ b, r.returned = some b → r.phase = if b then .committed else .aborted

structure Consistent (m : Mutables) : Prop where
  committed : m.state = .committed → m.allFrozen = true
  aborted : m.state = .aborted → m.allFrozen = false

/-- A descriptor at an even sequence number is its owner's, at an odd one it is published. -/
structure DescOk (w : World V) (tid : Nat) : Prop where
  even : (w.mutables tid).seq % 2 = 0 → (w.mutables tid).state = .inProgress ∧
    (w.mutables tid).allFrozen = false
  odd : (w.mutables tid).seq % 2 = 1 → Consistent (w.mutables tid) ∧
    ∃ r, w.record (.desc tid (w.mutables tid).seq) = some r ∧ (w.mutables tid).phase = r.phase ∧
      (w.desc tid).body.op = r.op
  used : ∀ s r, w.record (.desc tid s) = some r → s % 2 = 1 ∧ s ≤ (w.mutables tid).seq ∧
    (s < (w.mutables tid).seq → r.phase.Decides)

def CallOk (w : World V) (c : LlxCall V) : Prop :=
  match c.result with
  | .snapshot copy => (∀ i < c.llx.width, copy i = c.words i) ∧ c.marked = false
  | .finalized => w.markers c.llx.node ≠ []
  | .failed => True

structure Good (max : Nat) (w : World V) : Prop where
  ptr : ∀ n, (w.held n).head? = some (w.scxPtr n)
  once : ∀ n, (w.held n).Nodup
  word : ∀ n i, (w.log n i).head? = some (w.word n i)
  fresh : ∀ n i, (w.log n i).Nodup
  marked : ∀ n, w.marked n = true ↔ w.markers n ≠ []
  marker : ∀ n, ∀ t ∈ w.markers n, t = w.scxPtr n ∧
    ∃ r, w.record t = some r ∧ r.phase.Seals ∧ ∃ d ∈ r.op.deps, d.node = n ∧ d.finalize = true
  past : ∀ n, ∀ t ∈ (w.held n).tail, Linkable w n t
  known : ∀ n, ∀ t ∈ w.held n, t = .init ∨ ∃ r, w.record t = some r ∧
    ∀ d ∈ r.op.deps.head?, t ∈ w.held d.node
  dummy : w.record .init = none
  record : ∀ t r, w.record t = some r → RecordOk max w t r
  desc : ∀ tid, DescOk w tid
  handle : ∀ tid n h, w.handle tid n = some h → LinkOk w n h.tag h.link
  llxs : ∀ c ∈ w.llxs, CallOk w c

/-! What a thread knows. -/

def Agree (got source : Body V) : Slot → Prop
  | .oldVal => got.oldVal = source.oldVal
  | .newVal => got.newVal = source.newVal
  | .field => got.field = source.field
  | .numNodes => got.numNodes = source.numNodes
  | .node i => got.nodes i = source.nodes i
  | .finalize i => got.finalize i = source.finalize i
  | .seen i => got.seen i = source.seen i

/-- The copy is good so far unless the descriptor has been used again. -/
def Copying (max : Nat) (w : World V) (tid seq snapSeq : Nat) (todo : List Slot) (got : Body V) :
    Prop :=
  (w.mutables tid).seq = seq → snapSeq = seq ∧ ∀ slot ∈ slots max, slot ∈ todo ∨
  Agree got (w.desc tid).body slot

def LlxOk (w : World V) (l : Llx) : Prop := l.marked = true → w.markers l.node ≠ []

def CallerOk (w : World V) (tid : Nat) (h : Help V) : Prop :=
  match h.caller with
  | .owner => h.tid = tid ∧ (w.mutables tid).seq = h.seq
  | .llx l => LlxOk w l

def Begun (w : World V) (t : Tag) (op : Op V) : Prop := ∀ d ∈ op.deps.head?, t ∈ w.held d.node

def Upto (w : World V) (t : Tag) (op : Op V) (i : Nat) : Prop :=
  ∀ j < i, ∀ d ∈ op.deps[j]?, t ∈ w.held d.node

def Frozen (w : World V) (t : Tag) (op : Op V) : Prop := ∀ d ∈ op.deps, t ∈ w.held d.node

def Finalized (w : World V) (t : Tag) (op : Op V) : Prop :=
  ∀ d ∈ op.deps, d.finalize = true → t ∈ w.markers d.node

def Changed (w : World V) (t : Tag) : Prop := ∃ r, w.record t = some r ∧ r.updates ≠ []

def Aborting (w : World V) (t : Tag) (op : Op V) : Prop :=
  (∃ r, w.record t = some r ∧ r.phase = .aborted) ∨ Doomed w t op

def PlaceOk (w : World V) (t : Tag) (seq : Nat) (op : Op V) : Place → Prop
  | .freeze i => Upto w t op i ∧ (0 < i → Begun w t op)
  | .recheck i d =>
      Upto w t op i ∧ (0 < i → Begun w t op) ∧ op.deps[i]? = some d ∧ d.seen ∈ (w.held d.node).tail
  | .readFrozen => Decided w t ∨ Doomed w t op
  | .abortRead => Aborting w t op
  | .abortCas seen => Aborting w t op ∧ seen.seq = seq ∧ seen.state ≠ .aborted
  | .frozenRead => Frozen w t op
  | .frozenCas seen => Frozen w t op ∧ seen.seq = seq ∧ seen.allFrozen = false
  | .mark i => Sealed w t ∧ ∀ j < i, ∀ d ∈ op.deps[j]?, d.finalize = true → t ∈ w.markers d.node
  | .update => Sealed w t ∧ Finalized w t op
  | .commitRead => Sealed w t ∧ Finalized w t op ∧ Changed w t
  | .commitCas seen =>
      Sealed w t ∧ Finalized w t op ∧ Changed w t ∧ seen.seq = seq ∧ seen.state ≠ .committed

structure HelpOk (w : World V) (tid : Nat) (h : Help V) (place : Place) : Prop where
  record : ∃ r, w.record h.tag = some r ∧ r.op = h.op
  snap : h.snapSeq = h.seq
  caller : CallerOk w tid h
  place : PlaceOk w h.tag h.seq h.op place

/-- An scx before it is published. -/
structure Armed (max : Nat) (w : World V) (tid : Nat) (op : Op V) : Prop where
  room : op.deps.length ≤ max
  deps : ∀ d ∈ op.deps, (w.handle tid d.node).map Handle.tag = some d.seen
  field : ∃ d ∈ op.deps, d.node = op.node
  old : (w.links tid op.node op.index).head? = some op.oldVal
  new : op.newVal ∉ w.links tid op.node op.index

-- Whether the thread's descriptor is published.
def Pc.owns : Pc V → Bool
  | .help h _ => match h.caller with
    | .owner => true
    | .llx _ => false
  | .makeTag _ => true
  | .descNew _ => true
  | .renew _ _ => true
  | _ => false

def Own (w : World V) (tid : Nat) (P : Record V → Prop) : Prop :=
  ∃ r, w.record (.desc tid (w.mutables tid).seq) = some r ∧ P r

def PcOk (max : Nat) (w : World V) (tid : Nat) : Pc V → Prop
  | .idle => True
  | .llxMarked _ _ => True
  | .llxPtr l => LlxOk w l
  | .llxState l t => LlxOk w l ∧ t ∈ w.held l.node
  | .llxAgain l t => LlxOk w l ∧ t ∈ w.held l.node ∧ Decided w t
  | .llxCopy l t i copy =>
      LlxOk w l ∧ t ∈ w.held l.node ∧ Linkable w l.node t ∧
        (w.scxPtr l.node = t → ∀ j < i, copy j = w.word l.node j)
  | .llxCheck l t copy =>
      LlxOk w l ∧ t ∈ w.held l.node ∧ Linkable w l.node t ∧
        (w.scxPtr l.node = t → ∀ j < l.width, copy j = w.word l.node j)
  | .copyMutables l other seq => LlxOk w l ∧ .desc other seq ∈ w.held l.node
  | .copy l other seq snapSeq todo got =>
      LlxOk w l ∧ .desc other seq ∈ w.held l.node ∧ Copying max w other seq snapSeq todo got
  | .validate l other seq snapSeq got =>
      LlxOk w l ∧ .desc other seq ∈ w.held l.node ∧ Copying max w other seq snapSeq [] got
  | .help h place => HelpOk w tid h place
  | .fill op todo => Armed max w tid op ∧ (todo.foldl Body.write (w.desc tid).body).op = op
  | .initialized op => Armed max w tid op ∧ (w.desc tid).body.op = op
  | .publish op seen => Armed max w tid op ∧ (w.desc tid).body.op = op ∧ seen = w.mutables tid
  | .makeTag op => Own w tid fun r => r.op = op
  | .descNew result => Own w tid fun r => r.phase = if result then .committed else .aborted
  | .renew result seen =>
      Own w tid (fun r => r.phase = if result then .committed else .aborted) ∧ seen.seq =
        (w.mutables tid).seq

structure ThreadOk (max : Nat) (w : World V) (tid : Nat) (pc : Pc V) : Prop where
  knows : PcOk max w tid pc
  owns : (w.mutables tid).seq % 2 = if pc.owns then 1 else 0

structure Inv (max : Nat) (w : World V) : Prop where
  good : Good max w
  threads : ∀ tid, ThreadOk max w tid (w.pc tid)

/-! What steps do to each other. -/

structure Later (r r' : Record V) : Prop where
  op : r'.op = r.op
  link : r'.link = r.link
  phase : r'.phase = r.phase ∨ r.phase = .running ∨ r.phase = .frozen ∧ r'.phase = .committed
  updates : r.updates ≠ [] → r'.updates ≠ []

structure Evolves (w w' : World V) : Prop where
  held : ∀ n, w.held n <:+ w'.held n
  enters : ∀ t r, w.record t = some r → ∀ d ∈ r.op.deps, t ∈ w'.held d.node → t ∈ w.held d.node ∨
    w.scxPtr d.node = d.seen
  record : ∀ t r, w.record t = some r → ∃ r', w'.record t = some r' ∧ Later r r'
  markers : ∀ n, w.markers n <:+ w'.markers n
  log : ∀ n i, w.log n i <:+ w'.log n i
  quiet : ∀ n, Linkable w n (w.scxPtr n) → w'.scxPtr n = w.scxPtr n → w'.log n = w.log n ∧
    w'.word n = w.word n
  seq : ∀ tid, (w.mutables tid).seq ≤ (w'.mutables tid).seq
  body : ∀ tid, (w.mutables tid).seq % 2 = 1 → (w'.mutables tid).seq = (w.mutables tid).seq →
    (w'.desc tid).body = (w.desc tid).body

-- The steps of other threads.
structure Spares (w w' : World V) (tid : Nat) : Prop where
  seq : (w'.mutables tid).seq = (w.mutables tid).seq
  even : (w.mutables tid).seq % 2 = 0 → w'.desc tid = w.desc tid
  handle : w'.handle tid = w.handle tid

section Evolves

variable {w w' : World V} {t : Tag} {n : Nat} {op : Op V}

theorem tail_subset {a b : List Tag} (suffix : a <:+ b) {x : Tag} (member : x ∈ a.tail) :
    x ∈ b.tail := by
  obtain ⟨front, rfl⟩ := suffix
  cases front with
  | nil => exact member
  | cons y front =>
      show x ∈ front ++ a
      exact List.mem_append_right _ (List.mem_of_mem_tail member)

theorem Good.not_tail (good : Good max w) : w.scxPtr n ∉ (w.held n).tail := by
  have ptr := good.ptr n
  have once := good.once n
  cases list : w.held n with
  | nil => simp [list] at ptr
  | cons x rest =>
      rw [list] at ptr once
      cases ptr
      exact (List.nodup_cons.mp once).1

theorem Good.ptr_mem (good : Good max w) : w.scxPtr n ∈ w.held n :=
  List.mem_of_mem_head? (good.ptr n)

theorem Good.ptr_or_tail (good : Good max w) (member : t ∈ w.held n) :
    w.scxPtr n = t ∨ t ∈ (w.held n).tail := by
  have ptr := good.ptr n
  cases list : w.held n with
  | nil =>
      rw [list] at member
      cases member
  | cons x rest =>
      rw [list] at ptr member
      cases ptr
      rcases List.mem_cons.mp member with rfl | member
      · exact .inl rfl
      · exact .inr member

theorem Later.seals {r r' : Record V} (later : Later r r') (seals : r.phase.Seals) :
    r'.phase.Seals := by
  rcases later.phase with same | running | ⟨_, committed⟩
  · rw [same]
    exact seals
  · rcases seals with frozen | committed
    · rw [frozen] at running
      cases running
    · rw [committed] at running
      cases running
  · exact .inr committed

theorem Later.decides {r r' : Record V} (later : Later r r') (decides : r.phase.Decides) :
    r'.phase = r.phase := by
  rcases later.phase with same | running | ⟨frozen, _⟩
  · exact same
  · rcases decides with other | other
    · rw [other] at running
      cases running
    · rw [other] at running
      cases running
  · rcases decides with other | other
    · rw [other] at frozen
      cases frozen
    · rw [other] at frozen
      cases frozen

variable (evolves : Evolves w w')

include evolves

theorem Evolves.sealed (sealed : Sealed w t) : Sealed w' t := by
  obtain ⟨r, here, seals⟩ := sealed
  obtain ⟨r', there, later⟩ := evolves.record t r here
  exact ⟨r', there, later.seals seals⟩

theorem Evolves.decided (decided : Decided w t) : Decided w' t := by
  rcases decided with rfl | ⟨r, here, decides⟩
  · exact .inl rfl
  · obtain ⟨r', there, later⟩ := evolves.record t r here
    exact .inr ⟨r', there, (later.decides decides).symm ▸ decides⟩

theorem Evolves.linkable (linkable : Linkable w n t) : Linkable w' n t := by
  rcases linkable with rfl | ⟨r, here, aborted | ⟨committed, spared⟩⟩
  · exact .inl rfl
  · obtain ⟨r', there, later⟩ := evolves.record t r here
    exact .inr ⟨r', there, .inl ((later.decides (.inr aborted)).trans aborted)⟩
  · obtain ⟨r', there, later⟩ := evolves.record t r here
    exact .inr ⟨r', there, .inr ⟨(later.decides (.inl committed)).trans committed,
      later.op ▸ spared⟩⟩

theorem Evolves.mem_held (member : t ∈ w.held n) : t ∈ w'.held n := (evolves.held n).mem member

theorem Evolves.mem_markers (member : t ∈ w.markers n) : t ∈ w'.markers n :=
  (evolves.markers n).mem member

theorem Evolves.doomed (good : Good max w) {r : Record V} (here : w.record t = some r)
    (doomed : Doomed w t r.op) : Doomed w' t r.op := by
  obtain ⟨d, among, gone, never⟩ := doomed
  refine ⟨d, among, tail_subset (evolves.held _) gone, fun member => ?_⟩
  rcases evolves.enters t r here d among member with member | same
  · exact never member
  · exact good.not_tail (same ▸ gone)

theorem Evolves.changed (changed : Changed w t) : Changed w' t := by
  obtain ⟨r, here, some_⟩ := changed
  obtain ⟨r', there, later⟩ := evolves.record t r here
  exact ⟨r', there, later.updates some_⟩

-- A tag that was replaced does not come back.
theorem Evolves.ptr_back (good : Good max w) (heads : ∀ n, w'.scxPtr n ∉ (w'.held n).tail)
    (member : t ∈ w.held n) (now : w'.scxPtr n = t) :
    w.scxPtr n = t := by
  rcases good.ptr_or_tail member with here | gone
  · exact here
  · exact absurd (tail_subset (evolves.held n) gone) (now ▸ heads n)

theorem Evolves.upto {i : Nat} (upto : Upto w t op i) : Upto w' t op i :=
  fun j less d at_ => evolves.mem_held (upto j less d at_)

theorem Evolves.begun (begun : Begun w t op) : Begun w' t op :=
  fun d first => evolves.mem_held (begun d first)

theorem Evolves.finalized (finalized : Finalized w t op) : Finalized w' t op :=
  fun d among finalize => evolves.mem_markers (finalized d among finalize)

theorem LlxOk.keep {l : Llx} (ok : LlxOk w l) : LlxOk w' l := by
  intro marked none_
  have suffix := evolves.markers l.node
  rw [none_, List.suffix_nil] at suffix
  exact ok marked suffix

theorem Copying.keep (good : Good max w) {tid seq snapSeq : Nat} {todo : List Slot} {got : Body V}
    (held : .desc tid seq ∈ w.held n) (ok : Copying max w tid seq snapSeq todo got) :
    Copying max w' tid seq snapSeq todo got := by
  intro now
  rcases good.known n _ held with no | ⟨r, here, _⟩
  · cases no
  · obtain ⟨odd, upto, _⟩ := (good.desc tid).used seq r here
    have before : (w.mutables tid).seq = seq := Nat.le_antisymm (now ▸ evolves.seq tid) upto
    rw [evolves.body tid (before ▸ odd) (now.trans before.symm)]
    exact ok before

-- Nothing happens to a node as long as a decided tag stays in it.
theorem Evolves.copied (good : Good max w) (heads : ∀ n, w'.scxPtr n ∉ (w'.held n).tail)
    (held : t ∈ w.held n) (linkable : Linkable w n t) {i : Nat} {copy : Nat → V}
    (ok : w.scxPtr n = t → ∀ j < i, copy j = w.word n j) :
    w'.scxPtr n = t → ∀ j < i, copy j = w'.word n j := by
  intro now
  have before := evolves.ptr_back good heads held now
  have same := evolves.quiet n (before.symm ▸ linkable) (now.trans before.symm)
  rw [same.2]
  exact ok before

theorem LinkOk.keep (good : Good max w) (heads : ∀ n, w'.scxPtr n ∉ (w'.held n).tail)
    {link : Nat → List V} (ok : LinkOk w n t link) : LinkOk w' n t link := by
  refine ⟨evolves.mem_held ok.held, evolves.linkable ok.linkable, fun now => ?_,
    fun i => (ok.past i).trans (evolves.log n i)⟩
  have before := evolves.ptr_back good heads ok.held now
  rw [(evolves.quiet n (before.symm ▸ ok.linkable) (now.trans before.symm)).1]
  exact ok.same before

theorem PlaceOk.keep (good : Good max w) {r : Record V} (here : w.record t = some r)
    (same : r.op = op) {seq : Nat} {place : Place} (ok : PlaceOk w t seq op place) :
    PlaceOk w' t seq op place := by
  have doomed (d : Doomed w t op) : Doomed w' t op := by
    rw [← same] at d ⊢
    exact evolves.doomed good here d
  have aborting (a : Aborting w t op) : Aborting w' t op := by
    rcases a with ⟨r, at_, aborted⟩ | d
    · obtain ⟨r', there, later⟩ := evolves.record t r at_
      exact .inl ⟨r', there, (later.decides (.inr aborted)).trans aborted⟩
    · exact .inr (doomed d)
  cases place with
  | freeze i => exact ⟨evolves.upto ok.1, fun positive => evolves.begun (ok.2 positive)⟩
  | recheck i d =>
      exact ⟨evolves.upto ok.1, fun positive => evolves.begun (ok.2.1 positive), ok.2.2.1,
        tail_subset (evolves.held _) ok.2.2.2⟩
  | readFrozen =>
      rcases ok with decided | d
      · exact .inl (evolves.decided decided)
      · exact .inr (doomed d)
  | abortRead => exact aborting ok
  | abortCas seen => exact ⟨aborting ok.1, ok.2⟩
  | frozenRead => exact fun d among => evolves.mem_held (ok d among)
  | frozenCas seen => exact ⟨fun d among => evolves.mem_held (ok.1 d among), ok.2⟩
  | mark i =>
      exact ⟨evolves.sealed ok.1, fun j less d at_ finalize => evolves.mem_markers
        (ok.2 j less d at_ finalize)⟩
  | update => exact ⟨evolves.sealed ok.1, evolves.finalized ok.2⟩
  | commitRead => exact ⟨evolves.sealed ok.1, evolves.finalized ok.2.1, evolves.changed ok.2.2⟩
  | commitCas seen =>
      exact ⟨evolves.sealed ok.1, evolves.finalized ok.2.1, evolves.changed ok.2.2.1, ok.2.2.2⟩

theorem ThreadOk.keep (good : Good max w) (good' : Good max w') {tid : Nat}
    (spares : Spares w w' tid) {pc : Pc V} (ok : ThreadOk max w tid pc) :
    ThreadOk max w' tid pc := by
  obtain ⟨knows, owns⟩ := ok
  have owns' : (w'.mutables tid).seq % 2 = if pc.owns then 1 else 0 := by
    rw [spares.seq]
    exact owns
  have armed {op : Op V} (a : Armed max w tid op) : Armed max w' tid op := by
    have links : w'.links tid = w.links tid := by
      funext n
      simp only [World.links, spares.handle]
    refine ⟨a.room, ?_, a.field, ?_, ?_⟩
    · rw [spares.handle]
      exact a.deps
    · rw [links]
      exact a.old
    · rw [links]
      exact a.new
  have own {P : Record V → Prop} (stable : ∀ r r', Later r r' → P r → P r') (o : Own w tid P) :
    Own w' tid P := by
    obtain ⟨r, here, holds⟩ := o
    obtain ⟨r', there, later⟩ := evolves.record _ r here
    refine ⟨r', ?_, stable r r' later holds⟩
    rw [spares.seq]
    exact there
  have decides {result : Bool} (r r' : Record V) (later : Later r r')
    (holds : r.phase = if result then .committed else .aborted) :
      r'.phase = if result then .committed else .aborted := by
    refine (later.decides ?_).trans holds
    cases result with
    | true => exact .inl holds
    | false => exact .inr holds
  refine ⟨?_, owns'⟩
  cases pc with
  | idle => trivial
  | llxMarked n width => trivial
  | llxPtr l => exact LlxOk.keep evolves knows
  | llxState l t => exact ⟨knows.1.keep evolves, evolves.mem_held knows.2⟩
  | llxAgain l t =>
      exact ⟨knows.1.keep evolves, evolves.mem_held knows.2.1, evolves.decided knows.2.2⟩
  | llxCopy l t i copy =>
      exact ⟨knows.1.keep evolves, evolves.mem_held knows.2.1, evolves.linkable knows.2.2.1,
        evolves.copied good (fun _ => good'.not_tail) knows.2.1 knows.2.2.1 knows.2.2.2⟩
  | llxCheck l t copy =>
      exact ⟨knows.1.keep evolves, evolves.mem_held knows.2.1, evolves.linkable knows.2.2.1,
        evolves.copied good (fun _ => good'.not_tail) knows.2.1 knows.2.2.1 knows.2.2.2⟩
  | copyMutables l other seq => exact ⟨knows.1.keep evolves, evolves.mem_held knows.2⟩
  | copy l other seq snapSeq todo got =>
      exact ⟨knows.1.keep evolves, evolves.mem_held knows.2.1,
        knows.2.2.keep evolves good knows.2.1⟩
  | validate l other seq snapSeq got =>
      exact ⟨knows.1.keep evolves, evolves.mem_held knows.2.1,
        knows.2.2.keep evolves good knows.2.1⟩
  | help h place =>
      obtain ⟨r, here, same⟩ := knows.record
      refine ⟨?_, knows.snap, ?_, knows.place.keep evolves good here same⟩
      · obtain ⟨r', there, later⟩ := evolves.record _ r here
        exact ⟨r', there, later.op.trans same⟩
      · have caller := knows.caller
        unfold CallerOk at caller ⊢
        split at caller
        · exact ⟨caller.1, spares.seq.trans caller.2⟩
        · exact caller.keep evolves
  | fill op todo =>
      have even : (w.mutables tid).seq % 2 = 0 := owns
      refine ⟨armed knows.1, ?_⟩
      rw [spares.even even]
      exact knows.2
  | initialized op =>
      have even : (w.mutables tid).seq % 2 = 0 := owns
      refine ⟨armed knows.1, ?_⟩
      rw [spares.even even]
      exact knows.2
  | publish op seen =>
      have even : (w.mutables tid).seq % 2 = 0 := owns
      refine ⟨armed knows.1, ?_⟩
      rw [World.mutables, spares.even even]
      exact knows.2
  | makeTag op => exact own (fun r r' later holds => later.op.trans holds) knows
  | descNew result => exact own decides knows
  | renew result seen => exact ⟨own decides knows.1, knows.2.trans spares.seq.symm⟩

end Evolves

end SetBench.Scx
