import SetBench.ArtAssert
import SetBench.ArtContents
import SetBench.Transition

/-! Every link of an insert or a remove of art.h changes the map by exactly its own key,
in any interleaving: the invariant of the tree, the locks and the history of links. -/
namespace SetBench.ArtThreads

open Radix KeyVals MapSpec Art

variable {K V : Type} [RadixKey K]

/-! Locks. -/

def locks : Thread K V → List Nat
  | .idle => []
  | .run _ _ held => held.filterMap id

/-- The lock table and the stacks of the threads agree. -/
structure LockInv (owner : Nat → Option Nat) (thread : Nat → Thread K V) : Prop where
  mine : ∀ tid id, owner id = some tid ↔ id ∈ locks (thread tid)
  nodup : ∀ tid, (locks (thread tid)).Nodup

section Locks

variable {owner : Nat → Option Nat} {thread : Nat → Thread K V} {tid : Nat} {next : Thread K V}

omit [RadixKey K] in
theorem LockInv.update (inv : LockInv owner thread) (same : locks next = locks (thread tid)) :
    LockInv owner (Function.update thread tid next) := by
  have all (other : Nat) : locks (Function.update thread tid next other) =
    locks (thread other) := by
    by_cases here : other = tid
    · subst here
      rw [Function.update_self, same]
    · rw [Function.update_of_ne here]
  refine ⟨fun other id => ?_, fun other => ?_⟩
  · rw [all]
    exact inv.mine other id
  · rw [all]
    exact inv.nodup other

omit [RadixKey K] in
theorem LockInv.acquire (inv : LockInv owner thread) {id : Nat} {owner' : Nat → Option Nat}
    {entry : Option Nat} (taken : tryLock owner id tid = some (owner', entry))
    (grown : locks next = entry.toList ++ locks (thread tid)) :
    LockInv owner' (Function.update thread tid next) := by
  unfold tryLock at taken
  cases free : owner id with
  | some other =>
      simp only [free, Option.ite_none_right_eq_some, Option.some.injEq, Prod.mk.injEq] at taken
      obtain ⟨_, rfl, rfl⟩ := taken
      exact inv.update grown
  | none =>
      simp only [free, Option.some.injEq, Prod.mk.injEq] at taken
      obtain ⟨rfl, rfl⟩ := taken
      -- A free lock is on no stack.
      have absent (other : Nat) : id ∉ locks (thread other) := fun member => by
        rw [(inv.mine other id).mpr member] at free
        cases free
      refine ⟨fun other lock => ?_, fun other => ?_⟩
      · by_cases here : other = tid
        · subst here
          rw [Function.update_self, grown]
          by_cases same : lock = id
          · simp [same]
          · simp [inv.mine, same]
        · rw [Function.update_of_ne here]
          by_cases same : lock = id
          · subst same
            simp [Ne.symm here, absent]
          · rw [Function.update_of_ne same]
            exact inv.mine other lock
      · by_cases here : other = tid
        · subst here
          rw [Function.update_self, grown]
          exact List.nodup_cons.mpr ⟨absent other, inv.nodup other⟩
        · rw [Function.update_of_ne here]
          exact inv.nodup other

omit [RadixKey K] in
theorem LockInv.release (inv : LockInv owner thread) {entry : Option Nat}
    (popped : locks (thread tid) = entry.toList ++ locks next) :
    LockInv (release owner entry) (Function.update thread tid next) := by
  cases entry with
  | none => exact inv.update popped.symm
  | some id =>
      have distinct := inv.nodup tid
      simp only [Option.toList_some, List.singleton_append] at popped
      rw [popped, List.nodup_cons] at distinct
      have own : owner id = some tid :=
        (inv.mine tid id).mpr (by rw [popped]; exact List.mem_cons_self)
      refine ⟨fun other lock => ?_, fun other => ?_⟩
      · simp only [ArtThreads.release]
        by_cases here : other = tid
        · subst here
          rw [Function.update_self]
          by_cases same : lock = id
          · subst same
            simp [distinct.1]
          · rw [Function.update_of_ne same, inv.mine, popped]
            simp [same]
        · rw [Function.update_of_ne here]
          by_cases same : lock = id
          · subst same
            have foreign : lock ∉ locks (thread other) := fun member => by
              rw [(inv.mine other lock).mpr member] at own
              exact here (Option.some.inj own)
            simp [foreign]
          · rw [Function.update_of_ne same]
            exact inv.mine other lock
      · by_cases here : other = tid
        · subst here
          rw [Function.update_self]
          exact distinct.2
        · rw [Function.update_of_ne here]
          exact inv.nodup other

omit [RadixKey K] in
-- A lock of one thread is on the stack of no other.
theorem LockInv.exclusive (inv : LockInv owner thread) {one other id : Nat} (apart : other ≠ one)
    (mine : id ∈ locks (thread one)) : id ∉ locks (thread other) := by
  intro theirs
  have first := (inv.mine one id).mpr mine
  rw [(inv.mine other id).mpr theirs] at first
  exact apart (Option.some.inj first)

end Locks

/-! Histories. -/

def kinds (k : K) (links : List (K × Kind)) : List Kind :=
  (links.filter fun link => link.1 = k).map Prod.snd

/-- Inserts and removes by turns, an insert first. -/
def Alternates (history : List Kind) : Prop :=
  ∀ i kind, history[i]? = some kind → kind = if i % 2 = 0 then .insert else .remove

theorem Alternates.snoc {history : List Kind} (alternates : Alternates history) {kind : Kind}
    (turn : kind = if history.length % 2 = 0 then .insert else .remove) :
    Alternates (history ++ [kind]) := by
  intro i other here
  rcases Nat.lt_trichotomy i history.length with before | same | beyond
  · rw [List.getElem?_append_left before] at here
    exact alternates i other here
  · subst same
    rw [List.getElem?_concat_length] at here
    cases here
    exact turn
  · rw [List.getElem?_eq_none (by simp; omega)] at here
    cases here

theorem Alternates.count {history : List Kind} (alternates : Alternates history) :
    history.count .insert = (history.length + 1) / 2 ∧ history.count .remove =
      history.length / 2 := by
  induction history using List.reverseRecOn with
  | nil => exact ⟨rfl, rfl⟩
  | append_singleton earlier kind ih =>
      have before : Alternates earlier := fun i other here =>
        alternates i other
          (by rw [List.getElem?_append_left (List.getElem?_eq_some_iff.mp here).1]; exact here)
      obtain ⟨inserts, removes⟩ := ih before
      have turn := alternates earlier.length kind List.getElem?_concat_length
      rw [List.count_append, List.count_append, inserts, removes, List.length_append,
        List.length_singleton, turn]
      split
      · simp only [List.count_singleton_self, List.count_singleton, reduceCtorEq, beq_iff_eq,
          if_false]
        omega
      · simp only [List.count_singleton_self, List.count_singleton, reduceCtorEq, beq_iff_eq,
          if_false]
        omega

/-- The links of a key tell whether the tree holds it. -/
def History (heap : Heap K (Leaf K V)) (links : List (K × Kind)) : Prop :=
  ∀ k, Alternates (kinds k links) ∧ ((∃ v, Below heap root k v) ↔ (kinds k links).length % 2 = 1)

theorem kinds_append (k k' : K) (links : List (K × Kind)) (kind : Kind) :
    kinds k' (links ++ [(k, kind)]) = if k = k' then kinds k' links ++ [kind]
      else kinds k' links := by
  by_cases same : k = k'
  · simp [kinds, List.filter_append, same]
  · simp [kinds, List.filter_append, same]

section History

variable {heap after : Heap K (Leaf K V)} {links : List (K × Kind)} {k : K}

theorem History.insert {v : V} (history : History heap links) (absent : ∀ v, ¬ Below heap root k v)
    (inserted : Inserted heap after k v) : History after (links ++ [(k, .insert)]) := by
  intro k'
  obtain ⟨alternates, stored⟩ := history k'
  rw [kinds_append]
  by_cases same : k = k'
  · subst same
    have even : (kinds k links).length % 2 = 0 := by
      have none_ : ¬ ∃ v, Below heap root k v := fun ⟨v, below⟩ => absent v below
      rw [stored] at none_
      omega
    rw [if_pos rfl]
    refine ⟨alternates.snoc (by rw [if_pos even]), ?_⟩
    rw [List.length_append, List.length_singleton]
    exact ⟨fun _ => by omega, fun _ => ⟨v, (inserted k v).mpr (Or.inr ⟨rfl, rfl⟩)⟩⟩
  · rw [if_neg same]
    refine ⟨alternates, ?_⟩
    rw [← stored]
    exact exists_congr fun v' => by simp [inserted k' v', Ne.symm same]

theorem History.remove {v : V} (history : History heap links) (present : Below heap root k v)
    (deleted : Deleted heap after k) : History after (links ++ [(k, .remove)]) := by
  intro k'
  obtain ⟨alternates, stored⟩ := history k'
  rw [kinds_append]
  by_cases same : k = k'
  · subst same
    have odd : (kinds k links).length % 2 = 1 := stored.mp ⟨v, present⟩
    rw [if_pos rfl]
    refine ⟨alternates.snoc (by rw [if_neg (by omega)]), ?_⟩
    rw [List.length_append, List.length_singleton]
    refine ⟨fun ⟨v', below⟩ => absurd rfl ((deleted k v').mp below).2, fun _ => by omega⟩
  · rw [if_neg same]
    refine ⟨alternates, ?_⟩
    rw [← stored]
    exact exists_congr fun v' => by simp [deleted k' v', Ne.symm same]

end History

/-! The invariant. -/

structure Inv (lockOf : Addr → Nat) (w : World K V) : Prop where
  sound : Sound 2 maxSparseSize w.heap
  leaves : Leaves Leaf.Ok w.heap
  live : ∀ x q, w.heap.node x = some (.inner q) → q.removed = false → Path w.heap q.key root x
  locks : LockInv w.owner w.thread
  threads : ∀ tid op pc held, w.thread tid = .run op pc held → Assert lockOf w.heap op held pc
  history : History w.heap w.links

section Step

variable {lockOf : Addr → Nat} {w : World K V} {tid : Nat} {op : Op K V} {pc pc' : Pc V}
    {held : List (Option Nat)}
  (inv : Inv lockOf w) (here : w.thread tid = .run op pc held)
include inv here

omit here in
theorem Inv.threads_update {next : Thread K V}
    (asserts : ∀ op pc held, next = .run op pc held → Assert lockOf w.heap op held pc) :
    ∀ other op pc held, Function.update w.thread tid next other = .run op pc held →
      Assert lockOf w.heap op held pc := by
  intro other op pc held there
  by_cases same : other = tid
  · subst same
    rw [Function.update_self] at there
    exact asserts op pc held there
  · rw [Function.update_of_ne same] at there
    exact inv.threads other op pc held there

theorem Inv.goto (asserts : Assert lockOf w.heap op held pc') :
    Inv lockOf (w.goto tid op pc' held) := by
  refine ⟨inv.sound, inv.leaves, inv.live, inv.locks.update ?_, inv.threads_update ?_, inv.history⟩
  · rw [here]
    rfl
  · rintro _ _ _ ⟨⟩
    exact asserts

theorem Inv.finish (free : held = []) (answer : Option V) :
    Inv lockOf (w.finish tid op answer) := by
  subst free
  cases answer with
  | none =>
      obtain ⟨p, walk⟩ := walk_root inv.sound (opKey op)
      exact inv.goto here ⟨rfl, p, walk⟩
  | some value =>
      refine ⟨inv.sound, inv.leaves, inv.live, inv.locks.update ?_, inv.threads_update ?_,
        inv.history⟩
      · rw [here]
        rfl
      · rintro _ _ _ ⟨⟩

theorem Inv.acquire {id : Nat} {owner : Nat → Option Nat} {entry : Option Nat}
    (taken : tryLock w.owner id tid = some (owner, entry))
    (asserts : Assert lockOf w.heap op (entry :: held) pc') :
    Inv lockOf ({ w with owner := owner }.goto tid op pc' (entry :: held)) := by
  refine ⟨inv.sound, inv.leaves, inv.live, inv.locks.acquire taken ?_, inv.threads_update ?_,
    inv.history⟩
  · rw [here]
    cases entry <;> rfl
  · rintro _ _ _ ⟨⟩
    exact asserts

-- A thread with an empty stack takes the lock; it has none to re-enter.
theorem Inv.outermost (free : held = []) {id : Nat} {owner : Nat → Option Nat} {entry : Option Nat}
    (taken : tryLock w.owner id tid = some (owner, entry)) : entry = some id := by
  unfold tryLock at taken
  cases owned : w.owner id with
  | none =>
      simp only [owned, Option.some.injEq, Prod.mk.injEq] at taken
      exact taken.2.symm
  | some other =>
      simp only [owned, Option.ite_none_right_eq_some] at taken
      rw [taken.1] at owned
      have member := (inv.locks.mine tid id).mp owned
      rw [here, free] at member
      cases member

theorem Inv.touch {a : Addr} {after : Heap K (Leaf K V)} {links : List (K × Kind)}
    (grows : Grows w.heap after (some a)) (mine : some (lockOf a) ∈ held)
    (sound : Sound 2 maxSparseSize after) (leaves : Leaves Leaf.Ok after)
    (live : ∀ x q, after.node x = some (.inner q) → q.removed = false → Path after q.key root x)
    (history : History after links) (asserts : Assert lockOf after op held pc') :
    Inv lockOf ({ w with heap := after, links := links }.goto tid op pc' held) := by
  refine ⟨sound, leaves, live, inv.locks.update ?_, ?_, history⟩
  · rw [here]
    rfl
  · intro other op' pc'' held' there
    by_cases same : other = tid
    · subst same
      simp only [World.goto, Function.update_self, Thread.run.injEq] at there
      obtain ⟨rfl, rfl, rfl⟩ := there
      exact asserts
    · simp only [World.goto, Function.update_of_ne same] at there
      refine (inv.threads other op' pc'' held' there).frame grows ?_
      rintro _ ⟨⟩ theirs
      have own : lockOf a ∈ ArtThreads.locks (w.thread tid) := by
        rw [here]
        exact List.mem_filterMap.mpr ⟨_, mine, rfl⟩
      refine inv.locks.exclusive same own ?_
      rw [there]
      exact List.mem_filterMap.mpr ⟨_, theirs, rfl⟩

-- A rewrite keeps every live node reachable, when the node it unlinks is marked.
omit here in
theorem Inv.rewrite_live {a : Addr} {gone : Option Addr} {after : Heap K (Leaf K V)}
    {New : Leaf K V → Prop} (rewrite : Rewrite 2 maxSparseSize w.heap after a gone New)
    (marked : ∀ x q, gone = some x → w.heap.node x = some (.inner q) → q.removed = true)
    (x : Addr) (q : Inner K) (there : after.node x = some (.inner q)) (flag : q.removed = false) :
    Path after q.key root x := by
  have old (p : Inner K) (before : w.heap.node x = some (.inner p)) (same : p.removed = false) :
      Path after p.key root x := by
    refine (rewrite.kept x p before fun lost => ?_).mpr (inv.live x p before same)
    rw [marked x p lost before] at same
    cases same
  cases before : w.heap.node x with
  | none => exact (rewrite.fresh x q there before).2
  | some node =>
      by_cases here : x = a
      · subst here
        obtain ⟨p, index, child, was, now⟩ := rewrite.slot
        rw [now] at there
        cases there
        exact old p was flag
      · rw [rewrite.same x node before here] at there
        cases there
        exact old q before flag

omit here in
theorem Inv.current {location : Location} (aimed : Aimed w.heap op location)
    (live : flagAt w.heap location.p = some false)
    (child : ∀ index, location.cptr = some index →
      childAt w.heap location.p index = some location.c) :
    ∃ p, Current w.heap (opKey op) location p := by
  obtain ⟨⟨p, seen⟩, ⟨index, cptr⟩, _⟩ := aimed
  have flag : p.removed = false := by simpa [flagAt, seen.here] using live
  have read : p.ptr.getD index none = location.c := by
    simpa [childAt, seen.here] using child index cptr
  have found : p.layout.find (RadixKey.byte (opKey op) p.byteNum) = some index :=
    seen.cptr.symm.trans cptr
  refine ⟨p, ⟨inv.sound, seen, inv.live _ p seen.here flag, ?_⟩, inv.leaves⟩
  rw [Inner.child_of_find found, read]

/-- The store under the lock of `p`. -/
theorem Inv.write {noValue : V} {location : Location} {after : World K V}
    (holds : Assert lockOf w.heap op held (.write location))
    (stepped : access lockOf noValue w tid op held (.write location) = some after) :
    Inv lockOf after := by
  obtain ⟨stack, aimed, live, child⟩ := holds
  obtain ⟨p, current⟩ := inv.current aimed live child
  obtain ⟨_, ⟨index, cptr⟩, answer⟩ := aimed
  have mine : some (lockOf location.p) ∈ held := by simp [stack]
  simp only [access, cptr, Option.bind_eq_bind, Option.bind_some] at stepped
  cases op with
  | insert k v =>
      obtain ⟨mid, new, made, rewrite, inserted⟩ := current.insertChild_spec cptr answer v
      have absent (old : V) : ¬ Below w.heap root k old := fun below => by
        have missing : leafFind w.heap location.c k = none := answer
        have found : leafFind w.heap location.c k = some old := (current.below old).mp below
        rw [missing] at found
        cases found
      have made : insertChild w.heap location.c location.bytePos k v = some (mid, new) := made
      simp only [body, opKey, made, Option.map_some, Option.bind_some, Option.some.injEq] at stepped
      subst stepped
      exact inv.touch here (rewrite_grows rewrite) mine rewrite.sound (rewrite.leaves inv.leaves)
        (inv.rewrite_live rewrite fun _ _ absurd_ => nomatch absurd_)
        (inv.history.insert absent inserted) trivial
  | remove k =>
      obtain ⟨value, found⟩ := answer
      obtain ⟨c, l, held_, there, member⟩ := (leafFind_iff inv.leaves location.c k value).mp found
      have answer := (find_some_iff (inv.leaves c l there).sorted k value).mpr member
      obtain ⟨rewrite, deleted⟩ := current.removeChild_spec cptr held_ there answer
      simp only [body, held_, Option.bind_some, there, answer, Option.map_some,
        Option.some.injEq] at stepped
      subst stepped
      exact inv.touch here (rewrite_grows rewrite) mine rewrite.sound (rewrite.leaves inv.leaves)
        (inv.rewrite_live rewrite fun _ _ absurd_ => nomatch absurd_)
        (inv.history.remove ((current.below value).mpr found) deleted) trivial

/-! add_child. -/

section AddChild

variable {location : Location} {g : Addr}

omit here in
theorem Inv.pointed {p : Inner K} (there : w.heap.node location.p = some (.inner p))
    (pointed : Pointed w.heap g location.p) : ∃ gp index, w.heap.node g = some (.inner gp) ∧
      parentSlot w.heap g location.p = some index ∧
        gp.layout.find (RadixKey.byte p.key gp.byteNum) = some index ∧
      gp.child (RadixKey.byte p.key gp.byteNum) = some location.p ∧ gp.byteNum < p.byteNum := by
  obtain ⟨index, slot, child⟩ := pointed
  cases above : w.heap.node g with
  | none => simp [parentSlot, above] at slot
  | some node =>
      cases node with
      | leaf l => simp [parentSlot, above] at slot
      | inner gp =>
          have found : gp.layout.find (RadixKey.byte p.key gp.byteNum) = some index := by
            simpa [parentSlot, above, there, Inner.getChild] using slot
          have held : gp.child (RadixKey.byte p.key gp.byteNum) = some location.p := by
            rw [Inner.child_of_find found]
            simpa [childAt, above] using child
          obtain ⟨node, present, fits⟩ := inv.sound.edge g gp _ _ above (RadixKey.byte_lt _ _) held
          rw [there] at present
          cases present
          exact ⟨gp, index, rfl, slot, found, held, fits.2.2⟩

theorem Inv.mark {noValue : V} {after : World K V}
    (holds : Assert lockOf w.heap op held (.mark location g))
    (stepped : access lockOf noValue w tid op held (.mark location g) = some after) :
    Inv lockOf after := by
  obtain ⟨nest, extending, live, pointed⟩ := holds
  obtain ⟨⟨k, v, rfl⟩, ⟨p, seen⟩, cptr, parent⟩ := extending
  obtain ⟨gp, index, above, slot, found, child, deeper⟩ := inv.pointed seen.here pointed
  have missing : p.getChild k = none := seen.cptr.symm.trans cptr
  have apart : g ≠ location.p := by
    intro same
    rw [same, seen.here] at above
    cases above
    exact Nat.lt_irrefl _ deeper
  have notRoot : location.p ≠ root := by
    intro same
    obtain ⟨top, there, _, zero, _⟩ := inv.sound.top
    have node := seen.here
    rw [same, there] at node
    cases node
    omega
  have grows := setRemoved_grows seen.here
  simp only [access, seen.here, opKey, missing, Option.isSome_none, Bool.false_eq_true, if_false,
    Option.some.injEq] at stepped
  subst stepped
  refine inv.touch here grows nest.mine.2 (setRemoved_sound inv.sound seen.here notRoot) ?_ ?_ ?_ ?_
  · exact fun x l there => inv.leaves x l ((setRemoved_leaf seen.here x l).mp there)
  · intro x q there flag
    rw [setRemoved_path seen.here]
    rw [setRemoved_node seen.here] at there
    split at there
    · cases there
      cases flag
    · exact inv.live x q there flag
  · intro k'
    obtain ⟨alternates, stored⟩ := inv.history k'
    refine ⟨alternates, ?_⟩
    rw [← stored]
    exact exists_congr fun v' => setRemoved_below seen.here root k' v'
  · have away : some location.p ≠ some g := fun same => apart (Option.some.inj same).symm
    refine ⟨nest, ?_, grows.flagAt away live, pointed.frame grows away, { p with removed := true },
      ?_, rfl, rfl⟩
    · exact Extending.frame grows ⟨⟨k, v, rfl⟩, ⟨p, seen⟩, cptr, parent⟩
    · rw [setRemoved_node seen.here, if_pos rfl]

/-- One load of the copy, or the store that links it. -/
theorem Inv.copy {noValue : V} {loaded : List (Option Addr)} {after : World K V}
    (holds : Assert lockOf w.heap op held (.copy location g loaded))
    (stepped : access lockOf noValue w tid op held (.copy location g loaded) = some after) :
    Inv lockOf after := by
  obtain ⟨nest, extending, live, pointed, p, there, marked, copied⟩ := holds
  obtain ⟨⟨k, v, rfl⟩, ⟨q, seen⟩, cptr, parent⟩ := extending
  obtain rfl : p = q := by
    have same := seen.here
    rw [there] at same
    cases same
    rfl
  simp only [access, there] at stepped
  split at stepped
  · rename_i short
    cases stepped
    refine inv.goto here ⟨nest, ⟨⟨k, v, rfl⟩, ⟨p, seen⟩, cptr, parent⟩, live, pointed, p, there,
      marked, ?_⟩
    rw [List.length_append, List.length_singleton, List.take_add_one, ← copied,
      List.getD_eq_getElem?_getD,
      List.getElem?_eq_getElem short]
    rfl
  · rename_i long
    have whole : loaded = p.ptr := by
      rw [copied]
      exact List.take_of_length_le (Nat.le_of_not_lt long)
    subst whole
    obtain ⟨gp, index, above, slot, found, child, deeper⟩ := inv.pointed there pointed
    have flag : gp.removed = false := by simpa [flagAt, above] using live
    have missing : p.getChild k = none := seen.cptr.symm.trans cptr
    have reach := inv.live g gp above flag
    have swing : Swing 2 maxSparseSize w.heap g location.p gp p k v index (Leaf.single k v) :=
      ⟨inv.sound, by decide, above, reach, found, child, there, seen.agree, missing,
        Leaf.single_one k v (inv.sound.ok _ _ there).2⟩
    have belongs : Belongs w.heap g p.key := by
      simp only [Belongs, above]
      exact swing.fits.1
    have path : Path w.heap p.key root location.p :=
      (reach.follow inv.sound belongs).snoc above child
    have absent (old : V) : ¬ Below w.heap root k old := fun below => by
      have empty : location.c = p.child (RadixKey.byte k p.byteNum) := by
        rw [seen.empty cptr]
        exact swing.no_child.symm
      obtain ⟨c, l, held_, _⟩ := (seen.below inv.sound path empty old).mp below
      rw [seen.empty cptr] at held_
      cases held_
    have rewrite := swing.rewrite.mono fun l same => same ▸ Leaf.single_ok k v
    simp only [slot, Option.bind_eq_bind, Option.bind_some, Option.some.injEq] at stepped
    subst stepped
    refine inv.touch here (rewrite_grows rewrite) nest.mine.1 rewrite.sound
      (rewrite.leaves inv.leaves)
      (inv.rewrite_live rewrite ?_) (inv.history.insert absent swing.inserted) trivial
    rintro x q ⟨⟩ node
    rw [there] at node
    cases node
    exact marked

end AddChild

/-! The other steps leave the tree alone. -/

theorem Inv.find {noValue : V} {gp : Option Addr} {a : Addr} {bytePos : Nat} {after : World K V}
    (holds : Assert lockOf w.heap op held (.find gp a bytePos))
    (stepped : access lockOf noValue w tid op held (.find gp a bytePos) = some after) :
    Inv lockOf after := by
  obtain ⟨free, p, walk⟩ := holds
  obtain ⟨result, round, shape⟩ := findStep_stepped inv.sound walk
  simp only [access, round] at stepped
  cases result with
  | inr next =>
      obtain ⟨q, further, _⟩ := shape
      cases stepped
      exact inv.goto here ⟨free, q, further⟩
  | inl location =>
      obtain ⟨seen, _⟩ := shape
      simp only [Option.map_eq_some_iff] at stepped
      obtain ⟨pc', chosen, rfl⟩ := stepped
      refine inv.goto here ?_
      cases op with
      | insert k v =>
          simp only [dispatch] at chosen
          split at chosen
          · cases chosen
            exact free
          · rename_i missing
            cases cptr : location.cptr with
            | some index =>
                rw [cptr] at chosen
                cases chosen
                exact ⟨free, ⟨p, seen⟩, ⟨index, cptr⟩, missing⟩
            | none =>
                rw [cptr] at chosen
                simp only [Option.map_eq_some_iff] at chosen
                obtain ⟨g, parent, rfl⟩ := chosen
                exact ⟨free, ⟨k, v, rfl⟩, ⟨p, seen⟩, cptr, parent⟩
      | remove k =>
          simp only [dispatch] at chosen
          split at chosen
          · cases chosen
            trivial
          · rename_i index cptr
            split at chosen
            · rename_i value found
              cases chosen
              exact ⟨free, ⟨p, seen⟩, ⟨index, cptr⟩, value, found⟩
            · cases chosen
              exact free

-- The stack after the second try_lock of add_child.
theorem Inv.nested {location : Location} {g : Addr} (stack : held = [some (lockOf g)])
    {owner : Nat → Option Nat} {entry : Option Nat}
    (taken : tryLock w.owner (lockOf location.p) tid = some (owner, entry)) :
    Nested lockOf location g (entry :: held) := by
  subst stack
  unfold tryLock at taken
  cases owned : w.owner (lockOf location.p) with
  | none =>
      simp only [owned, Option.some.injEq, Prod.mk.injEq] at taken
      rw [← taken.2]
      exact Or.inl rfl
  | some other =>
      simp only [owned, Option.ite_none_right_eq_some, Option.some.injEq, Prod.mk.injEq] at taken
      obtain ⟨rfl, _, rfl⟩ := taken
      have member := (inv.locks.mine other (lockOf location.p)).mp owned
      rw [here] at member
      exact Or.inr ⟨rfl, by simpa [ArtThreads.locks] using member⟩

theorem Inv.access {noValue : V} {after : World K V}
    (stepped : access lockOf noValue w tid op held pc = some after) : Inv lockOf after := by
  have holds := inv.threads tid op pc held here
  cases pc with
  | find gp a bytePos => exact inv.find here holds stepped
  | readChild location answer =>
      simp only [ArtThreads.access, Option.bind_eq_bind, Option.bind_eq_some_iff] at stepped
      obtain ⟨index, _, child, _, stepped⟩ := stepped
      split at stepped
      · cases stepped
        exact inv.goto here holds
      · cases stepped
        exact inv.finish here holds none
  | readFlag location answer =>
      simp only [ArtThreads.access, Option.bind_eq_bind, Option.bind_eq_some_iff] at stepped
      obtain ⟨removed, _, stepped⟩ := stepped
      split at stepped
      · cases stepped
        exact inv.finish here holds none
      · cases stepped
        exact inv.finish here holds (some answer)
  | lock location =>
      simp only [ArtThreads.access] at stepped
      split at stepped
      · cases stepped
        exact inv.finish here holds.1 none
      · rename_i owner entry taken
        cases stepped
        have entered := inv.outermost here holds.1 taken
        subst entered
        refine inv.acquire here taken ⟨by rw [holds.1], holds.2⟩
  | checkFlag location =>
      simp only [ArtThreads.access, Option.bind_eq_bind, Option.bind_eq_some_iff] at stepped
      obtain ⟨removed, read, stepped⟩ := stepped
      split at stepped
      · cases stepped
        exact inv.goto here trivial
      · rename_i live
        cases stepped
        refine inv.goto here ⟨holds.1, holds.2, ?_⟩
        rw [read]
        simpa using live
  | checkChild location =>
      simp only [ArtThreads.access, Option.bind_eq_bind, Option.bind_eq_some_iff] at stepped
      obtain ⟨index, cptr, child, read, stepped⟩ := stepped
      split at stepped
      · rename_i same
        cases stepped
        refine inv.goto here ⟨holds.1, holds.2.1, holds.2.2, fun other slot => ?_⟩
        rw [cptr] at slot
        cases slot
        rw [read, same]
      · cases stepped
        exact inv.goto here trivial
  | write location => exact inv.write here holds stepped
  | lockParent location g =>
      simp only [ArtThreads.access] at stepped
      split at stepped
      · cases stepped
        exact inv.finish here holds.1 none
      · rename_i owner entry taken
        cases stepped
        have entered := inv.outermost here holds.1 taken
        subst entered
        exact inv.acquire here taken ⟨by rw [holds.1], holds.2⟩
  | checkParentFlag location g =>
      simp only [ArtThreads.access, Option.bind_eq_bind, Option.bind_eq_some_iff] at stepped
      obtain ⟨removed, read, stepped⟩ := stepped
      split at stepped
      · cases stepped
        exact inv.goto here trivial
      · rename_i live
        cases stepped
        refine inv.goto here ⟨holds.1, holds.2, ?_⟩
        rw [read]
        simpa using live
  | checkParentChild location g =>
      simp only [ArtThreads.access, Option.bind_eq_bind, Option.bind_eq_some_iff] at stepped
      obtain ⟨index, slot, child, read, stepped⟩ := stepped
      split at stepped
      · rename_i same
        cases stepped
        exact inv.goto here ⟨holds.1, holds.2.1, holds.2.2, index, slot, by rw [read, same]⟩
      · cases stepped
        exact inv.goto here trivial
  | lockNode location g =>
      simp only [ArtThreads.access] at stepped
      split at stepped
      · cases stepped
        exact inv.goto here trivial
      · rename_i owner entry taken
        cases stepped
        exact inv.acquire here taken ⟨inv.nested here holds.1 taken, holds.2⟩
  | mark location g => exact inv.mark here holds stepped
  | copy location g loaded => exact inv.copy here holds stepped
  | unlock answer =>
      simp only [ArtThreads.access] at stepped
      split at stepped
      · cases stepped
        exact inv.finish here rfl answer
      · rename_i entry rest
        cases stepped
        refine ⟨inv.sound, inv.leaves, inv.live, inv.locks.release ?_, inv.threads_update ?_,
          inv.history⟩
        · rw [here]
          cases entry <;> rfl
        · rintro _ _ _ ⟨⟩
          trivial

end Step

section Run

variable {lockOf : Addr → Nat} {noValue : V} {w after : World K V}

theorem Inv.lose (inv : Inv lockOf w) {tid : Nat} (stepped : lose w tid = some after) :
    Inv lockOf after := by
  unfold ArtThreads.lose at stepped
  split at stepped
  · rename_i op location here
    cases stepped
    exact inv.finish here rfl none
  · rename_i op location g here
    cases stepped
    exact inv.finish here rfl none
  · rename_i op location g held here
    cases stepped
    exact inv.goto here trivial
  · cases stepped

theorem Inv.step (inv : Inv lockOf w) (event : Event K V)
    (stepped : step lockOf noValue w event = some after) :
    Inv lockOf after := by
  cases event with
  | call tid op =>
      simp only [ArtThreads.step] at stepped
      split at stepped
      · rename_i idle
        cases stepped
        refine ⟨inv.sound, inv.leaves, inv.live, inv.locks.update ?_, inv.threads_update ?_,
          inv.history⟩
        · rw [idle]
          rfl
        · rintro _ _ _ ⟨⟩
          exact ⟨rfl, walk_root inv.sound _⟩
      · cases stepped
  | move tid =>
      simp only [ArtThreads.step] at stepped
      split at stepped
      · cases stepped
      · rename_i op pc held here
        exact inv.access here stepped
  | lose tid => exact inv.lose stepped

theorem initial_inv (lockOf : Addr → Nat) (junk : Key) :
    Inv lockOf (World.initial junk : World Key V) := by
  obtain ⟨tree, empty⟩ := emptyTree_holds (V := V) junk
  refine ⟨tree.sound, tree.leaves, fun x q there live => (tree.marked x q there).mp live, ?_,
    ?_, ?_⟩
  · exact ⟨fun _ _ => by simp [World.initial, locks], fun _ => List.nodup_nil⟩
  · intro tid op pc held there
    cases there
  · intro k
    constructor
    · intro i kind here
      cases here
    · simp [World.initial, kinds, empty]

/-- In every interleaving the links of a key are inserts and removes by turns, and the
key is in one reachable leaf while its inserts exceed its removes and in none otherwise. -/
theorem no_lost_update (lockOf : Addr → Nat) (noValue : V) (junk : Key)
    (events : List (Event Key V)) (w : World Key V)
    (run : Transition.Run (step lockOf noValue) Transition.free (World.initial junk) events w)
    (k : Key) :
    Alternates (kinds k w.links) ∧
    (if (kinds k w.links).count .remove < (kinds k w.links).count .insert then
      ∃! a, ∃ l v, Reach w.heap root a ∧ w.heap.node a = some (.leaf l) ∧ (k, v) ∈ l.keyVals
    else ¬ ∃ a l v, Reach w.heap root a ∧ w.heap.node a = some (.leaf l) ∧ (k, v) ∈ l.keyVals) := by
  have inv : Inv lockOf w := Transition.run_invariant (Inv lockOf) (initial_inv lockOf junk)
    (fun before event after inv _ stepped => inv.step event stepped) run
  obtain ⟨alternates, stored⟩ := inv.history k
  obtain ⟨inserts, removes⟩ := alternates.count
  refine ⟨alternates, ?_⟩
  split
  · rename_i more
    obtain ⟨v, a, l, path, leaf, member⟩ := stored.mpr (by omega)
    refine ⟨a, ⟨l, v, path.reach, leaf, member⟩, ?_⟩
    rintro b ⟨m, v', reach, leaf', member'⟩
    rcases (reach.path inv.sound leaf' member').linear path with down | up
    · exact down.leaf_end leaf'
    · exact (up.leaf_end leaf).symm
  · rename_i less
    rintro ⟨a, l, v, reach, leaf, member⟩
    have odd := stored.mp ⟨v, a, l, reach.path inv.sound leaf member, leaf, member⟩
    omega

end Run

/-! Two inserts of one key that both found the same null slot: the second one fails its
check under the lock and starts again. -/

def sevenKey : Key := ⟨7, by decide⟩

def racingInserts : List (Event Key Nat) :=
  [.call 0 (.insert sevenKey 1), .call 1 (.insert sevenKey 2), .move 0, .move 1, .move 0, .move 0,
    .move 0, .move 0,
    .move 0, .move 0, .move 1, .move 1, .move 1, .move 1, .move 1]

theorem racing_replay : (Transition.replay (step (fun _ => 0) 0) Transition.free racingInserts
    (World.initial sevenKey)).map World.links = some [(sevenKey, Kind.insert)] := by decide +kernel

theorem racing_inserts_once : ∃ w : World Key Nat,
    Transition.Run (step (fun _ => 0) 0) Transition.free (World.initial sevenKey) racingInserts w ∧
    w.links = [(sevenKey, Kind.insert)] ∧
    ∃! a, ∃ l v, Reach w.heap root a ∧ w.heap.node a = some (.leaf l) ∧
      (sevenKey, v) ∈ l.keyVals := by
  obtain ⟨w, replayed, links⟩ := Option.map_eq_some_iff.mp racing_replay
  have run := Transition.run_of_replay racingInserts replayed
  refine ⟨w, run, links, ?_⟩
  have alone := (no_lost_update (fun _ => 0) 0 sevenKey racingInserts w run sevenKey).2
  rw [links, if_pos (by decide)] at alone
  exact alone

end SetBench.ArtThreads
