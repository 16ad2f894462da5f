import SetBench.AbRestructureBuild

/-! Restructuring touches real nodes only, as long as the root and the sibling that
cleanup reads without a lock stand still. -/
namespace SetBench.AbRestructure

open Transition
open AbPersist (Word clean markDirty entry)

variable {degree : Nat} {w after : World} {tid : Nat} {height tall : Nat → Nat} {info : Info}

theorem InfoOk.down (ok : InfoOk height w info) (shape : Shape height w)
    (inner : w.leaf info.node.value = false) {i : Nat} (bound : i < w.size info.node.value)
    (unmarked : (w.slot info.node.value i).dirty = false) :
    InfoOk height w (info.down i (w.slot info.node.value i)) :=
  ⟨unmarked, shape.slots _ ok.child.born inner i bound, ⟨ok.node, inner⟩, bound, ok.parent,
    ok.index, ok.child⟩

theorem Shape.first (shape : Shape height w) (unmarked : (w.slot entry 0).dirty = false) :
    InfoOk height w ⟨none, clean entry, 0, w.slot entry 0, 0⟩ := by
  have index : 0 < w.size entry := by
    rw [shape.entry_size]
    exact Nat.one_pos
  exact ⟨unmarked, shape.slots entry shape.born shape.entry_leaf 0 index,
    ⟨⟨rfl, shape.born⟩, shape.entry_leaf⟩, index, rfl⟩

theorem Inv.load (inv : Inv height w)
    (off : ∀ g i x rest next, w.pc tid ≠ .run (.store g i x :: rest) next) {job : Job} {i : Nat}
    (ok : InfoOk height w info)
    (passed : job = .cleanup → w.weight info.node.value = true ∧
      (w.leaf info.node.value = false → 2 ≤ w.size info.node.value))
    (stepped : loadStep w tid i job info = some after) : Inv height after := by
  simp only [loadStep] at stepped
  split at stepped
  · rename_i inner
    split at stepped <;> cases stepped
    · exact inv
    · rename_i tidy
      refine inv.moved off ⟨ok.down inv.shape inner.1 inner.2 (by simpa using tidy), fun job => ?_⟩
      exact ⟨(passed job).1, fun _ => (passed job).2 inner.1⟩
  · cases stepped

-- The locking sequences start with what their fixes promise.
theorem FixOk.tag_locks (ok : FixOk height w (.tag info)) :
    LockOk w tid (.tag info) (Fix.tag info).checks [] := by
  obtain ⟨g, found, inner, _⟩ := ok.1.grand_some (ok.1.tag_parent ok.2.2)
  refine ⟨nofun, List.nodup_nil, ?_, ?_, nofun⟩
  · intro p among
    simp only [Fix.reads, List.mem_cons, List.not_mem_nil, or_false] at among
    rcases among with rfl | rfl | rfl <;> simp [Fix.checks]
  · intro check among
    simp only [Fix.checks, List.mem_cons, List.not_mem_nil, or_false] at among
    rcases among with rfl | rfl | rfl | rfl | rfl | rfl
    · exact ⟨_, rfl, ok.1.node⟩
    · exact ⟨_, rfl, ok.1.node⟩
    · exact ⟨_, rfl, ok.1.parent.toReal⟩
    · exact ⟨_, rfl, ok.1.parent.toReal⟩
    · exact ⟨g, found, inner.toReal⟩
    · exact ⟨g, found, inner.toReal⟩

theorem FixOk.underfull_locks {sibling : Word} (ok : FixOk height w (.underfull info sibling)) :
    LockOk w tid (.underfull info sibling) (Fix.underfull info sibling).checks [] := by
  have all := FixOk.reads _ ok
  obtain ⟨info_ok, passed, heavy, other, unmarked, child⟩ := ok
  obtain ⟨g, found, inner, _⟩ := info_ok.grand_some other
  have beside : Real w sibling := child.real rfl unmarked
  have sides : Real w (info.left sibling) ∧ Real w (info.right sibling) := by
    rcases left_or_right info sibling with ⟨left, right⟩ | ⟨left, right⟩
    · rw [left, right]
      exact ⟨beside, info_ok.node⟩
    · rw [left, right]
      exact ⟨info_ok.node, beside⟩
  refine ⟨nofun, List.nodup_nil, ?_, ?_, ?_⟩
  · intro p among
    simp only [Fix.reads, List.mem_cons, List.not_mem_nil, or_false] at among
    rcases left_or_right info sibling with ⟨left, right⟩ | ⟨left, right⟩ <;>
      rcases among with rfl | rfl | rfl | rfl <;> simp [Fix.checks, left, right]
  · intro check among
    simp only [Fix.checks, List.mem_cons, List.not_mem_nil, or_false] at among
    rcases among with rfl | rfl | rfl | rfl | rfl | rfl | rfl | rfl | rfl | rfl
    · exact ⟨_, rfl, sides.1⟩
    · exact ⟨_, rfl, sides.2⟩
    · exact ⟨_, rfl, info_ok.node⟩
    · exact ⟨_, rfl, info_ok.node⟩
    · exact ⟨_, rfl, beside⟩
    · exact ⟨_, rfl, info_ok.parent.toReal⟩
    · exact ⟨_, rfl, info_ok.parent.toReal⟩
    · exact ⟨g, found, inner.toReal⟩
    · exact ⟨g, found, inner.toReal⟩
    · exact ⟨_, rfl, beside⟩
  · rintro _ _ ⟨⟩
    exact .inl (by simp [Fix.checks])

theorem FixOk.overflow_locks (ok : FixOk height w (.overflow info))
    (locked : w.lock info.node.value = some tid) :
    LockOk w tid (.overflow info) (Fix.overflow info).checks [info.node] := by
  refine ⟨?_, List.nodup_singleton _, ?_, ?_, nofun⟩
  · intro p among
    rw [List.mem_singleton.mp among]
    exact ⟨ok.1.node, locked⟩
  · intro p among
    simp only [Fix.reads, List.mem_cons, List.not_mem_nil, or_false] at among
    rcases among with rfl | rfl
    · exact .inr ⟨_, List.mem_singleton_self _, rfl⟩
    · exact .inl (by simp [Fix.checks])
  · intro check among
    simp only [Fix.checks, List.mem_cons, List.not_mem_nil, or_false] at among
    rcases among with rfl | rfl <;> exact ⟨_, rfl, ok.1.parent.toReal⟩

theorem LockOk.release {fix : Fix} {todo : List Check} {held : List Word} {next : Option Job}
    (ok : LockOk w tid fix todo held) :
    Pc.Ok height w tid (.run (held.map Act.unlock) next) := by
  refine ⟨RunOk.releases (fun p among => (ok.mine p among).1) ok.once, fun n among => ?_⟩
  have same : unlocks (held.map Act.unlock) = held.map Word.value := by
    simp [unlocks, List.filterMap_map]
  rw [same] at among
  obtain ⟨p, one, rfl⟩ := List.mem_map.mp among
  exact (ok.mine p one).2

-- A check that is not an acquisition.
theorem LockOk.passed {fix : Fix} {check : Check} {rest : List Check} {held : List Word}
    (ok : LockOk w tid fix (check :: rest) held) (other : ∀ p, check ≠ .acquire p)
    (passes : w.passes degree check = true) : LockOk w tid fix rest held := by
  refine ⟨ok.mine, ok.once, ?_, fun check among => ok.real check (List.mem_cons_of_mem _ among), ?_⟩
  · intro p among
    refine (ok.owned p among).imp_left fun member => ?_
    exact (List.mem_cons.mp member).resolve_left fun same => other p same.symm
  · intro info sibling same
    rcases ok.weighed info sibling same with member | heavy
    · rcases List.mem_cons.mp member with rfl | member
      · exact .inr passes
      · exact .inl member
    · exact .inr heavy

theorem LockOk.acquired {fix : Fix} {p : Word} {rest : List Check} {held : List Word}
    {locked : World} (grows : Grows height w height locked) (fixed : FixOk height w fix)
    (ok : LockOk w tid fix (.acquire (some p) :: rest) held)
    (mine : locked.lock p.value = some tid)
    (stays : ∀ m, w.lock m = some tid → locked.lock m = some tid ∧ m ≠ p.value) :
    LockOk locked tid fix rest (p :: held) := by
  obtain ⟨q, same, real⟩ := ok.real _ List.mem_cons_self
  cases same
  refine ⟨?_, ?_, ?_, ?_, ?_⟩
  · intro q among
    rcases List.mem_cons.mp among with rfl | among
    · exact ⟨real.kept grows, mine⟩
    · exact ⟨(ok.mine q among).1.kept grows, (stays _ (ok.mine q among).2).1⟩
  · refine List.nodup_cons.mpr ⟨fun member => ?_, ok.once⟩
    obtain ⟨q, among, equal⟩ := List.mem_map.mp member
    exact (stays _ (ok.mine q among).2).2 equal
  · intro q among
    rcases ok.owned q among with member | ⟨r, member, same⟩
    · rcases List.mem_cons.mp member with equal | member
      · cases equal
        exact .inr ⟨p, List.mem_cons_self, rfl⟩
      · exact .inl member
    · exact .inr ⟨r, List.mem_cons_of_mem _ member, same⟩
  · intro check among
    obtain ⟨r, same, real⟩ := ok.real check (List.mem_cons_of_mem _ among)
    exact ⟨r, same, real.kept grows⟩
  · rintro info sibling rfl
    obtain ⟨_, _, _, _, _, child⟩ := fixed
    rcases ok.weighed info sibling rfl with member | heavy
    · refine .inl ((List.mem_cons.mp member).resolve_left nofun)
    · exact .inr ((grows.weight _ child.born).trans heavy)

theorem Inv.locking (inv : Inv height w) {fix : Fix} {todo : List Check} {held : List Word}
    (here : w.pc tid = .locking fix todo held)
    (stepped : moveStep degree w tid (.locking fix todo held) = some after) :
    ∃ tall, Inv tall after := by
  have mine := inv.threads tid
  rw [here] at mine
  obtain ⟨fixed, locks⟩ := mine
  have off : ∀ g i x rest next, w.pc tid ≠ .run (.store g i x :: rest) next := by simp [here]
  cases todo with
  | nil =>
      simp only [moveStep] at stepped
      cases fix with
      | overflow info =>
          cases stepped
          exact inv.overflow here
      | tag info =>
          obtain ⟨g, found, _⟩ := fixed.1.grand_some (fixed.1.tag_parent fixed.2.2)
          simp only [Fix.target, found] at stepped
          cases stepped
          exact inv.tag here found
      | underfull info sibling =>
          obtain ⟨g, found, _⟩ := fixed.1.grand_some fixed.2.2.2.1
          simp only [Fix.target, found] at stepped
          cases stepped
          exact inv.underfull here found
  | cons check rest =>
      have plain (other : ∀ p, check ≠ .acquire p)
          (stepped : (if w.passes degree check then some (w.goto tid (.locking fix rest held))
            else some (w.goto tid (.run (held.map Act.unlock)
              (some fix.again)))) = some after) : ∃ tall, Inv tall after := by
        split at stepped <;> cases stepped
        · exact ⟨height, inv.moved off ⟨fixed, locks.passed other ‹_›⟩⟩
        · exact ⟨height, inv.moved off locks.release⟩
      cases check with
      | acquire p =>
          obtain ⟨q, same, real⟩ := locks.real _ List.mem_cons_self
          cases same
          have stepped : w.acquire tid q.value (.locking fix rest (q :: held)) = some after :=
            stepped
          refine ⟨height, inv.acquire off real.born ?_ stepped⟩
          exact fun locked grows owned stays =>
            ⟨fixed.kept grows, locks.acquired grows fixed owned stays⟩
      | unmarked p => exact plain (by simp) stepped
      | light p => exact plain (by simp) stepped
      | weighed p => exact plain (by simp) stepped

theorem Inv.leafStep (inv : Inv height w) {job : Job} {present : Bool}
    (here : w.pc tid = .leaf job info)
    (stepped : leafStep degree w tid present job info = some after) : Inv height after := by
  have mine := inv.threads tid
  rw [here] at mine
  obtain ⟨ok, leaf, locked⟩ := mine
  have off : ∀ g i x rest next, w.pc tid ≠ .run (.store g i x :: rest) next := by simp [here]
  have release {next : Option Job} : Pc.Ok height w tid (.run [.unlock info.node] next) := by
    refine ⟨⟨ok.node, List.not_mem_nil, trivial⟩, fun n among => ?_⟩
    rw [List.mem_singleton.mp among]
    exact locked
  simp only [AbRestructure.leafStep] at stepped
  split at stepped
  · cases stepped
    exact inv.moved off release
  · split at stepped
    · split at stepped <;> cases stepped
      · exact inv.resize off leaf release
      · have fixed : FixOk height w (.overflow info) := ⟨ok, leaf⟩
        exact inv.moved off ⟨fixed, fixed.overflow_locks locked⟩
    · cases stepped
      exact inv.resize off leaf release
    · cases stepped
      exact inv.moved off release

theorem Inv.moveStep (inv : Inv height w) {pc : Pc} (here : w.pc tid = pc)
    (steady : Steady w (.move tid)) (stepped : moveStep degree w tid pc = some after) :
    ∃ tall, Inv tall after := by
  have mine := inv.threads tid
  rw [here] at mine
  cases pc with
  | idle => cases stepped
  | start job => cases stepped
  | leaf job info => cases stepped
  | «at» job info =>
      have off : ∀ g i x rest next, w.pc tid ≠ .run (.store g i x :: rest) next := by simp [here]
      cases job with
      | find => cases stepped
      | insert =>
          simp only [AbRestructure.moveStep] at stepped
          split at stepped <;> cases stepped
          exact ⟨height, inv.moved off ⟨mine.1, ‹_›⟩⟩
      | erase =>
          simp only [AbRestructure.moveStep] at stepped
          split at stepped <;> cases stepped
          exact ⟨height, inv.moved off ⟨mine.1, ‹_›⟩⟩
      | cleanup =>
          have passed := mine.2 rfl
          simp only [AbRestructure.moveStep] at stepped
          split at stepped
          · rename_i tagged
            cases stepped
            have fixed : FixOk height w (.tag info) := ⟨mine.1, passed, tagged⟩
            exact ⟨height, inv.moved off ⟨fixed, fixed.tag_locks⟩⟩
          · rename_i tagged
            have heavy : w.weight info.node.value = true := by simpa using tagged
            split at stepped <;> cases stepped
            · exact ⟨height, inv.moved off ⟨mine.1, passed, heavy⟩⟩
            · rename_i large
              refine ⟨height, inv.moved off ⟨mine.1, heavy, fun _ => ?_⟩⟩
              have other : info.node ≠ clean entry :=
                fun same => mine.1.child.notEntry (congrArg Word.value same)
              have least : 2 ≤ low degree := le_max_right ..
              have enough : ¬ w.size info.node.value < low degree := fun less => large ⟨less, other⟩
              omega
  | root info =>
      have off : ∀ g i x rest next, w.pc tid ≠ .run (.store g i x :: rest) next := by simp [here]
      obtain ⟨ok, passed, heavy⟩ := mine
      simp only [AbRestructure.moveStep] at stepped
      split at stepped <;> cases stepped
      · rename_i differs
        refine ⟨height, inv.moved off ⟨ok, passed, heavy, fun same => ?_⟩⟩
        have steady : info.parent = clean entry → w.slot entry 0 = info.node := by
          simpa [Steady, Event.tid, here] using steady
        exact differs (steady (ok.parent.toReal.eq_clean same)).symm
      · rename_i equal
        refine ⟨height, inv.moved off ⟨ok, heavy, fun inner => ?_⟩⟩
        -- an internal node under the entry has two children
        have root : info.node = w.slot entry 0 := by simpa using equal
        have shape := inv.shape
        have child := shape.slots entry shape.born shape.entry_leaf 0
          (by rw [shape.entry_size]; exact Nat.one_pos)
        rw [root] at inner ⊢
        exact (child.top rfl).2 inner
  | next info =>
      have off : ∀ g i x rest next, w.pc tid ≠ .run (.store g i x :: rest) next := by simp [here]
      simp only [AbRestructure.moveStep] at stepped
      split at stepped <;> cases stepped
      exact ⟨height, inv.moved off trivial⟩
  | sibling info =>
      have off : ∀ g i x rest next, w.pc tid ≠ .run (.store g i x :: rest) next := by simp [here]
      obtain ⟨ok, passed, heavy, other⟩ := mine
      cases stepped
      have unmarked : (w.slot info.parent.value info.siblingIndex).dirty = false := by
        simpa [Steady, Event.tid, here] using steady
      have beside := inv.shape.slots _ ok.parent.born ok.parent.inner _
        (siblingIndex_lt ok passed other)
      have fixed : FixOk height w (.underfull info (w.slot info.parent.value info.siblingIndex)) :=
        ⟨ok, passed, heavy, other, unmarked, beside⟩
      exact ⟨height, inv.moved off ⟨fixed, fixed.underfull_locks⟩⟩
  | lockLeaf job info =>
      have off : ∀ g i x rest next, w.pc tid ≠ .run (.store g i x :: rest) next := by simp [here]
      have stepped : w.acquire tid info.node.value (.leaf job info) = some after := stepped
      refine ⟨height, inv.acquire off mine.1.child.born ?_ stepped⟩
      exact fun locked grows owned _ =>
        ⟨mine.1.kept grows, (grows.leaf _ mine.1.child.born).trans mine.2, owned⟩
  | locking fix todo held => exact inv.locking here stepped
  | run acts next =>
      cases acts with
      | nil =>
          have off : ∀ g i x rest next, w.pc tid ≠ .run (.store g i x :: rest) next := by
            simp [here]
          cases next <;> cases stepped
          · exact ⟨height, inv.moved off trivial⟩
          · exact ⟨height, inv.moved off trivial⟩
      | cons act rest =>
          cases stepped
          exact ⟨height, inv.act here⟩

theorem step_inv (inv : Inv height w) (event : Event) (steady : Steady w event)
    (stepped : step degree w event = some after) :
    ∃ tall, Inv tall after := by
  cases event with
  | call tid job =>
      simp only [step] at stepped
      split at stepped
      · rename_i here
        split at stepped <;> cases stepped
        exact ⟨height, inv.moved (by simp [here]) trivial⟩
      · cases stepped
  | load tid i =>
      have mine := inv.threads tid
      simp only [step] at stepped
      split at stepped
      · rename_i job here
        split at stepped <;> cases stepped
        · exact ⟨height, inv⟩
        · rename_i tidy
          refine ⟨height, inv.moved (by simp [here]) ⟨inv.shape.first (by simpa using tidy),
            fun _ => ?_⟩⟩
          exact ⟨inv.shape.entry_weight, fun no => absurd rfl no⟩
      · rename_i job info here
        rw [here] at mine
        split at stepped
        · cases stepped
        · rename_i notCleanup
          exact ⟨height, inv.load (by simp [here]) mine.1 (fun job => absurd job notCleanup)
            stepped⟩
      · rename_i info here
        rw [here] at mine
        exact ⟨height, inv.load (by simp [here]) mine.1 (fun _ => mine.2) stepped⟩
      · cases stepped
  | move tid => exact inv.moveStep rfl steady stepped
  | answer tid =>
      simp only [step] at stepped
      split at stepped
      · rename_i here
        split at stepped <;> cases stepped
        exact ⟨height, inv.moved (by simp [here]) trivial⟩
      · cases stepped
  | leaf tid present =>
      simp only [step] at stepped
      split at stepped
      · rename_i here
        exact ⟨height, inv.leafStep here stepped⟩
      · cases stepped

/-- In every run whose unlocked reads of the root and of a sibling meet a standing slot,
each step touches real nodes only. -/
theorem restructuring_safe (degree : Nat) {events : List Event}
    (run : Run (step degree) Steady initial events w) (event : Event) (steady : Steady w event) :
    Safe degree w event := by
  have inv : ∃ height, Inv height w := by
    refine run_invariant (fun w => ∃ height, Inv height w) ⟨_, initial_inv⟩ ?_ run
    rintro before event after ⟨height, inv⟩ steady stepped
    exact step_inv inv event steady stepped
  obtain ⟨height, inv⟩ := inv
  exact inv.safe event steady

-- A call that goes down the given slots to a leaf and works on it.
def toLeaf (tid : Nat) (job : Job) (path : List Nat) (present : Bool) : List Event :=
  .call tid job :: .load tid 0 :: path.map (.load tid) ++ [.move tid, .move tid, .leaf tid present]

def insertRun (tid : Nat) (path : List Nat) : List Event :=
  toLeaf tid .insert path false ++ [.move tid, .move tid]

-- Thread 0 fills the root leaf, splits it and finishes its cleanup.
def splitRoot : List Event :=
  insertRun 0 [] ++ insertRun 0 [] ++ insertRun 0 [] ++ insertRun 0 [] ++ toLeaf 0 .insert
    [] false ++
    List.replicate 9 (.move 0) ++ [.load 0 0, .move 0, .load 0 1, .move 0, .move 0]

-- Thread 1 makes the left leaf underfull, and its cleanup comes to read the sibling.
def underfullLeft : List Event :=
  toLeaf 1 .erase [0] true ++ [.move 1, .move 1, .load 1 0, .move 1, .load 1 0, .move 1, .move 1]

theorem underfull_run_safe : ∃ last, Run (step 4) Steady initial (splitRoot ++ underfullLeft) last ∧
    touchedAt (last.pc 1) = [some (clean 4)] ∧ Safe 4 last (.move 1) := by
  have replayed : (replay (step 4) Steady (splitRoot ++ underfullLeft) initial).map
      (fun w => (touchedAt (w.pc 1), decide (Steady w (.move 1)))) =
      some ([some (clean 4)], true) := by
    decide +kernel
  obtain ⟨last, run, seen⟩ := Option.map_eq_some_iff.mp replayed
  have run := run_of_replay _ run
  obtain ⟨touched, steady⟩ := Prod.mk.inj seen
  exact ⟨last, run, touched, restructuring_safe 4 run (.move 1) (of_decide_eq_true steady)⟩

-- The root leaf of an erase's cleanup is split between the two reads of entry->ptrs[0].
def rootMoves : List Event :=
  insertRun 0 [] ++ insertRun 0 [] ++ toLeaf 1 .erase [] true ++ [.move 1, .move 1, .load 1 0,
    .move 1] ++
    insertRun 0 [] ++ insertRun 0 [] ++ insertRun 0 [] ++ toLeaf 0 .insert
      [] false ++ List.replicate 5 (.move 0)

-- The right leaf is split while thread 1 reads its slot; it locks its own node and comes to the
-- sibling.
def dirtySibling : List Event :=
  splitRoot ++ underfullLeft ++ insertRun 0 [1] ++ toLeaf 0 .insert [1] false ++ List.replicate 4
    (.move 0) ++ [.move 1, .move 1]

def World.orphanFix (w : World) (tid : Nat) : Bool :=
  match w.pc tid with
  | .root info => decide (info.node ≠ w.slot entry 0 ∧ info.gParent = none)
  | _ => false

theorem unlocked_reads_unsafe :
    (∃ last, Run (step 4) free initial rootMoves last ∧ ¬ Safe 4 last (.move 1)) ∧
    ∃ last, Run (step 4) free initial dirtySibling last ∧ ¬ Safe 4 last (.move 1) := by
  have first : (replay (step 4) free rootMoves initial).map (fun w => w.orphanFix 1) =
    some true := by decide +kernel
  have second : (replay (step 4) free dirtySibling initial).map (fun w => touchedAt (w.pc 1)) =
    some [some (markDirty 7)] := by
    decide +kernel
  obtain ⟨one, run, orphan⟩ := Option.map_eq_some_iff.mp first
  obtain ⟨two, run', touched⟩ := Option.map_eq_some_iff.mp second
  refine ⟨⟨one, run_of_replay _ run, fun safe => ?_⟩, two, run_of_replay _ run', fun safe => ?_⟩
  · unfold World.orphanFix at orphan
    split at orphan
    · rename_i info here
      have both := of_decide_eq_true orphan
      have grand := safe.grand info (.inr ⟨here, both.1⟩)
      rw [both.2] at grand
      cases grand
    · cases orphan
  · obtain ⟨q, same, tidy, _⟩ := safe.real (some (markDirty 7)) (by
      show some (markDirty 7) ∈ touchedAt (two.pc 1)
      rw [touched]
      exact List.mem_singleton_self _)
    cases same
    cases tidy

end SetBench.AbRestructure
