import Mathlib
import SetBench.FlockFollow

/-! All helpers of a thunk agree: the log stands for one list of entries, every helper is behind
its end, and only the compare-and-swap of the operation at the end can change a word. -/
namespace SetBench.Flock

open Transition LinkedLog

variable {s s' : State} {chain : List Nat} {committed : List Entry} {begin now : Config} {h : Nat}

-- Where the thunk stands after the first `p` entries.
def Stands (begin : Config) (committed : List Entry) (p : Nat) (point : Point) : Prop :=
  p ≤ committed.length ∧ ∃ memory, Follows begin (committed.take p) ⟨point, memory⟩

-- What a helper at the end of the log brings may be committed.
def Offers (committed : List Entry) (now : Config) (p : Nat) (entry : Entry) : Prop :=
  p = committed.length → now.Fits entry

-- A cursor that next_entry has moved past the place `p`.
def Moved (chain : List Nat) (log : Log) (p : Nat) : Prop :=
  Place logLen chain log.vals log.count (p + 1) ∧ 0 < log.count

def Standing (s : State) (chain : List Nat) (begin : Config) (committed : List Entry)
    (now : Config) : Phase → Prop
  | .idle => True
  | .ready log point =>
      ∃ p, Place logLen chain log.vals log.count p ∧ Stands begin committed p point
  | .holding log point entry =>
      ∃ p, Place logLen chain log.vals log.count p ∧ Stands begin committed p point ∧
        Offers committed now p entry
  | .linking log point entry array =>
      (∃ p, Place logLen chain log.vals log.count p ∧ Stands begin committed p point ∧
        Offers committed now p entry) ∧
        log.count = logLen ∧ array ∉ chain
  | .reading log point entry =>
      ∃ p, Moved chain log p ∧ Stands begin committed p point ∧ Offers committed now p entry
  | .deciding log point entry =>
      ∃ p thunk, point = .op thunk ∧ Moved chain log p ∧ Stands begin committed p point ∧
        Offers committed now p entry
  | .swapping log l old v rest =>
      ∃ p, Moved chain log p ∧ Stands begin committed p (.mark l old v rest)
  | .marking log l old v rest =>
      ∃ p, Moved chain log p ∧ Stands begin committed p (.mark l old v rest) ∧
        (p = committed.length → s.memory = Function.update now.memory l (old.next v))
  | .finished result => now.point = .op (.ret result)

def written (memory : Memory) (writes : List (Nat × Nat)) : Memory :=
  writes.foldl (fun m w => m.write w.1 w.2) memory

/-- The memory is that of the entries, up to the write whose mark is not there yet; after the end
others write. -/
structure Coherent (s : State) (now : Config) : Prop where
  ended : s.done = true → ∃ result, now.point = .op (.ret result)
  quiet : s.done = false → s.outside = []
  memory : s.memory = written now.memory s.outside ∨
    ∃ l old v rest, now.point = .mark l old v rest ∧ s.memory = Function.update now.memory l
      (old.next v)

/-- Two helpers never hold the same new array. -/
structure Links (helpers : Nat → Phase) (arrays : Nat) : Prop where
  apart : ∀ h k log point entry log' point' entry' array, helpers h = .linking log point entry
    array →
    helpers k = .linking log' point' entry' array → h = k
  taken : ∀ h log point entry array, helpers h = .linking log point entry array → array < arrays

structure Agreed (thunk : Thunk) (memory : Memory) (s : State) (chain : List Nat)
    (committed : List Entry) (now : Config) : Prop where
  same : s.thunk = thunk
  root : chain[0]? = some 0
  known : ∀ a ∈ chain, a < s.arrays
  spine : Spine logLen s.entries s.next chain committed
  path : Follows ⟨.op thunk, memory⟩ committed now
  coherent : Coherent s now
  helpers : ∀ h, Standing s chain ⟨.op thunk, memory⟩ committed now (s.helpers h)
  links : Links s.helpers s.arrays

section Links

variable {helpers : Nat → Phase} {arrays : Nat}

theorem Links.put (links : Links helpers arrays) (h : Nat) {phase : Phase}
    (unlinked : ∀ log point entry array, phase ≠ .linking log point entry array) :
    Links (Function.update helpers h phase) arrays := by
  have back {k : Nat} {log : Log} {point : Point} {entry : Entry} {array : Nat}
      (at_k : Function.update helpers h phase k = .linking log point entry array) :
      helpers k = .linking log point entry array := by
    by_cases own : k = h
    · rw [own, Function.update_self] at at_k
      exact absurd at_k (unlinked _ _ _ _)
    · rwa [Function.update_of_ne own] at at_k
  exact ⟨fun _ _ _ _ _ _ _ _ _ first second => links.apart _ _ _ _ _ _ _ _ _ (back first)
    (back second),
    fun _ _ _ _ _ at_k => links.taken _ _ _ _ _ (back at_k)⟩

theorem Links.take (links : Links helpers arrays) (h : Nat) (log : Log) (point : Point)
    (entry : Entry) :
    Links (Function.update helpers h (.linking log point entry arrays)) (arrays + 1) := by
  have back {k : Nat} {log' : Log} {point' : Point} {entry' : Entry} {array : Nat}
      (at_k : Function.update helpers h (.linking log point entry arrays) k = .linking log' point'
        entry' array) :
      (k = h ∧ array = arrays) ∨
      (helpers k = .linking log' point' entry' array ∧ array < arrays) := by
    by_cases own : k = h
    · rw [own, Function.update_self] at at_k
      cases at_k
      exact .inl ⟨own, rfl⟩
    · rw [Function.update_of_ne own] at at_k
      exact .inr ⟨at_k, links.taken _ _ _ _ _ at_k⟩
  constructor
  case apart =>
    intro k k' log₁ point₁ entry₁ log₂ point₂ entry₂ array first second
    rcases back first with ⟨own, new⟩ | ⟨old, less⟩ <;> rcases back second with ⟨own',
      new'⟩ | ⟨old', less'⟩
    · rw [own, own']
    · omega
    · omega
    · exact links.apart _ _ _ _ _ _ _ _ _ old old'
  case taken =>
    intro k _ _ _ array at_k
    rcases back at_k with ⟨_, new⟩ | ⟨_, less⟩ <;> omega

end Links

section Stands

variable {p : Nat} {point : Point} {e : Entry}

theorem Stands.snoc (stands : Stands begin committed p point) (e : Entry) :
    Stands begin (committed ++ [e]) p point := by
  obtain ⟨inside, memory, path⟩ := stands
  refine ⟨by rw [List.length_append]; omega, memory, ?_⟩
  rwa [List.take_append_of_le_length inside]

theorem Stands.at_end (stands : Stands begin committed committed.length point)
    (path : Follows begin committed now) : now.point = point := by
  obtain ⟨_, memory, here⟩ := stands
  rw [List.take_length] at here
  rw [path.unique here]

-- The rest of the log from where the helper stands.
theorem Stands.ahead (stands : Stands begin committed p point)
    (path : Follows begin committed now) :
    ∃ memory, Follows begin (committed.take p) ⟨point, memory⟩ ∧ Follows ⟨point, memory⟩
      (committed.drop p) now := by
  obtain ⟨_, memory, here⟩ := stands
  rw [← List.take_append_drop p committed] at path
  obtain ⟨middle, first, second⟩ := path.split
  cases first.unique here
  exact ⟨memory, here, second⟩

theorem Stands.after (stands : Stands begin committed p point)
    (path : Follows begin committed now) (found : committed[p]? = some e) :
    Stands begin committed (p + 1) (point.after e) := by
  obtain ⟨memory, first, second⟩ := stands.ahead path
  obtain ⟨inside, same⟩ := List.getElem?_eq_some_iff.mp found
  rw [List.drop_eq_getElem_cons inside, same] at second
  cases second with
  | next fits _ =>
      refine ⟨inside, (Config.after ⟨point, memory⟩ e).memory, ?_⟩
      rw [List.take_succ_eq_append_getElem inside, same]
      have forward := first.snoc fits
      have shape : (Config.after ⟨point, memory⟩ e).point = point.after e := by
        unfold Config.after
        split <;> rfl
      rwa [← shape]

theorem Stands.passed {l : Nat} {old : Word} {v : Nat} {rest : Thunk}
    (stands : Stands begin committed p (.mark l old v rest)) (path : Follows begin committed now)
    (behind : p ≠ committed.length) : old.tag < (now.memory l).tag := by
  obtain ⟨memory, _, second⟩ := stands.ahead path
  have inside : p < committed.length := Nat.lt_of_le_of_ne stands.1 behind
  rw [List.drop_eq_getElem_cons inside] at second
  exact second.passed

end Stands

theorem write_tag (memory : Memory) (l v k : Nat) : (memory k).tag ≤ (memory.write l v k).tag := by
  by_cases same : k = l
  · rw [same, Memory.write, Function.update_self]
    exact Nat.le_succ _
  · rw [Memory.write, Function.update_of_ne same]

theorem written_tag (memory : Memory) (writes : List (Nat × Nat)) (k : Nat) :
    (memory k).tag ≤ (written memory writes k).tag := by
  induction writes generalizing memory with
  | nil => exact Nat.le_refl _
  | cons w rest ih => exact (write_tag memory w.1 w.2 k).trans (ih _)

theorem Coherent.tag_le (coherent : Coherent s now) (fresh : now.Fresh) (l : Nat) :
    (now.memory l).tag ≤ (s.memory l).tag := by
  rcases coherent.memory with same | ⟨k, old, v, rest, point, same⟩
  · rw [same]
    exact written_tag _ _ l
  · unfold Config.Fresh at fresh
    rw [point] at fresh
    rw [same]
    by_cases here : l = k
    · rw [here, Function.update_self, fresh]
      exact Nat.le_succ _
    · rw [Function.update_of_ne here]

-- Before the mark of a write the memory is that of the entries.
theorem Coherent.settled (coherent : Coherent s now) {thunk : Thunk}
    (here : now.point = .op thunk) :
    s.memory = written now.memory s.outside := by
  rcases coherent.memory with same | ⟨_, _, _, _, point, _⟩
  · exact same
  · exact absurd (here.symm.trans point) Point.noConfusion

theorem Coherent.unwritten (coherent : Coherent s now)
    (running : ∀ result, now.point ≠ .op (.ret result)) : s.outside = [] :=
  coherent.quiet (Bool.eq_false_iff.mpr fun done => (coherent.ended done).elim running)

section Standing

variable {phase : Phase}

theorem Standing.frame (standing : Standing s chain begin committed now phase)
    (same : s'.memory = s.memory) :
    Standing s' chain begin committed now phase := by
  cases phase with
  | marking log l old v rest =>
      obtain ⟨p, moved, stands, swapped⟩ := standing
      exact ⟨p, moved, stands, fun last => same.trans (swapped last)⟩
  | _ => exact standing

theorem Moved.grow {log : Log} {p : Nat} (moved : Moved chain log p) (a : Nat) :
    Moved (chain ++ [a]) log p :=
  ⟨moved.1.grow a, moved.2⟩

theorem Standing.grow (standing : Standing s chain begin committed now phase) {a : Nat}
    (other : ∀ log point entry array, phase = .linking log point entry array → array ≠ a) :
    Standing s (chain ++ [a]) begin committed now phase := by
  cases phase with
  | idle => trivial
  | finished result => exact standing
  | ready log point =>
      obtain ⟨p, place, stands⟩ := standing
      exact ⟨p, place.grow a, stands⟩
  | holding log point entry =>
      obtain ⟨p, place, rest⟩ := standing
      exact ⟨p, place.grow a, rest⟩
  | linking log point entry array =>
      obtain ⟨⟨p, place, rest⟩, full, absent⟩ := standing
      refine ⟨⟨p, place.grow a, rest⟩, full, ?_⟩
      rw [List.mem_append, List.mem_singleton, not_or]
      exact ⟨absent, other _ _ _ _ rfl⟩
  | reading log point entry =>
      obtain ⟨p, moved, rest⟩ := standing
      exact ⟨p, moved.grow a, rest⟩
  | deciding log point entry =>
      obtain ⟨p, thunk, here, moved, rest⟩ := standing
      exact ⟨p, thunk, here, moved.grow a, rest⟩
  | swapping log l old v rest =>
      obtain ⟨p, moved, stands⟩ := standing
      exact ⟨p, moved.grow a, stands⟩
  | marking log l old v rest =>
      obtain ⟨p, moved, stands, swapped⟩ := standing
      exact ⟨p, moved.grow a, stands, swapped⟩

theorem Offers.snoc {p : Nat} {entry e : Entry} (inside : p ≤ committed.length) :
    Offers (committed ++ [e]) (now.after e) p entry := by
  intro last
  rw [List.length_append, List.length_singleton] at last
  omega

theorem Standing.commit (standing : Standing s chain begin committed now phase) {e : Entry}
    (fits : now.Fits e) :
    Standing s chain begin (committed ++ [e]) (now.after e) phase := by
  cases phase with
  | idle => trivial
  | finished result =>
      unfold Config.Fits at fits
      rw [show now.point = .op (.ret result) from standing] at fits
      exact fits.elim
  | ready log point =>
      obtain ⟨p, place, stands⟩ := standing
      exact ⟨p, place, stands.snoc e⟩
  | holding log point entry =>
      obtain ⟨p, place, stands, _⟩ := standing
      exact ⟨p, place, stands.snoc e, .snoc stands.1⟩
  | linking log point entry array =>
      obtain ⟨⟨p, place, stands, _⟩, full⟩ := standing
      exact ⟨⟨p, place, stands.snoc e, .snoc stands.1⟩, full⟩
  | reading log point entry =>
      obtain ⟨p, moved, stands, _⟩ := standing
      exact ⟨p, moved, stands.snoc e, .snoc stands.1⟩
  | deciding log point entry =>
      obtain ⟨p, thunk, here, moved, stands, _⟩ := standing
      exact ⟨p, thunk, here, moved, stands.snoc e, .snoc stands.1⟩
  | swapping log l old v rest =>
      obtain ⟨p, moved, stands⟩ := standing
      exact ⟨p, moved, stands.snoc e⟩
  | marking log l old v rest =>
      obtain ⟨p, moved, stands, _⟩ := standing
      refine ⟨p, moved, stands.snoc e, fun last => ?_⟩
      have inside := stands.1
      rw [List.length_append, List.length_singleton] at last
      omega

end Standing

end SetBench.Flock
