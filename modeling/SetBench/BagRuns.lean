import SetBench.BagOperations
import SetBench.Transition

/-! Any sequence of operations on any number of bags. -/
namespace SetBench.BagMoves

open LinkedBlocks Transition

variable {T : Type}

inductive Op (T : Type) where
  | create (i : Nat)
  | add (i : Nat) (obj : T)
  | addShared (i : Nat) (obj : T) (thresh : Nat)
  | remove (i : Nat)
  | erase (i : Nat) (curr : Addr) (ix : Nat)
  | removeFullBlock (i : Nat)
  | addFullBlock (i : Nat) (b : Addr)
  | appendMoveFullBlocks (i o : Nat) (predecessor : Addr)
  | appendMoveAll (i o : Nat)
  | clearWithoutFreeingElements (i : Nat)

inductive Ret (T : Type) where
  | done
  | object (obj : T)
  | block (b : Option Addr)

section Run

variable [DecidableEq T] (blockSize : Nat)

def perform (w : World T) : Op T → Option (World T × Ret T)
  | .create i => some (w.create i, .done)
  | .add i obj => (w.bag i).map fun bag => (w.add blockSize i bag obj, .done)
  | .addShared i obj thresh =>
      (w.bag i).bind fun bag => (w.addShared blockSize i bag obj thresh).map fun result =>
      (result.1, .block result.2)
  | .remove i =>
      (w.bag i).bind fun bag => (w.remove i bag).map fun result => (result.1, .object result.2)
  | .erase i curr ix =>
      (w.bag i).bind fun bag => (w.erase i bag curr ix).map fun after => (after, .done)
  | .removeFullBlock i =>
      (w.bag i).map fun bag => ((w.removeFullBlock i bag).1, .block (w.removeFullBlock i bag).2)
  | .addFullBlock i b => (w.bag i).map fun bag => (w.addFullBlock i bag b, .done)
  | .appendMoveFullBlocks i o predecessor =>
      (w.bag i).bind fun bag => (w.bag o).bind fun other =>
        (w.appendMoveFullBlocks i bag o other predecessor).map fun after => (after, .done)
  | .appendMoveAll i o =>
      (w.bag i).bind fun bag => (w.bag o).bind fun other =>
      (w.appendMoveAll blockSize i bag o other).map fun after => (after, .done)
  | .clearWithoutFreeingElements i =>
      (w.bag i).bind fun bag => (w.clearWithoutFreeingElements i bag).map fun after =>
      (after, .done)

def step (w : World T) (op : Op T) : Option (World T) := (perform blockSize w op).map Prod.fst

omit [DecidableEq T]

def InBag (w : World T) (bag : Bag) (b : Addr) : Prop :=
  ∃ blocks, walk w.nexts (w.fresh + 1) (some bag.head) = some blocks ∧ b ∈ blocks

/-- What the callers promise. -/
def Allowed (w : World T) : Op T → Prop
  | .create i => w.bag i = none
  | .add i _ => ∃ bag, w.bag i = some bag
  | .addShared i _ thresh => 2 ≤ thresh ∧ ∃ bag, w.bag i = some bag
  | .remove i => ∃ bag, w.bag i = some bag ∧ ¬ w.isEmpty bag
  | .erase i curr ix => ∃ bag, w.bag i = some bag ∧ InBag w bag curr ∧ ix < (w.dataOf curr).length
  | .removeFullBlock i => ∃ bag, w.bag i = some bag
  | .addFullBlock i b => b ∈ w.hand ∧ ∃ bag, w.bag i = some bag
  | .appendMoveFullBlocks i o predecessor =>
      i ≠ o ∧ (∃ bag, w.bag i = some bag) ∧ ∃ other, w.bag o = some other ∧
        InBag w other predecessor
  | .appendMoveAll i o => i ≠ o ∧ (∃ bag, w.bag i = some bag) ∧ ∃ other, w.bag o = some other
  | .clearWithoutFreeingElements i => ∃ bag, w.bag i = some bag

def objectAt (w : World T) (curr : Addr) (ix : Nat) : Multiset T :=
  (w.dataOf curr)[ix]?.elim 0 fun obj => {obj}

def objectsBehind (w : World T) (predecessor : Addr) : Multiset T :=
  match walk w.nexts (w.fresh + 1) (w.nexts predecessor) with
  | none => 0
  | some blocks => objectsIn w.dataOf blocks

/-- The objects that an operation takes from a bag, or from the hand. -/
def lost (w after : World T) : Op T → Ret T → Option Nat → Multiset T
  | .addShared i _ _, .block given => given.elim 0 fun b => Pi.single (some i) (after.dataOf b)
  | .remove i, .object obj => Pi.single (some i) {obj}
  | .erase i curr ix, _ => Pi.single (some i) (objectAt w curr ix)
  | .removeFullBlock i, .block given => given.elim 0 fun b => Pi.single (some i) (after.dataOf b)
  | .addFullBlock _ b, _ => Pi.single none (w.dataOf b)
  | .appendMoveFullBlocks _ o predecessor, _ => Pi.single (some o) (objectsBehind w predecessor)
  | .appendMoveAll _ o, _ => Pi.single (some o) (objects w (some o))
  | .clearWithoutFreeingElements i, _ => Pi.single (some i) (objects w (some i))
  | _, _ => 0

/-- The objects that it puts into one. -/
def gained (w after : World T) : Op T → Ret T → Option Nat → Multiset T
  | .add i obj, _ => Pi.single (some i) {obj}
  | .addShared i obj _, .block given =>
      Pi.single (some i) {obj} + given.elim 0 fun b => Pi.single none (after.dataOf b)
  | .removeFullBlock _, .block given => given.elim 0 fun b => Pi.single none (after.dataOf b)
  | .addFullBlock i b, _ => Pi.single (some i) (w.dataOf b)
  | .appendMoveFullBlocks i _ predecessor, _ => Pi.single (some i) (objectsBehind w predecessor)
  | .appendMoveAll i o, _ => Pi.single (some i) (objects w (some o))
  | _, _ => 0

end Run

section Results

variable {blockSize : Nat} {w : World T} {own : Option Nat → List Addr}

theorem Inv.inBag (inv : Inv blockSize w own) {i : Nat} {bag : Bag} (mine : w.bag i = some bag)
    {b : Addr} (inside : InBag w bag b) :
    b ∈ own (some i) := by
  obtain ⟨blocks, walked, member⟩ := inside
  rw [(inv.bagOk mine).walk (inv.owns.nodup _) (inv.owns.below _)] at walked
  rw [Option.some.inj walked]
  exact member

theorem Inv.perform [DecidableEq T] (inv : Inv blockSize w own) (positive : 0 < blockSize)
    {op : Op T} (allowed : Allowed w op) :
    ∃ after ret own', perform blockSize w op = some (after, ret) ∧
      Kept blockSize w own after own' (lost w after op ret) (gained w after op ret) := by
  cases op with
  | create i => exact ⟨_, _, _, rfl, inv.create allowed positive⟩
  | add i obj =>
      obtain ⟨bag, mine⟩ := allowed
      obtain ⟨blocks, _, _, added⟩ := inv.add mine obj
      exact ⟨_, .done, _, by rw [BagMoves.perform, mine, Option.map_some], added⟩
  | addShared i obj thresh =>
      obtain ⟨atLeastTwo, bag, mine⟩ := allowed
      obtain ⟨after, given, own', added, kept⟩ := inv.addShared mine obj atLeastTwo
      exact ⟨after, .block given,
        own', by rw [BagMoves.perform, mine, Option.bind_some, added, Option.map_some], kept⟩
  | remove i =>
      obtain ⟨bag, mine, nonempty⟩ := allowed
      obtain ⟨after, obj, own', removed, kept⟩ := inv.remove mine nonempty
      exact ⟨after, .object obj,
        own', by rw [BagMoves.perform, mine, Option.bind_some, removed, Option.map_some], kept⟩
  | erase i curr ix =>
      obtain ⟨bag, mine, inside, low⟩ := allowed
      obtain ⟨after, own', erased, kept⟩ := inv.erase mine (inv.inBag mine inside) low
      refine ⟨after, .done, own', by
        rw [BagMoves.perform, mine, Option.bind_some, erased, Option.map_some], ?_⟩
      have here : objectAt w curr ix = {(w.dataOf curr)[ix]} := by
        rw [objectAt, List.getElem?_eq_getElem low]
        rfl
      rw [lost, here]
      exact kept
  | removeFullBlock i =>
      obtain ⟨bag, mine⟩ := allowed
      have ok := inv.bagOk mine
      have size := ok.size
      obtain ⟨rest, blocks, _⟩ := ok.blocks
      by_cases few : bag.sizeInBlocks < 3
      · have removed := inv.removeFullBlock_none mine few
        exact ⟨w, .block none, own, by rw [BagMoves.perform, mine, Option.map_some, removed],
          inv.kept⟩
      · rw [blocks] at size
        cases rest with
        | nil =>
            rw [List.length_singleton] at size
            omega
        | cons second rest =>
            cases rest with
            | nil =>
                simp only [List.length_cons, List.length_nil] at size
                omega
            | cons third rest =>
                obtain ⟨after, removed, data, kept⟩ := inv.removeFullBlock mine blocks
                rw [← data] at kept
                exact ⟨after, .block (some second),
                  _, by rw [BagMoves.perform, mine, Option.map_some, removed], kept⟩
  | addFullBlock i b =>
      obtain ⟨held, bag, mine⟩ := allowed
      exact ⟨_, .done, _, by rw [BagMoves.perform, mine, Option.map_some],
        inv.addFullBlock mine held⟩
  | appendMoveFullBlocks i o predecessor =>
      obtain ⟨ne, ⟨bag, mine⟩, other, theirs, inside⟩ := allowed
      obtain ⟨front, back, split⟩ := List.append_of_mem (inv.inBag theirs inside)
      obtain ⟨after, _, moved, _, _, _, kept⟩ := inv.appendMove mine theirs ne split
      have chain := (inv.bagOk theirs).chain
      have short := length_le (inv.owns.nodup (some o)) (inv.owns.below (some o))
      rw [split] at chain short
      have behind : objectsBehind w predecessor = objectsIn w.dataOf back := by
        rw [List.length_append, List.length_cons] at short
        have walked : walk w.nexts (w.fresh + 1) (w.nexts predecessor) = some back :=
          walk_chain (chain_behind chain) (by omega)
        simp only [objectsBehind, walked]
      rw [← behind] at kept
      exact ⟨after, .done, _, by
        rw [BagMoves.perform, mine, Option.bind_some, theirs, Option.bind_some, moved,
        Option.map_some], kept⟩
  | appendMoveAll i o =>
      obtain ⟨ne, ⟨bag, mine⟩, other, theirs⟩ := allowed
      obtain ⟨after, own', moved, kept⟩ := inv.appendMoveAll mine theirs ne
      refine ⟨after, .done, own', by
        rw [BagMoves.perform, mine, Option.bind_some, theirs, Option.bind_some, moved,
          Option.map_some], ?_⟩
      rw [lost, gained, inv.objects_eq]
      exact kept
  | clearWithoutFreeingElements i =>
      obtain ⟨bag, mine⟩ := allowed
      obtain ⟨after, own', cleared, kept⟩ := inv.clear mine
      refine ⟨after, .done, own', by
        rw [BagMoves.perform, mine, Option.bind_some, cleared, Option.map_some], ?_⟩
      rw [lost, inv.objects_eq]
      exact kept

/-- A bag is empty if and only if its head is empty and has no next block. -/
theorem Inv.isEmpty_iff (inv : Inv blockSize w own) {i : Nat} {bag : Bag}
    (mine : w.bag i = some bag) :
    w.isEmpty bag ↔ objects w (some i) = 0 := by
  have ok := inv.bagOk mine
  have full := ok.full
  have positive : 0 < blockSize := (Nat.zero_le _).trans_lt ok.head
  obtain ⟨rest, blocks, chain⟩ := ok.blocks
  rw [blocks] at full
  rw [inv.objects_eq, blocks, objectsIn_cons]
  constructor
  · rintro ⟨last, empty⟩
    rw [last] at chain
    cases chain
    rw [empty]
    rfl
  · intro none
    obtain ⟨empty, later⟩ := add_eq_zero.mp none
    refine ⟨?_, (Multiset.coe_eq_zero _).mp empty⟩
    cases rest with
    | nil => exact chain_head chain
    | cons second rest =>
        rw [objectsIn_cons] at later
        have nothing := (Multiset.coe_eq_zero _).mp (add_eq_zero.mp later).1
        have length := full second List.mem_cons_self
        rw [nothing] at length
        exact absurd length.symm positive.ne'

/-- No bag yet, and some detached full blocks. -/
structure Start (blockSize : Nat) (w : World T) : Prop where
  bags : ∀ i, w.bag i = none
  nodup : w.hand.Nodup
  hand : ∀ b ∈ w.hand, b < w.fresh ∧ (w.dataOf b).length = blockSize ∧ w.nexts b = none

theorem Start.inv (start : Start blockSize w) :
    Inv blockSize w fun k => k.elim w.hand fun _ => [] := by
  refine ⟨⟨fun k => ?_, fun k n differ b held => ?_, fun k b held => ?_⟩, fun k => ?_⟩
  · cases k with
    | none => exact start.nodup
    | some i => exact List.nodup_nil
  · cases k with
    | some i => cases held
    | none =>
        cases n with
        | none => exact absurd rfl differ
        | some i => exact List.not_mem_nil
  · cases k with
    | none => exact (start.hand b held).1
    | some i => cases held
  · cases k with
    | none => exact ⟨rfl, fun b held => (start.hand b held).2⟩
    | some i =>
        rw [Holds, start.bags i]
        rfl

/-- The bags are as blockbag.h states, and every operation moves exactly the objects it names. -/
structure Sound [DecidableEq T] (blockSize : Nat) (w : World T) : Prop where
  inv : ∃ own, Inv blockSize w own
  empty : ∀ i bag, w.bag i = some bag → (w.isEmpty bag ↔ objects w (some i) = 0)
  moves : ∀ op, Allowed w op → ∃ after ret, perform blockSize w op = some (after, ret) ∧
    ∀ k, objects after k + lost w after op ret k = objects w k + gained w after op ret k

theorem bags_keep_objects [DecidableEq T] (blockSize : Nat) (positive : 0 < blockSize)
    {start : World T} (initial : Start blockSize start) {ops : List (Op T)}
    (run : Run (step blockSize) Allowed start ops w) : Sound blockSize w := by
  obtain ⟨own, inv⟩ : ∃ own, Inv blockSize w own := by
    refine run_invariant (fun w => ∃ own, Inv blockSize w own) ⟨_, initial.inv⟩ ?_ run
    rintro before op after ⟨own, inv⟩ allowed stepped
    obtain ⟨after', ret, own', performed, kept⟩ := inv.perform positive allowed
    rw [step, performed] at stepped
    obtain rfl : after' = after := Option.some.inj stepped
    exact ⟨own', kept.inv⟩
  refine ⟨⟨own, inv⟩, fun i bag mine => inv.isEmpty_iff mine, fun op allowed => ?_⟩
  obtain ⟨after, ret, own', performed, kept⟩ := inv.perform positive allowed
  refine ⟨after, ret, performed, fun k => ?_⟩
  rw [inv.objects_eq, kept.inv.objects_eq]
  exact kept.count k

end Results

def noBags : World Nat := ⟨fun _ => ⟨none, []⟩, fun _ => none, [], 0⟩

instance (w : World Nat) (bag : Bag) (b : Addr) : Decidable (InBag w bag b) :=
  inferInstanceAs (Decidable (∃ blocks ∈ walk w.nexts (w.fresh + 1) (some bag.head), b ∈ blocks))

instance (w : World Nat) (i : Nat) : Decidable (∃ bag, w.bag i = some bag) :=
  decidable_of_iff _ Option.isSome_iff_exists

instance (w : World Nat) (op : Op Nat) : Decidable (Allowed w op) :=
  match op with
  | .create _ => decidable_of_iff _ Option.isNone_iff_eq_none
  | .add i _ | .removeFullBlock i | .clearWithoutFreeingElements i =>
      inferInstanceAs (Decidable (∃ bag, w.bag i = some bag))
  | .addShared i _ thresh => inferInstanceAs (Decidable (2 ≤ thresh ∧ ∃ bag, w.bag i = some bag))
  | .remove i => inferInstanceAs (Decidable (∃ bag ∈ w.bag i, ¬ w.isEmpty bag))
  | .erase i curr ix =>
      inferInstanceAs (Decidable (∃ bag ∈ w.bag i, InBag w bag curr ∧ ix < (w.dataOf curr).length))
  | .addFullBlock i b => inferInstanceAs (Decidable (b ∈ w.hand ∧ ∃ bag, w.bag i = some bag))
  | .appendMoveFullBlocks i o predecessor =>
      inferInstanceAs (Decidable (i ≠ o ∧ (∃ bag, w.bag i = some bag) ∧
        ∃ other ∈ w.bag o, InBag w other predecessor))
  | .appendMoveAll i o =>
      inferInstanceAs (Decidable (i ≠ o ∧ (∃ bag, w.bag i = some bag) ∧
        ∃ other, w.bag o = some other))

-- The second object fills the block of bag 0; the erase takes 7 out of it, and bag 1 gets the rest.
def moves : List (Op Nat) :=
  [.create 0, .create 1, .add 0 7, .add 0 8, .add 0 9, .add 1 5, .erase 0 0 0, .appendMoveAll 1 0]

theorem after_moves :
    ∃ w, Run (step 2) Allowed noBags moves w ∧ objects w (some 0) = 0 ∧
      objects w (some 1) = {5, 8, 9} ∧ Sound 2 w := by
  have replayed : (replay (step 2) Allowed moves noBags).map
      (fun w => (objects w (some 0), objects w (some 1))) = some (0, {5, 8, 9}) := by
    decide +kernel
  obtain ⟨w, same, facts⟩ := Option.map_eq_some_iff.mp replayed
  obtain ⟨first, second⟩ := Prod.mk.inj facts
  have run := run_of_replay _ same
  exact ⟨w, run, first, second, bags_keep_objects 2 (by decide) ⟨fun _ => rfl, List.nodup_nil,
    fun _ held => by cases held⟩ run⟩

end SetBench.BagMoves
