import SetBench.LinkedBlocks

/-! Blockbags (blockbag.h) by their links: any number of bags whose blocks are taken from one
memory. A block that is given back to a pool comes out of it as a new one. -/
namespace SetBench.BagMoves

open LinkedBlocks

abbrev Addr := Nat

variable {T : Type}

structure Block (T : Type) where
  next : Option Addr
  data : List T

structure Bag where
  head : Addr
  tail : Addr
  sizeInBlocks : Nat

/-- `hand` are the full blocks outside of the bags: in the hands of a caller or in a shared bag. -/
structure World (T : Type) where
  block : Addr → Block T
  bag : Nat → Option Bag
  hand : List Addr
  fresh : Addr

namespace World

def setData (w : World T) (a : Addr) (data : List T) : World T :=
  { w with block := Function.update w.block a { w.block a with data } }

def setNext (w : World T) (a : Addr) (next : Option Addr) : World T :=
  { w with block := Function.update w.block a { w.block a with next } }

def setBag (w : World T) (i : Nat) (bag : Bag) : World T :=
  { w with bag := Function.update w.bag i (some bag) }

-- blockpool::allocateBlock; the new block is at `fresh`.
def allocateBlock (w : World T) (next : Option Addr) (data : List T) : World T :=
  { w with block := Function.update w.block w.fresh ⟨next, data⟩, fresh := w.fresh + 1 }

def nexts (w : World T) (a : Addr) : Option Addr := (w.block a).next

def dataOf (w : World T) (a : Addr) : List T := (w.block a).data

end World

/-- The blocks of a list, which the loops over it visit. -/
def walk (next : Addr → Option Addr) : Nat → Option Addr → Option (List Addr)
  | 0, _ => none
  | _ + 1, none => some []
  | fuel + 1, some a => (walk next fuel (next a)).map (a :: ·)

namespace World

variable (w : World T) (blockSize : Nat)

def computeSizeInBlocks (head : Addr) : Option Nat :=
  (walk w.nexts (w.fresh + 1) (some head)).map List.length

def isEmpty (bag : Bag) : Prop := w.nexts bag.head = none ∧ w.dataOf bag.head = []

instance [DecidableEq T] (bag : Bag) : Decidable (w.isEmpty bag) :=
  inferInstanceAs (Decidable (_ ∧ _))

-- The constructor.
def create (i : Nat) : World T := (w.allocateBlock none []).setBag i ⟨w.fresh, w.fresh, 1⟩

def add (i : Nat) (bag : Bag) (obj : T) : World T :=
  let pushed := w.setData bag.head (w.dataOf bag.head ++ [obj])
  if (w.dataOf bag.head ++ [obj]).length = blockSize then
    (pushed.allocateBlock (some bag.head) []).setBag i
    { bag with head := w.fresh, sizeInBlocks := bag.sizeInBlocks + 1 }
  else pushed

def removeFullBlock (i : Nat) (bag : Bag) : World T × Option Addr :=
  match w.nexts bag.head with
  | none => (w, none)
  | some second =>
      match w.nexts second with
      | none => (w, none)
      | some third =>
          let cut := (w.setNext bag.head (some third)).setNext second none
          ({ cut with hand := second :: w.hand }.setBag i
            { bag with sizeInBlocks := bag.sizeInBlocks - 1 }, some second)

-- add with a shared bag: a block too many goes there.
def addShared (i : Nat) (bag : Bag) (obj : T) (thresh : Nat) : Option (World T × Option Addr) :=
  let added := w.add blockSize i bag obj
  if (w.dataOf bag.head ++ [obj]).length = blockSize then
    match added.bag i with
    | none => none
    | some grown =>
        if thresh < grown.sizeInBlocks then
          match added.removeFullBlock i grown with
          | (_, none) => none
          | (removed, some b) => some (removed, some b)
        else some (added, none)
  else some (added, none)

def remove (i : Nat) (bag : Bag) : Option (World T × T) :=
  match (w.dataOf bag.head).getLast? with
  | some obj => some (w.setData bag.head (w.dataOf bag.head).dropLast, obj)
  | none =>
      match w.nexts bag.head with
      | none => none
      | some second =>
          match (w.dataOf second).getLast? with
          | none => none
          | some obj =>
              some ((w.setData second (w.dataOf second).dropLast).setBag i
                { bag with head := second, sizeInBlocks := bag.sizeInBlocks - 1 }, obj)

-- block::erase(ix)
def blockErase (data : List T) (ix : Nat) : List T :=
  match data.getLast? with
  | none => data
  | some last => if ix ≠ data.length - 1 then (data.set ix last).dropLast else data.dropLast

-- erase once an empty head is out of the way. Only the iterator uses the flag that it returns.
def eraseFrom (head curr : Addr) (ix : Nat) : Option (World T) :=
  if curr = head then some (w.setData curr (blockErase (w.dataOf curr) ix))
  else
    match (w.dataOf head).getLast? with
    | none => none
    | some obj =>
        some ((w.setData head (w.dataOf head).dropLast).setData curr ((w.dataOf curr).set ix obj))

def erase (i : Nat) (bag : Bag) (curr : Addr) (ix : Nat) : Option (World T) :=
  match w.dataOf bag.head with
  | [] =>
      match w.nexts bag.head with
      | none => none
      | some second =>
          (w.setBag i { bag with head := second, sizeInBlocks := bag.sizeInBlocks - 1 }).eraseFrom
          second curr ix
  | _ => w.eraseFrom bag.head curr ix

def addFullBlock (i : Nat) (bag : Bag) (b : Addr) : World T :=
  { w.setNext bag.tail (some b) with hand := w.hand.erase b }.setBag i
    { bag with tail := b, sizeInBlocks := bag.sizeInBlocks + 1 }

def appendMoveFullBlocks (i : Nat) (bag : Bag) (o : Nat) (other : Bag) (predecessor : Addr) :
    Option (World T) :=
  match w.nexts predecessor with
  | none => some w
  | some first =>
      let joined := w.setNext bag.tail (some first)
      (joined.computeSizeInBlocks bag.head).bind fun size =>
        let cut := (joined.setBag i { bag with tail := other.tail, sizeInBlocks := size }).setNext
          predecessor none
        (cut.computeSizeInBlocks other.head).map fun size =>
        cut.setBag o { other with tail := predecessor, sizeInBlocks := size }

-- The loop of appendMoveAll.
def drain [DecidableEq T] (i o : Nat) : Nat → World T → Option (World T)
  | 0, _ => none
  | fuel + 1, w =>
      match w.bag o with
      | none => none
      | some other =>
          if w.isEmpty other then some w
          else (w.remove o other).bind fun removed =>
            match removed.1.bag i with
            | none => none
            | some bag => drain i o fuel (removed.1.add blockSize i bag removed.2)

def appendMoveAll [DecidableEq T] (i : Nat) (bag : Bag) (o : Nat) (other : Bag) :
    Option (World T) :=
  (w.appendMoveFullBlocks i bag o other other.head).bind fun moved =>
    (drain blockSize i o (blockSize + 1) moved).bind fun drained =>
      match drained.bag i with
      | none => none
      | some bag =>
          (drained.computeSizeInBlocks bag.head).map fun size =>
          drained.setBag i { bag with sizeInBlocks := size }

-- The loop of clearWithoutFreeingElements.
def clearRest : Nat → World T → Option Addr → Option (World T)
  | 0, _, _ => none
  | _ + 1, w, none => some w
  | fuel + 1, w, some a => clearRest fuel (w.setData a []) (w.nexts a)

def clearWithoutFreeingElements (i : Nat) (bag : Bag) : Option (World T) :=
  (clearRest (w.fresh + 1) w (w.nexts bag.head)).map fun cleared =>
    ((cleared.setNext bag.head none).setData bag.head []).setBag i ⟨bag.head, bag.head, 1⟩

end World

/-! Which blocks belong to which bag; `none` stands for the hand. -/

structure Owns (own : Option Nat → List Addr) (fresh : Addr) : Prop where
  nodup : ∀ i, (own i).Nodup
  apart : ∀ i j, i ≠ j → ∀ b ∈ own i, b ∉ own j
  below : ∀ i, ∀ b ∈ own i, b < fresh

/-- The invariant that blockbag.h states, for a bag of these blocks. -/
structure BagOk (blockSize : Nat) (w : World T) (bag : Bag) (blocks : List Addr) : Prop where
  chain : Chain w.nexts (some bag.head) blocks
  tail : blocks.getLast? = some bag.tail
  size : bag.sizeInBlocks = blocks.length
  head : (w.dataOf bag.head).length < blockSize
  full : ∀ b ∈ blocks.tail, (w.dataOf b).length = blockSize

def Holds (blockSize : Nat) (w : World T) : Option Nat → List Addr → Prop
  | none, blocks =>
      w.hand = blocks ∧ ∀ b ∈ blocks, (w.dataOf b).length = blockSize ∧ w.nexts b = none
  | some i, blocks => match w.bag i with
      | none => blocks = []
      | some bag => BagOk blockSize w bag blocks

structure Inv (blockSize : Nat) (w : World T) (own : Option Nat → List Addr) : Prop where
  owns : Owns own w.fresh
  holds : ∀ k, Holds blockSize w k (own k)

def objectsIn (data : Addr → List T) (blocks : List Addr) : Multiset T :=
  (blocks.map fun b => (data b : Multiset T)).sum

/-- The objects of a bag, through its links, or those in the hand. -/
def objects (w : World T) : Option Nat → Multiset T
  | none => objectsIn w.dataOf w.hand
  | some i => match w.bag i with
      | none => 0
      | some bag => match walk w.nexts (w.fresh + 1) (some bag.head) with
          | none => 0
          | some blocks => objectsIn w.dataOf blocks

section Lists

variable {next : Addr → Option Addr} {head : Option Addr}

theorem walk_chain {blocks : List Addr} (chain : Chain next head blocks) {fuel : Nat}
    (enough : blocks.length < fuel) :
    walk next fuel head = some blocks := by
  induction chain generalizing fuel with
  | nil =>
      cases fuel with
      | zero => cases enough
      | succ fuel => rfl
  | cons tail ih =>
      cases fuel with
      | zero => cases enough
      | succ fuel =>
          rw [List.length_cons] at enough
          rw [walk, ih (by omega), Option.map_some]

/-- Behind a block of a chain comes the rest of it. -/
theorem chain_behind {front back : List Addr} {a : Addr}
    (chain : Chain next head (front ++ a :: back)) : Chain next (next a) back := by
  induction front generalizing head with
  | nil =>
      cases chain with
      | cons tail => exact tail
  | cons b front ih =>
      cases chain with
      | cons tail => exact ih tail

/-- Without its next field the block ends the chain. -/
theorem chain_cut {front back : List Addr} {a : Addr}
    (chain : Chain next head (front ++ a :: back)) (nodup : (front ++ a :: back).Nodup) :
    Chain (Function.update next a none) head (front ++ [a]) := by
  induction front generalizing head with
  | nil =>
      cases chain with
      | cons tail =>
          apply Chain.cons
          rw [Function.update_self]
          exact .nil
  | cons b front ih =>
      cases chain with
      | cons tail =>
          rw [List.cons_append, List.nodup_cons] at nodup
          apply Chain.cons
          have apart : b ≠ a := by
            rintro rfl
            exact nodup.1 (List.mem_append_right _ List.mem_cons_self)
          rw [Function.update_of_ne apart]
          exact ih tail nodup.2

/-- A list is put behind the last block of another. -/
theorem chain_join {front back : List Addr} {a : Addr} {second : Option Addr}
    (chain : Chain next head (front ++ [a])) (nodup : (front ++ [a]).Nodup)
    (more : Chain next second back) (apart : a ∉ back) :
    Chain (Function.update next a second) head (front ++ a :: back) := by
  induction front generalizing head with
  | nil =>
      cases chain with
      | cons tail =>
          apply Chain.cons
          rw [Function.update_self]
          exact more.congr fun b member =>
            Function.update_of_ne (fun same : b = a => apart (same ▸ member)) _ _
  | cons b front ih =>
      cases chain with
      | cons tail =>
          rw [List.cons_append, List.nodup_cons] at nodup
          apply Chain.cons
          have differ : b ≠ a := by
            rintro rfl
            exact nodup.1 (List.mem_append_right _ List.mem_cons_self)
          rw [Function.update_of_ne differ]
          exact ih tail nodup.2

theorem length_le {blocks : List Addr} {fresh : Addr} (nodup : blocks.Nodup)
    (below : ∀ b ∈ blocks, b < fresh) :
    blocks.length ≤ fresh := by
  rw [← List.toFinset_card_of_nodup nodup, ← Finset.card_range fresh]
  refine Finset.card_le_card fun b member => ?_
  exact Finset.mem_range.mpr (below b (List.mem_toFinset.mp member))

theorem objectsIn_cons (data : Addr → List T) (b : Addr) (blocks : List Addr) :
    objectsIn data (b :: blocks) = (data b : Multiset T) + objectsIn data blocks := by
  rw [objectsIn, List.map_cons, List.sum_cons]
  rfl

theorem objectsIn_append (data : Addr → List T) (front back : List Addr) :
    objectsIn data (front ++ back) = objectsIn data front + objectsIn data back := by
  rw [objectsIn, List.map_append, List.sum_append]
  rfl

theorem objectsIn_congr {data other : Addr → List T} {blocks : List Addr}
    (same : ∀ b ∈ blocks, other b = data b) :
    objectsIn other blocks = objectsIn data blocks := by
  rw [objectsIn, objectsIn, List.map_congr_left fun b member => congrArg _ (same b member)]

theorem objectsIn_perm {data : Addr → List T} {one other : List Addr} (perm : one.Perm other) :
    objectsIn data one = objectsIn data other :=
  (perm.map _).sum_eq

theorem objectsIn_single (data : Addr → List T) (b : Addr) : objectsIn data [b] = data b := by
  rw [objectsIn_cons]
  exact add_zero _

/-- One block of a list gets other data. -/
theorem objectsIn_change (data : Addr → List T) {blocks : List Addr} (nodup : blocks.Nodup)
    {a : Addr} (member : a ∈ blocks) (new : List T) :
    objectsIn (Function.update data a new) blocks + data a = objectsIn data blocks + new := by
  induction blocks with
  | nil => cases member
  | cons b blocks ih =>
      rw [List.nodup_cons] at nodup
      rw [objectsIn_cons, objectsIn_cons]
      by_cases here : b = a
      · subst here
        have same : objectsIn (Function.update data b new) blocks = objectsIn data blocks := by
          exact objectsIn_congr fun c member =>
            Function.update_of_ne (fun same : c = b => nodup.1 (same ▸ member)) _ _
        rw [Function.update_self, same]
        abel
      · rw [Function.update_of_ne here]
        have later : a ∈ blocks := (List.mem_cons.mp member).resolve_left (Ne.symm here)
        rw [add_assoc, ih nodup.2 later, add_assoc]

end Lists

section Fields

variable (w : World T) (a : Addr)

@[simp] theorem nexts_setData (data : List T) : (w.setData a data).nexts = w.nexts := by
  funext b
  by_cases here : b = a
  · subst here
    simp [World.nexts, World.setData]
  · simp [World.nexts, World.setData, Function.update_of_ne here]

@[simp] theorem dataOf_setData (data : List T) :
    (w.setData a data).dataOf = Function.update w.dataOf a data := by
  funext b
  by_cases here : b = a
  · subst here
    simp [World.dataOf, World.setData]
  · simp [World.dataOf, World.setData, Function.update_of_ne here]

@[simp] theorem nexts_setNext (next : Option Addr) :
    (w.setNext a next).nexts = Function.update w.nexts a next := by
  funext b
  by_cases here : b = a
  · subst here
    simp [World.nexts, World.setNext]
  · simp [World.nexts, World.setNext, Function.update_of_ne here]

@[simp] theorem dataOf_setNext (next : Option Addr) : (w.setNext a next).dataOf = w.dataOf := by
  funext b
  by_cases here : b = a
  · subst here
    simp [World.dataOf, World.setNext]
  · simp [World.dataOf, World.setNext, Function.update_of_ne here]

@[simp] theorem nexts_allocate (next : Option Addr) (data : List T) :
    (w.allocateBlock next data).nexts = Function.update w.nexts w.fresh next := by
  funext b
  by_cases here : b = w.fresh
  · subst here
    simp [World.nexts, World.allocateBlock]
  · simp [World.nexts, World.allocateBlock, Function.update_of_ne here]

@[simp] theorem dataOf_allocate (next : Option Addr) (data : List T) :
    (w.allocateBlock next data).dataOf = Function.update w.dataOf w.fresh data := by
  funext b
  by_cases here : b = w.fresh
  · subst here
    simp [World.dataOf, World.allocateBlock]
  · simp [World.dataOf, World.allocateBlock, Function.update_of_ne here]

@[simp] theorem nexts_setBag (i : Nat) (bag : Bag) : (w.setBag i bag).nexts = w.nexts := rfl

@[simp] theorem dataOf_setBag (i : Nat) (bag : Bag) : (w.setBag i bag).dataOf = w.dataOf := rfl

@[simp] theorem fresh_setData (data : List T) : (w.setData a data).fresh = w.fresh := rfl

@[simp] theorem fresh_setNext (next : Option Addr) : (w.setNext a next).fresh = w.fresh := rfl

@[simp] theorem fresh_setBag (i : Nat) (bag : Bag) : (w.setBag i bag).fresh = w.fresh := rfl

end Fields

section Keep

variable {blockSize : Nat} {w after : World T} {own : Option Nat → List Addr}

theorem Inv.bagOk (inv : Inv blockSize w own) {i : Nat} {bag : Bag} (mine : w.bag i = some bag) :
    BagOk blockSize w bag (own (some i)) := by
  have holds := inv.holds (some i)
  rw [Holds, mine] at holds
  exact holds

theorem Inv.hand (inv : Inv blockSize w own) :
    w.hand = own none ∧ ∀ b ∈ own none, (w.dataOf b).length = blockSize ∧ w.nexts b = none :=
      inv.holds none

theorem BagOk.walk {bag : Bag} {blocks : List Addr} (ok : BagOk blockSize w bag blocks)
    (nodup : blocks.Nodup) (below : ∀ b ∈ blocks, b < w.fresh) :
    walk w.nexts (w.fresh + 1) (some bag.head) = some blocks :=
  walk_chain ok.chain (Nat.lt_succ_of_le (length_le nodup below))

theorem BagOk.blocks {bag : Bag} {blocks : List Addr} (ok : BagOk blockSize w bag blocks) :
    ∃ rest, blocks = bag.head :: rest ∧ Chain w.nexts (w.nexts bag.head) rest := ok.chain.some

theorem Inv.objects_eq (inv : Inv blockSize w own) (k : Option Nat) :
    objects w k = objectsIn w.dataOf (own k) := by
  cases k with
  | none => rw [objects, inv.hand.1]
  | some i =>
      have holds := inv.holds (some i)
      cases mine : w.bag i with
      | none =>
          rw [Holds, mine] at holds
          rw [holds]
          simp only [objects, mine]
          rfl
      | some bag =>
          have walked := (inv.bagOk mine).walk (inv.owns.nodup _) (inv.owns.below _)
          simp only [objects, mine, walked]

theorem Holds.congr {k : Option Nat} {blocks : List Addr} (holds : Holds blockSize w k blocks)
    (bag : ∀ i, k = some i → after.bag i = w.bag i) (hand : k = none → after.hand = w.hand)
    (same : ∀ b ∈ blocks, after.nexts b = w.nexts b ∧ after.dataOf b = w.dataOf b) :
    Holds blockSize after k blocks := by
  cases k with
  | none =>
      obtain ⟨all, detached⟩ := holds
      refine ⟨(hand rfl).trans all, fun b member => ?_⟩
      rw [(same b member).1, (same b member).2]
      exact detached b member
  | some i =>
      rw [Holds] at holds ⊢
      rw [bag i rfl]
      cases mine : w.bag i with
      | none =>
          rw [mine] at holds
          exact holds
      | some bag =>
          rw [mine] at holds
          have ok : BagOk blockSize w bag blocks := holds
          obtain ⟨rest, rfl, _⟩ := ok.blocks
          refine ⟨ok.chain.congr fun b member => (same b member).1, ok.tail, ok.size, ?_,
            fun b member => ?_⟩
          · rw [(same _ List.mem_cons_self).2]
            exact ok.head
          · rw [(same b (List.mem_of_mem_tail member)).2]
            exact ok.full b member

/-- Two owners exchange blocks, perhaps with new ones. -/
theorem Owns.exchange {fresh fresh' : Addr} (owns : Owns own fresh) {i j : Option Nat}
    (ne : i ≠ j) {l m : List Addr} (grow : fresh ≤ fresh') (nodup : (l ++ m).Nodup)
    (source : ∀ b ∈ l ++ m, b ∈ own i ∨ b ∈ own j ∨ (fresh ≤ b ∧ b < fresh')) :
    Owns (Function.update (Function.update own i l) j m) fresh' := by
  obtain ⟨nodupL, nodupM, apartLM⟩ := List.nodup_append.mp nodup
  have at_i : Function.update (Function.update own i l) j m i = l := by
    rw [Function.update_of_ne ne, Function.update_self]
  have at_j : Function.update (Function.update own i l) j m j = m := Function.update_self _ _ _
  have elsewhere (k : Option Nat) (one : k ≠ i) (other : k ≠ j) :
    Function.update (Function.update own i l) j m k = own k := by
    rw [Function.update_of_ne other, Function.update_of_ne one]
  have outside (k : Option Nat) (one : k ≠ i) (other : k ≠ j) (b : Addr) (member : b ∈ l ++ m) :
    b ∉ own k := by
    intro held
    rcases source b member with here | there | new
    · exact owns.apart i k (Ne.symm one) b here held
    · exact owns.apart j k (Ne.symm other) b there held
    · exact absurd (owns.below k b held) (Nat.not_lt.mpr new.1)
  refine ⟨fun k => ?_, fun k n differ b held => ?_, fun k b held => ?_⟩
  · by_cases one : k = i
    · rw [one, at_i]
      exact nodupL
    · by_cases other : k = j
      · rw [other, at_j]
        exact nodupM
      · rw [elsewhere k one other]
        exact owns.nodup k
  · by_cases one : k = i
    · rw [one, at_i] at held
      by_cases two : n = j
      · rw [two, at_j]
        exact fun again => apartLM b held b again rfl
      · rw [elsewhere n (fun same => differ (one.trans same.symm)) two]
        exact outside n (fun same => differ (one.trans same.symm)) two b
          (List.mem_append_left _ held)
    · by_cases other : k = j
      · rw [other, at_j] at held
        by_cases two : n = i
        · rw [two, at_i]
          exact fun again => apartLM b again b held rfl
        · rw [elsewhere n two fun same => differ (other.trans same.symm)]
          exact outside n two (fun same => differ (other.trans same.symm)) b
            (List.mem_append_right _ held)
      · rw [elsewhere k one other] at held
        by_cases two : n = i
        · rw [two, at_i]
          exact fun again => outside k one other b (List.mem_append_left _ again) held
        · by_cases three : n = j
          · rw [three, at_j]
            exact fun again => outside k one other b (List.mem_append_right _ again) held
          · rw [elsewhere n two three]
            exact owns.apart k n differ b held
  · have low : b ∈ l ++ m → b < fresh' := by
      intro member
      rcases source b member with here | there | new
      · exact (owns.below i b here).trans_le grow
      · exact (owns.below j b there).trans_le grow
      · exact new.2
    by_cases one : k = i
    · rw [one, at_i] at held
      exact low (List.mem_append_left _ held)
    · by_cases other : k = j
      · rw [other, at_j] at held
        exact low (List.mem_append_right _ held)
      · rw [elsewhere k one other] at held
        exact (owns.below k b held).trans_le grow

/-- Everything that belongs to none of two owners stays as it is. -/
structure Frame (w after : World T) (own : Option Nat → List Addr) (i j : Option Nat) : Prop where
  bag : ∀ k, some k ≠ i → some k ≠ j → after.bag k = w.bag k
  hand : none ≠ i → none ≠ j → after.hand = w.hand
  blocks : ∀ b < w.fresh, b ∉ own i → b ∉ own j → after.nexts b = w.nexts b ∧ after.dataOf b =
    w.dataOf b

/-- From one world to the next each owner has the objects it had, without those lost and with
those gained. -/
structure Kept (blockSize : Nat) (w : World T) (own : Option Nat → List Addr) (after : World T)
    (own' : Option Nat → List Addr)
    (lost gained : Option Nat → Multiset T) : Prop where
  inv : Inv blockSize after own'
  count : ∀ k, objectsIn after.dataOf (own' k) + lost k = objectsIn w.dataOf (own k) + gained k

theorem Inv.kept (inv : Inv blockSize w own) : Kept blockSize w own w own 0 0 := ⟨inv, fun _ => rfl⟩

theorem Kept.trans {final : World T} {own' own'' : Option Nat → List Addr}
    {lost gained lost' gained' : Option Nat → Multiset T}
    (first : Kept blockSize w own after own' lost gained)
    (second : Kept blockSize after own' final own'' lost' gained') :
    Kept blockSize w own final own'' (lost + lost') (gained + gained') := by
  refine ⟨second.inv, fun k => ?_⟩
  calc objectsIn final.dataOf (own'' k) + (lost + lost') k
      = objectsIn final.dataOf (own'' k) + lost' k + lost k := by rw [Pi.add_apply]; abel
    _ = objectsIn after.dataOf (own' k) + lost k + gained' k := by rw [second.count k]; abel
    _ = objectsIn w.dataOf (own k) + (gained + gained') k := by
      rw [first.count k, Pi.add_apply]; abel

/-- A step that only two owners see. -/
theorem Inv.exchange (inv : Inv blockSize w own) (after : World T) {i j : Option Nat} (ne : i ≠ j)
    {l m : List Addr} (grow : w.fresh ≤ after.fresh) (nodup : (l ++ m).Nodup)
    (source : ∀ b ∈ l ++ m, b ∈ own i ∨ b ∈ own j ∨ (w.fresh ≤ b ∧ b < after.fresh))
    (frame : Frame w after own i j) (one : Holds blockSize after i l)
    (other : Holds blockSize after j m) {lost gained : Option Nat → Multiset T}
    (countI : objectsIn after.dataOf l + lost i = objectsIn w.dataOf (own i) + gained i)
    (countJ : objectsIn after.dataOf m + lost j = objectsIn w.dataOf (own j) + gained j)
    (rest : ∀ k, k ≠ i → k ≠ j → lost k = gained k) :
    Kept blockSize w own after (Function.update (Function.update own i l) j m) lost gained := by
  have at_i : Function.update (Function.update own i l) j m i = l := by
    rw [Function.update_of_ne ne, Function.update_self]
  have at_j : Function.update (Function.update own i l) j m j = m := Function.update_self _ _ _
  have elsewhere (k : Option Nat) (one : k ≠ i) (other : k ≠ j) :
    Function.update (Function.update own i l) j m k = own k := by
    rw [Function.update_of_ne other, Function.update_of_ne one]
  have same (k : Option Nat) (one : k ≠ i) (other : k ≠ j) (b : Addr) (member : b ∈ own k) :
      after.nexts b = w.nexts b ∧ after.dataOf b = w.dataOf b :=
    frame.blocks b (inv.owns.below k b member) (inv.owns.apart k i one b member)
      (inv.owns.apart k j other b member)
  refine ⟨⟨inv.owns.exchange ne grow nodup source, fun k => ?_⟩, fun k => ?_⟩
  · by_cases first : k = i
    · rw [first, at_i]
      exact one
    · by_cases second : k = j
      · rw [second, at_j]
        exact other
      · rw [elsewhere k first second]
        refine (inv.holds k).congr ?_ ?_ (same k first second)
        · rintro n rfl
          exact frame.bag n first second
        · rintro rfl
          exact frame.hand first second
  · by_cases first : k = i
    · rw [first, at_i]
      exact countI
    · by_cases second : k = j
      · rw [second, at_j]
        exact countJ
      · rw [elsewhere k first second, objectsIn_congr fun b member =>
          (same k first second b member).2, rest k first second]

/-- A step that only one bag sees. -/
theorem Inv.change (inv : Inv blockSize w own) (after : World T) (i : Nat) {l : List Addr}
    (grow : w.fresh ≤ after.fresh) (nodup : l.Nodup)
    (source : ∀ b ∈ l, b ∈ own (some i) ∨ (w.fresh ≤ b ∧ b < after.fresh))
    (bags : ∀ k, k ≠ i → after.bag k = w.bag k) (hand : after.hand = w.hand)
    (blocks : ∀ b < w.fresh, b ∉ own (some i) → after.nexts b = w.nexts b ∧
      after.dataOf b = w.dataOf b)
    (holds : Holds blockSize after (some i) l) {lost gained : Multiset T}
    (count : objectsIn after.dataOf l + lost = objectsIn w.dataOf (own (some i)) + gained) :
    Kept blockSize w own after (Function.update own (some i) l) (Pi.single (some i) lost)
      (Pi.single (some i) gained) := by
  have ne : (some i) ≠ none := Option.some_ne_none i
  have same : Function.update (Function.update own (some i) l) none (own none) = Function.update own
    (some i) l := by
    rw [Function.update_eq_self_iff, Function.update_of_ne (Ne.symm ne)]
  have untouched (b : Addr) (member : b ∈ own none) : after.nexts b = w.nexts b ∧ after.dataOf b =
    w.dataOf b :=
    blocks b (inv.owns.below none b member) (inv.owns.apart none (some i) (Ne.symm ne) b member)
  rw [← same]
  refine inv.exchange after ne grow ?_ ?_ ⟨?_, fun _ absurd => (absurd rfl).elim,
    fun b low outside _ => blocks b low outside⟩ holds
    ((inv.holds none).congr (fun _ differ => by cases differ) (fun _ => hand) untouched) ?_ ?_ ?_
  · refine List.nodup_append.mpr ⟨nodup, inv.owns.nodup none, ?_⟩
    rintro b member c held rfl
    rcases source b member with mine | new
    · exact inv.owns.apart (some i) none ne b mine held
    · exact absurd (inv.owns.below none b held) (Nat.not_lt.mpr new.1)
  · intro b member
    rcases List.mem_append.mp member with mine | held
    · exact (source b mine).imp id .inr
    · exact .inr (.inl held)
  · intro k differ _
    exact bags k fun same => differ (congrArg some same)
  · rw [Pi.single_eq_same, Pi.single_eq_same]
    exact count
  · rw [Pi.single_eq_of_ne (Ne.symm ne), Pi.single_eq_of_ne (Ne.symm ne),
      objectsIn_congr fun b member => (untouched b member).2]
  · intro k differ _
    rw [Pi.single_eq_of_ne differ, Pi.single_eq_of_ne differ]

theorem Holds.of_bag {i : Nat} {bag : Bag} {blocks : List Addr} (mine : w.bag i = some bag)
    (ok : BagOk blockSize w bag blocks) :
    Holds blockSize w (some i) blocks := by
  rw [Holds, mine]
  exact ok

theorem single_zero (k : Option Nat) : (0 : Option Nat → Multiset T) = Pi.single k 0 :=
  (Pi.single_zero k).symm

theorem push_count {a : Addr} {blocks : List Addr} (nodup : blocks.Nodup) (member : a ∈ blocks)
    (data : Addr → List T) (obj : T) :
    objectsIn (Function.update data a (data a ++ [obj])) blocks =
      objectsIn data blocks + {obj} := by
  have change := objectsIn_change data nodup member (data a ++ [obj])
  refine add_right_cancel (change.trans ?_)
  rw [← Multiset.coe_add, Multiset.coe_singleton]
  abel

end Keep

end SetBench.BagMoves
