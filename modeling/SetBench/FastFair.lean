import Mathlib

/-! Leaf pages of ds/23-fastfair/btree.h with integer keys. insert_key and remove_key shift records
in place; each is the list of the pages it goes through, one for every store. A page is read at
rest, so the second read of a key and the retry on the switch counter of linear_search fall away. -/
namespace SetBench.FastFair

structure Record where
  key : Nat
  ptr : Nat
  deriving DecidableEq, Repr

-- 0 is NULL; a leaf has no leftmost_ptr.
structure Page where
  leftmost : Nat
  records : Nat → Record
  switchCounter : Nat
  lastIndex : Int

-- (PAGESIZE - sizeof(header)) / sizeof(entry); the header ends at byte 49 and is aligned to 8.
def cardinality : Nat := (512 - 56) / 16

namespace Page

variable (page : Page)

def isForward : Bool := page.switchCounter % 2 == 0

def setKey (i key : Nat) : Page :=
  { page with records := Function.update page.records i { page.records i with key := key } }

def setPtr (i ptr : Nat) : Page :=
  { page with records := Function.update page.records i { page.records i with ptr := ptr } }

def countUp : Nat → Nat → Nat
  | 0, i => i
  | fuel + 1, i => if (page.records i).ptr = 0 then i else countUp fuel (i + 1)

def countDown : Nat → Option Nat
  | 0 => if (page.records 0).ptr = 0 then some 0 else none
  | i + 1 => if (page.records (i + 1)).ptr = 0 then some (i + 1) else countDown i

def count : Nat :=
  let first := (page.lastIndex + 1).toNat
  if page.isForward then page.countUp cardinality first
  else (page.countDown first).getD (page.countUp cardinality 0)

def searchRight (key : Nat) : Nat → Nat → Nat
  | 0, _ => 0
  | fuel + 1, i =>
      if (page.records i).ptr = 0 then 0
      else if (page.records i).key = key ∧ (page.records (i - 1)).ptr ≠ (page.records i).ptr then
        (page.records i).ptr
      else searchRight key fuel (i + 1)

def searchLeft (key : Nat) : Nat → Nat
  | 0 => if (page.records 0).key = key then (page.records 0).ptr else 0
  | i + 1 =>
      if (page.records (i + 1)).key = key ∧ (page.records i).ptr ≠ (page.records (i + 1)).ptr ∧
        (page.records (i + 1)).ptr ≠ 0 then
        (page.records (i + 1)).ptr
      else searchLeft key i

/-- linear_search of a leaf, without the sibling. -/
def linearSearch (key : Nat) : Nat :=
  if page.isForward then
    if (page.records 0).key = key ∧ (page.records 0).ptr ≠ 0 then (page.records 0).ptr
    else page.searchRight key cardinality 1
  else page.searchLeft key (page.count - 1)

def toForward : Page :=
  { page with
    switchCounter := if page.isForward then page.switchCounter + 2 else page.switchCounter + 1 }

def toBackward : Page :=
  { page with
    switchCounter := if page.isForward then page.switchCounter + 1 else page.switchCounter + 2 }

end Page

-- The loop of insert_key with `i` records left to compare, and its end at records[0].
def insertLoop (key ptr : Nat) : Nat → Page → List Page
  | 0, page =>
      let hidden := page.setPtr 0 page.leftmost
      let keyed := hidden.setKey 0 key
      [hidden, keyed, keyed.setPtr 0 ptr]
  | i + 1, page =>
      let hidden := page.setPtr (i + 1) (page.records i).ptr
      if key < (page.records i).key then
        let copied := hidden.setKey (i + 1) (page.records i).key
        hidden :: copied :: insertLoop key ptr i copied
      else
        let keyed := hidden.setKey (i + 1) key
        [hidden, keyed, keyed.setPtr (i + 1) ptr]

def insertKey (page : Page) (key ptr numEntries : Nat) : List Page :=
  let turned := page.toForward
  let stores :=
    if numEntries = 0 then
      let keyed := turned.setKey 0 key
      let shown := keyed.setPtr 0 ptr
      [keyed, shown, shown.setPtr 1 0]
    else
      let ended := turned.setPtr (numEntries + 1) (turned.records numEntries).ptr
      ended :: insertLoop key ptr numEntries ended
  turned :: stores ++ [{ stores.getLastD turned with lastIndex := numEntries }]

def removeLoop (key : Nat) : Nat → Nat → Bool → Page → List Page × Bool
  | 0, _, shift, _ => ([], shift)
  | fuel + 1, i, shift, page =>
      if (page.records i).ptr = 0 then ([], shift)
      else if shift || (page.records i).key == key then
        let hidden := if shift then page else page.setPtr i
          (if i = 0 then page.leftmost else (page.records (i - 1)).ptr)
        let keyed := hidden.setKey i (page.records (i + 1)).key
        let moved := keyed.setPtr i (page.records (i + 1)).ptr
        let rest := removeLoop key fuel (i + 1) true moved
        ((if shift then [] else [hidden]) ++ [keyed, moved] ++ rest.1, rest.2)
      else removeLoop key fuel (i + 1) false page

def removeKey (page : Page) (key : Nat) : List Page :=
  let turned := page.toBackward
  let stores := removeLoop key cardinality 0 false turned
  turned :: stores.1 ++ (if stores.2 then
    [{ stores.1.getLastD turned with lastIndex := page.lastIndex - 1 }] else [])

inductive Op where
  | insert (key ptr : Nat)
  | remove (key : Nat)
  deriving DecidableEq, Repr

def Op.stores (op : Op) (page : Page) : List Page :=
  match op with
  | .insert key ptr => insertKey page key ptr page.count
  | .remove key => removeKey page key

def Op.apply (op : Op) (page : Page) : Page := (op.stores page).getLastD page

def emptyPage : Page where
  leftmost := 0
  records := fun _ => ⟨2 ^ 64 - 1, 0⟩
  switchCounter := 0
  lastIndex := -1

/-- What the page is for: a pointer for each key, 0 for none. -/
def Op.meaning : Op → (Nat → Nat) → Nat → Nat
  | .insert key ptr, map => Function.update map key ptr
  | .remove key, map => Function.update map key 0

end SetBench.FastFair
