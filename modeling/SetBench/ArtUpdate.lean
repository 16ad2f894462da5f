import SetBench.ArtLeaf

/-! The bodies that try_insert and try_remove of art.h run under the lock of `p`: each
builds new nodes aside and ends with one store into the slot of the search. -/
namespace SetBench.Art

open Radix KeyVals

variable {K V : Type} [RadixKey K]

def maxSparseSize : Nat := 16

/-- What try_insert links in the place of `c`: the new heap and the new child. -/
def insertChild (heap : Heap K (Leaf K V)) (c : Option Addr) (bytePos : Nat) (k : K) (v : V) :
    Option (Heap K (Leaf K V) × Addr) :=
  match c with
  | none => some (heap.alloc (.leaf (.single k v)))
  | some c =>
      match heap.node c with
      | none => none
      | some (.leaf l) =>
          if l.size < maxSmallLeafSize then some (heap.alloc (.leaf (.add false bytePos l k v)))
          else if l.size = maxSmallLeafSize then some (heap.alloc (.leaf (.add true bytePos l k v)))
          else if l.size < maxBigLeafSize then some (heap.alloc (.leaf (.add true bytePos l k v)))
          else
            match insert l.keyVals k v with
            | [] => none
            | start :: rest =>
                some (splitLeaf heap bytePos start.1 (Leaf.divide bytePos start rest))
      | some (.inner q) => some (cutEdge heap c q.key bytePos (.single k v) k)

/-- What try_remove leaves in the place of the leaf `l`. The parent is never removed: the
code for a parent with one other child is commented out. -/
def removeChild (heap : Heap K (Leaf K V)) (l : Leaf K V) (k : K) :
    Heap K (Leaf K V) × Option Addr :=
  if l.size = 1 then (heap, none)
  else if maxSmallLeafSize + 1 < l.size then
    let (heap, new) := heap.alloc (.leaf (.remove true l k))
    (heap, some new)
  else
    let (heap, new) := heap.alloc (.leaf (.remove false l k))
    (heap, some new)

-- The search in the child where find_location stopped, when that is a leaf.
def leafFind (heap : Heap K (Leaf K V)) (c : Option Addr) (k : K) : Option V :=
  match c with
  | none => none
  | some c =>
      match heap.node c with
      | some (.leaf l) => find l.keyVals k
      | _ => none

variable {heap : Heap K (Leaf K V)} {k : K} {v : V} {location : Location} {p : Inner K}

omit [RadixKey K] in
theorem pairs_leaf (l : Leaf K V) : RadixLeaf.pairs l = l.keyVals := rfl

theorem leafFind_iff (leaves : Leaves Leaf.Ok heap) (c : Option Addr) (k : K) (v : V) :
    leafFind heap c k = some v ↔
      ∃ c' l, c = some c' ∧ heap.node c' = some (.leaf l) ∧ (k, v) ∈ RadixLeaf.pairs l := by
  unfold leafFind
  cases c with
  | none => simp
  | some c =>
      cases there : heap.node c with
      | none => simp [there]
      | some node =>
          cases node with
          | inner q => simp [there]
          | leaf l =>
              have := find_some_iff (leaves c l there).sorted k v
              simpa [there, pairs_leaf] using this

/-- The place of a search in a tree of these leaves. -/
structure Current (heap : Heap K (Leaf K V)) (k : K) (location : Location) (p : Inner K) : Prop
    extends Placed 2 maxSparseSize heap k location p where
  leaves : Leaves Leaf.Ok heap

namespace Current

variable (current : Current heap k location p)
include current

theorem below (v : V) : Below heap root k v ↔ leafFind heap location.c k = some v := by
  rw [current.seen.below current.sound current.reach current.child, leafFind_iff current.leaves]

theorem single_one : OneKey (Leaf.single k v) k v p.byteNum :=
  Leaf.single_one k v (current.sound.ok _ _ current.seen.here).2

section Leaf

variable {index : Nat} {c : Addr} {l : Leaf K V} (held : location.c = some c)
  (there : heap.node c = some (.leaf l))
include held there

theorem insert_leaf (cptr : location.cptr = some index) (absent : find l.keyVals k = none)
    {big : Bool} (small : big = false → l.size < maxSmallLeafSize)
    (large : big = true → maxSmallLeafSize ≤ l.size ∧ l.size < maxBigLeafSize) :
    Rewrite 2 maxSparseSize heap ((heap.alloc (.leaf (.add big location.bytePos l k v))).1.store
      location.p index
      (some (heap.alloc (.leaf (.add big location.bytePos l k v))).2)) location.p none Leaf.Ok ∧
    Inserted heap ((heap.alloc (.leaf (.add big location.bytePos l k v))).1.store location.p index
      (some (heap.alloc (.leaf (.add big location.bytePos l k v))).2)) k v := by
  have ok := current.leaves c l there
  have fits := current.fits held there
  have fresh := (find_none_iff ok.sorted k).mp absent
  have added : Leaf.Ok (.add big location.bytePos l k v) := by
    rw [current.leaf_pos held there]
    exact Leaf.add_ok ok fresh (current.leaf_agree held there) fits.1 small large
  obtain ⟨rewrite, inserted⟩ :=
    current.swap_insert held there (.add big location.bytePos l k v) cptr
    (current.leaf_deep held there) (Or.inl rfl) fun entry => mem_insert _ _ _ _
  exact ⟨rewrite.mono fun _ same => same ▸ added, inserted⟩

theorem insert_split (cptr : location.cptr = some index) (absent : find l.keyVals k = none)
    (full : l.size = maxBigLeafSize) {start : K × V} {rest : List (K × V)}
    (sum : insert l.keyVals k v = start :: rest) :
    Rewrite 2 maxSparseSize heap
      ((splitLeaf heap location.bytePos start.1 (Leaf.divide location.bytePos start rest)).1.store
        location.p index
        (some (splitLeaf heap location.bytePos start.1
          (Leaf.divide location.bytePos start rest)).2))
      location.p none Leaf.Ok ∧
    Inserted heap
      ((splitLeaf heap location.bytePos start.1 (Leaf.divide location.bytePos start rest)).1.store
        location.p index
        (some (splitLeaf heap location.bytePos start.1
          (Leaf.divide location.bytePos start rest)).2)) k v := by
  have ok := current.leaves c l there
  have fits := current.fits held there
  have fresh := (find_none_iff ok.sorted k).mp absent
  have differ : DifferAt (start :: rest) location.bytePos := by
    rw [← sum, current.leaf_pos held there]
    exact Leaf.add_differ ok fresh (current.leaf_agree held there) fits.1
  have sorted : Sorted (start :: rest) := by
    rw [← sum]
    exact insert_sorted ok.sorted v fresh
  have agree : ∀ kv ∈ start :: rest, Agree kv.1 start.1 location.bytePos := fun kv member =>
    differ.agree kv member start (.head _)
  have length : rest.length = maxBigLeafSize := by
    have := length_insert l.keyVals k v
    rw [sum, List.length_cons] at this
    rw [← full]
    exact Nat.succ.inj this
  have inside := differ.lt_size
  obtain ⟨kv, member, other_byte⟩ := differ.apart
  have few : (Leaf.divide location.bytePos start rest).length ≤ maxSparseSize := by
    have := splitLoop_length location.bytePos start [] rest
    rw [Leaf.divide, List.length_map]
    exact this.trans (by rw [length]; decide)
  have least : 2 ≤ (Leaf.divide location.bytePos start rest).length := by
    rw [Leaf.divide, List.length_map]
    exact splitLoop_two member other_byte
  have first := (Leaf.divide_mem location.bytePos start rest start).mpr (.head _)
  obtain ⟨rewrite, inserted⟩ :=
    current.split_insert held there (Leaf.divide_divided sorted agree inside) inside least
    few cptr (first.imp fun _ pair => ⟨pair.1, start.2, pair.2⟩) fun entry => by
      rw [pairs_leaf, ← mem_insert, sum]
      exact Leaf.divide_mem location.bytePos start rest entry
  exact ⟨rewrite.mono (Leaf.divide_ok sorted agree length ⟨kv, member, other_byte⟩), inserted⟩

theorem remove_leaf (cptr : location.cptr = some index) (found : find l.keyVals k = some v)
    (more : l.size ≠ 1) {big : Bool} (small : big = false → l.size ≤ maxSmallLeafSize + 1)
    (large : big = true → maxSmallLeafSize + 1 < l.size) :
    Rewrite 2 maxSparseSize heap ((heap.alloc (.leaf (.remove big l k))).1.store location.p index
      (some (heap.alloc (.leaf (.remove big l k))).2)) location.p none Leaf.Ok ∧
    Deleted heap ((heap.alloc (.leaf (.remove big l k))).1.store location.p index
      (some (heap.alloc (.leaf (.remove big l k))).2)) k := by
  have ok := current.leaves c l there
  have fits := current.fits held there
  have member := (find_some_iff ok.sorted k v).mp found
  obtain ⟨removed, deeper⟩ := Leaf.remove_ok ok member more small large
  obtain ⟨rewrite, deleted⟩ := current.swap_delete held there (.remove big l k) cptr
    (lt_of_lt_of_le fits.1 deeper) (Or.inr (Leaf.remove_key removed)) fun entry =>
    Leaf.remove_mem l k big entry.1 entry.2
  exact ⟨rewrite.mono fun _ same => same ▸ removed, deleted⟩

theorem remove_last (cptr : location.cptr = some index) (found : find l.keyVals k = some v)
    (one : l.size = 1) :
    Rewrite 2 maxSparseSize heap (heap.store location.p index none) location.p none Leaf.Ok ∧
    Deleted heap (heap.store location.p index none) k := by
  have member := (find_some_iff (current.leaves c l there).sorted k v).mp found
  -- The only pair of the leaf is the one of `k`.
  have only : ∀ entry ∈ l.keyVals, entry.1 = k := by
    obtain ⟨kv, same⟩ := List.length_eq_one_iff.mp one
    rw [same, List.mem_singleton] at member
    intro entry held
    rw [same, List.mem_singleton, ← member] at held
    rw [held]
  obtain ⟨rewrite, deleted⟩ := current.clear_delete held there cptr only
  exact ⟨rewrite.mono fun _ => False.elim, deleted⟩

end Leaf

/-- The one store of an insert that finds a slot. -/
theorem insertChild_spec {index : Nat} (cptr : location.cptr = some index)
    (absent : leafFind heap location.c k = none) (v : V) :
    ∃ mid new, insertChild heap location.c location.bytePos k v = some (mid, new) ∧
      Rewrite 2 maxSparseSize heap (mid.store location.p index (some new)) location.p none Leaf.Ok ∧
      Inserted heap (mid.store location.p index (some new)) k v := by
  cases held : location.c with
  | none =>
      obtain ⟨rewrite, inserted⟩ := current.insert_null cptr held (current.single_one (v := v))
      exact ⟨_, _, rfl, rewrite.mono fun _ same => same ▸ Leaf.single_ok k v, inserted⟩
  | some c =>
      obtain ⟨node, there, _⟩ := current.seen.stop c held
      cases node with
      | inner q =>
          obtain ⟨parts, early⟩ := current.seen.parts held there (current.fits held there)
          obtain ⟨rewrite, inserted⟩ :=
            (current.slot cptr).cut (by decide) (by decide) (current.edge held)
            there parts early (Leaf.single_one k v parts.lt_size)
          refine ⟨_, _, by simp only [insertChild, there], ?_, inserted⟩
          exact rewrite.mono fun _ same => same ▸ Leaf.single_ok k v
      | leaf l =>
          have missing : find l.keyVals k = none := by
            simpa [leafFind, held, there] using absent
          have ok := current.leaves c l there
          simp only [insertChild, there]
          split
          · rename_i room
            exact ⟨_, _, rfl, current.insert_leaf held there cptr missing (fun _ => room)
              (fun kind => nomatch kind)⟩
          · split
            · rename_i exact_
              exact ⟨_, _, rfl, current.insert_leaf held there cptr missing
                (fun kind => nomatch kind)
                fun _ => ⟨exact_.ge, by rw [exact_]; decide⟩⟩
            · split
              · rename_i least _ room
                exact ⟨_, _, rfl, current.insert_leaf held there cptr missing
                  (fun kind => nomatch kind)
                  fun _ => ⟨Nat.le_of_not_lt least, room⟩⟩
              · rename_i most
                have full : l.size = maxBigLeafSize :=
                  Nat.le_antisymm ok.size_le (Nat.le_of_not_lt most)
                cases sum : insert l.keyVals k v with
                | nil =>
                    have := length_insert l.keyVals k v
                    rw [sum] at this
                    cases this
                | cons start rest =>
                    exact ⟨_, _, rfl, current.insert_split held there cptr missing full sum⟩

/-- The one store of a remove. -/
theorem removeChild_spec {index : Nat} {c : Addr} {l : Leaf K V}
    (cptr : location.cptr = some index) (held : location.c = some c)
    (there : heap.node c = some (.leaf l)) (found : find l.keyVals k = some v) :
    Rewrite 2 maxSparseSize heap
      ((removeChild heap l k).1.store location.p index (removeChild heap l k).2)
      location.p none Leaf.Ok ∧
    Deleted heap ((removeChild heap l k).1.store location.p index (removeChild heap l k).2) k := by
  unfold removeChild
  by_cases one : l.size = 1
  · rw [if_pos one]
    exact current.remove_last held there cptr found one
  · rw [if_neg one]
    by_cases large : maxSmallLeafSize + 1 < l.size
    · rw [if_pos large]
      exact current.remove_leaf held there cptr found one (fun kind => nomatch kind) fun _ => large
    · rw [if_neg large]
      exact current.remove_leaf held there cptr found one (fun _ => Nat.le_of_not_lt large)
        fun kind => nomatch kind

end Current

end SetBench.Art
