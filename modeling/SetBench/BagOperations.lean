import SetBench.BagMoves

/-! What each operation of a blockbag does to the bags and their objects. -/
namespace SetBench.BagMoves

open LinkedBlocks

variable {T : Type}

section Operations

variable {blockSize : Nat} {w : World T} {own : Option Nat → List Addr} {i : Nat} {bag : Bag}

theorem Inv.add (inv : Inv blockSize w own) (mine : w.bag i = some bag) (obj : T) :
    ∃ blocks grown, (w.add blockSize i bag obj).bag i = some grown ∧
      Kept blockSize w own (w.add blockSize i bag obj) (Function.update own (some i) blocks) 0
        (Pi.single (some i) {obj}) := by
  have ok := inv.bagOk mine
  have nodup := inv.owns.nodup (some i)
  have below := inv.owns.below (some i)
  obtain ⟨rest, blocks, _⟩ := ok.blocks
  have member : bag.head ∈ own (some i) := by
    rw [blocks]
    exact List.mem_cons_self
  have room := ok.head
  have pushed := push_count nodup member w.dataOf obj
  have full_rest : ∀ b ∈ (own (some i)).tail, b ≠ bag.head ∧ (w.dataOf b).length = blockSize := by
    intro b later
    refine ⟨?_, ok.full b later⟩
    rintro rfl
    rw [blocks] at later nodup
    exact (List.nodup_cons.mp nodup).1 later
  rw [single_zero (some i)]
  by_cases full : (w.dataOf bag.head ++ [obj]).length = blockSize
  · have added : w.add blockSize i bag obj =
        ((w.setData bag.head (w.dataOf bag.head ++ [obj])).allocateBlock (some bag.head)
          []).setBag i
          { bag with head := w.fresh, sizeInBlocks := bag.sizeInBlocks + 1 } := if_pos full
    have old (b : Addr) (held : b ∈ own (some i)) : b ≠ w.fresh := Nat.ne_of_lt (below b held)
    rw [added]
    refine ⟨w.fresh :: own (some i), _, Function.update_self _ _ _,
      inv.change _ i ?_ ?_ ?_ ?_ ?_ ?_ ?_ ?_⟩
    · exact Nat.le_succ w.fresh
    · exact List.nodup_cons.mpr ⟨fun held => Nat.lt_irrefl _ (below _ held), nodup⟩
    · intro b held
      rcases List.mem_cons.mp held with rfl | held
      · exact .inr ⟨Nat.le_refl _, Nat.lt_succ_self _⟩
      · exact .inl held
    · exact fun k apart => Function.update_of_ne apart _ _
    · rfl
    · intro b low outside
      have apart : b ≠ bag.head := fun same => outside (same ▸ member)
      simp [Function.update_of_ne (Nat.ne_of_lt low), Function.update_of_ne apart]
    · refine .of_bag (Function.update_self _ _ _) ⟨.cons ?_, ?_, ?_, ?_, ?_⟩
      · simp only [nexts_setBag, nexts_allocate, fresh_setData, nexts_setData, Function.update_self]
        exact ok.chain.congr fun b held => Function.update_of_ne (old b held) _ _
      · rw [List.getLast?_cons, ok.tail]
        rfl
      · rw [List.length_cons, ← ok.size]
      · simp only [dataOf_setBag, dataOf_allocate, fresh_setData, Function.update_self,
          List.length_nil]
        omega
      · intro b held
        simp only [List.tail_cons] at held
        simp only [dataOf_setBag, dataOf_allocate, fresh_setData, dataOf_setData]
        rw [Function.update_of_ne (old b held)]
        by_cases here : b = bag.head
        · rw [here, Function.update_self]
          exact full
        · rw [Function.update_of_ne here]
          rw [blocks] at held
          refine (full_rest b ?_).2
          rw [blocks]
          exact (List.mem_cons.mp held).resolve_left here
    · simp only [dataOf_setBag, dataOf_allocate, fresh_setData, dataOf_setData]
      rw [objectsIn_cons, Function.update_self, objectsIn_congr fun b held => Function.update_of_ne
        (old b held) _ _, pushed]
      simp
  · have added : w.add blockSize i bag obj = w.setData bag.head (w.dataOf bag.head ++ [obj]) :=
      if_neg full
    rw [added]
    refine ⟨own (some i), bag, mine, inv.change _ i ?_ nodup (fun b held => .inl held) ?_ ?_ ?_
      ?_ ?_⟩
    · exact Nat.le_refl w.fresh
    · exact fun _ _ => rfl
    · rfl
    · intro b low outside
      have apart : b ≠ bag.head := fun same => outside (same ▸ member)
      simp [Function.update_of_ne apart]
    · refine .of_bag mine ⟨?_, ok.tail, ok.size, ?_, ?_⟩
      · rw [nexts_setData]
        exact ok.chain
      · rw [dataOf_setData, Function.update_self]
        rw [List.length_append, List.length_singleton] at full ⊢
        omega
      · intro b later
        rw [dataOf_setData, Function.update_of_ne (full_rest b later).1]
        exact (full_rest b later).2
    · rw [dataOf_setData, pushed, add_zero]

theorem Inv.addFullBlock (inv : Inv blockSize w own) (mine : w.bag i = some bag) {b : Addr}
    (held : b ∈ w.hand) :
    Kept blockSize w own (w.addFullBlock i bag b)
      (Function.update (Function.update own (some i) (own (some i) ++ [b])) none (w.hand.erase b))
      (Pi.single none (w.dataOf b)) (Pi.single (some i) (w.dataOf b)) := by
  have ok := inv.bagOk mine
  obtain ⟨hand, detached⟩ := inv.hand
  have nodup := inv.owns.nodup (some i)
  have nodupHand := inv.owns.nodup none
  rw [hand] at held
  obtain ⟨front, split⟩ := List.getLast?_eq_some_iff.mp ok.tail
  have member : bag.tail ∈ own (some i) := List.mem_of_getLast? ok.tail
  have outside (c : Addr) (here : c ∈ own none) : c ∉ own (some i) :=
    inv.owns.apart none (some i) (Option.some_ne_none i).symm c here
  have apart (c : Addr) (here : c ∈ own none) : c ≠ bag.tail :=
    fun same => outside c here (same ▸ member)
  refine inv.exchange _ (Option.some_ne_none i) ?_ ?_ ?_ ⟨?_, ?_, ?_⟩ ?_ ?_ ?_ ?_ ?_
  · exact Nat.le_refl w.fresh
  · rw [List.append_assoc]
    refine List.nodup_append.mpr ⟨nodup, ?_, ?_⟩
    · rw [hand]
      exact (List.perm_cons_erase held).nodup_iff.mp nodupHand
    · rintro c here d there rfl
      rw [hand] at there
      exact outside c ((List.perm_cons_erase held).mem_iff.mpr there) here
  · intro c here
    rcases List.mem_append.mp here with here | here
    · rcases List.mem_append.mp here with here | here
      · exact .inl here
      · exact .inr (.inl (List.mem_singleton.mp here ▸ held))
    · rw [hand] at here
      exact .inr (.inl (List.mem_of_mem_erase here))
  · exact fun k differ _ => Function.update_of_ne (fun same => differ (congrArg some same)) _ _
  · exact fun _ differ => (differ rfl).elim
  · intro c low one other
    have differ : c ≠ bag.tail := fun same => one (same ▸ member)
    simp [World.addFullBlock, World.setBag, World.nexts, World.dataOf, World.setNext,
      Function.update_of_ne differ]
  · refine .of_bag (Function.update_self _ _ _) ⟨?_, ?_, ?_, ?_, ?_⟩
    · have joined := chain_join (split ▸ ok.chain) (split ▸ nodup)
        (show Chain w.nexts (some b) [b] from .cons (by rw [(detached b held).2]; exact .nil))
        (fun here => apart b held (List.mem_singleton.mp here).symm)
      rw [split, List.append_assoc]
      simp only [World.addFullBlock, nexts_setBag]
      exact (nexts_setNext w bag.tail (some b)).symm ▸ joined
    · exact List.getLast?_concat
    · rw [List.length_append, ← ok.size]
      rfl
    · exact (congrArg List.length (congrFun (dataOf_setNext w bag.tail (some b)) bag.head)).trans_lt
        ok.head
    · intro c later
      have same : (w.addFullBlock i bag b).dataOf c = w.dataOf c :=
        congrFun (dataOf_setNext w bag.tail (some b)) c
      rw [same]
      obtain ⟨rest, blocks, _⟩ := ok.blocks
      have full := ok.full
      rw [blocks] at later full
      rcases List.mem_append.mp later with here | here
      · exact full c here
      · rw [List.mem_singleton.mp here]
        exact (detached b held).1
  · refine ⟨rfl, fun c here => ?_⟩
    have mine : c ∈ own none := by
      rw [hand] at here
      exact List.mem_of_mem_erase here
    refine ⟨?_, ?_⟩
    · exact (congrArg List.length (congrFun (dataOf_setNext w bag.tail (some b)) c)).trans
        (detached c mine).1
    · refine (congrFun (nexts_setNext w bag.tail (some b)) c).trans ?_
      rw [Function.update_of_ne (apart c mine)]
      exact (detached c mine).2
  · have same : (w.addFullBlock i bag b).dataOf = w.dataOf := dataOf_setNext w bag.tail (some b)
    rw [same, objectsIn_append, objectsIn_single, Pi.single_eq_of_ne (Option.some_ne_none i),
      Pi.single_eq_same, add_zero]
  · have same : (w.addFullBlock i bag b).dataOf = w.dataOf := dataOf_setNext w bag.tail (some b)
    rw [same, hand, objectsIn_perm (List.perm_cons_erase held), objectsIn_cons, Pi.single_eq_same,
      Pi.single_eq_of_ne (Option.some_ne_none i).symm, add_zero, add_comm]
  · intro k one other
    rw [Pi.single_eq_of_ne one, Pi.single_eq_of_ne other]

theorem chain_next {next : Addr → Option Addr} {a : Addr} {rest : List Addr}
    (chain : Chain next (some a) (a :: rest)) :
    Chain next (next a) rest := by
  cases chain with
  | cons tail => exact tail

theorem chain_head {next : Addr → Option Addr} {head : Option Addr} {blocks : List Addr}
    (chain : Chain next head blocks) :
    head = blocks.head? := by
  cases chain with
  | nil => rfl
  | cons tail => rfl

/-- The second block of a bag of at least three is given away. -/
theorem Inv.removeFullBlock (inv : Inv blockSize w own) (mine : w.bag i = some bag)
    {second third : Addr} {rest : List Addr}
    (blocks : own (some i) = bag.head :: second :: third :: rest) :
    ∃ after, w.removeFullBlock i bag = (after, some second) ∧ after.dataOf = w.dataOf ∧
      Kept blockSize w own after
        (Function.update (Function.update own (some i) (bag.head :: third :: rest))
        none (second :: w.hand))
        (Pi.single (some i) (w.dataOf second)) (Pi.single none (w.dataOf second)) := by
  have ok := inv.bagOk mine
  obtain ⟨hand, detached⟩ := inv.hand
  have nodup := inv.owns.nodup (some i)
  have chain := ok.chain
  have tail := ok.tail
  have size := ok.size
  have full := ok.full
  have nodupHand := inv.owns.nodup none
  have outside (c : Addr) (here : c ∈ own none) : c ∉ own (some i) :=
    inv.owns.apart none (some i) (Option.some_ne_none i).symm c here
  rw [blocks] at nodup chain tail size full outside
  have from_second : Chain w.nexts (w.nexts bag.head) (second :: third :: rest) := chain_next chain
  have to_second : w.nexts bag.head = some second := chain_head from_second
  rw [to_second] at from_second
  have from_third : Chain w.nexts (w.nexts second) (third :: rest) := chain_next from_second
  have to_third : w.nexts second = some third := chain_head from_third
  rw [to_third] at from_third
  simp only [List.nodup_cons, List.mem_cons, not_or] at nodup
  obtain ⟨⟨second_apart, head_third, head_rest⟩, ⟨second_third, second_rest⟩, later⟩ := nodup
  have removed : w.removeFullBlock i bag =
      ({ (w.setNext bag.head (some third)).setNext second none with
        hand := second :: w.hand }.setBag i
        { bag with sizeInBlocks := bag.sizeInBlocks - 1 }, some second) := by
    rw [World.removeFullBlock, to_second]
    simp only [to_third]
  generalize moved :
    ({ (w.setNext bag.head (some third)).setNext second none with hand := second :: w.hand }.setBag
    i
        { bag with sizeInBlocks := bag.sizeInBlocks - 1 } : World T) = after at removed
  have data : after.dataOf = w.dataOf := by
    rw [← moved]
    exact (dataOf_setNext _ second none).trans (dataOf_setNext w bag.head (some third))
  have next : after.nexts = Function.update (Function.update w.nexts bag.head (some third)) second
    none := by
    rw [← moved, ← nexts_setNext]
    exact nexts_setNext _ second none
  have held : after.hand = second :: w.hand := by rw [← moved]; rfl
  have mine' : after.bag i = some { bag with sizeInBlocks := bag.sizeInBlocks - 1 } := by
    rw [← moved]
    exact Function.update_self _ _ _
  have unseen : second ∉ w.hand := by
    rw [hand]
    exact fun here => outside second here (by simp)
  refine ⟨after, removed, data, inv.exchange after (Option.some_ne_none i) ?_ ?_ ?_ ⟨?_, ?_, ?_⟩ ?_
    ?_ ?_ ?_ ?_⟩
  · rw [← moved]
    exact Nat.le_refl w.fresh
  · refine List.nodup_append.mpr ⟨?_, ?_, ?_⟩
    · simp only [List.nodup_cons, List.mem_cons, not_or]
      exact ⟨⟨head_third, head_rest⟩, later⟩
    · exact List.nodup_cons.mpr ⟨unseen, hand ▸ nodupHand⟩
    · rintro c here d there rfl
      rcases List.mem_cons.mp there with rfl | there
      · simp only [List.mem_cons] at here
        rcases here with same | same | same
        · exact second_apart same.symm
        · exact second_third same
        · exact second_rest same
      · rw [hand] at there
        refine outside c there ?_
        simp only [List.mem_cons] at here ⊢
        exact here.imp id .inr
  · intro c here
    rw [blocks]
    simp only [List.mem_append, List.mem_cons, hand] at here ⊢
    tauto
  · intro k differ _
    rw [← moved]
    exact Function.update_of_ne (fun same => differ (congrArg some same)) _ _
  · exact fun _ differ => (differ rfl).elim
  · intro c low one other
    rw [blocks] at one
    simp only [List.mem_cons, not_or] at one
    rw [next, data, Function.update_of_ne one.2.1, Function.update_of_ne one.1]
    exact ⟨rfl, rfl⟩
  · refine .of_bag mine' ⟨?_, ?_, ?_, ?_, ?_⟩
    · rw [next]
      refine .cons ?_
      change Chain _ (Function.update (Function.update w.nexts bag.head (some third)) second
        none bag.head) _
      rw [Function.update_of_ne second_apart, Function.update_self]
      refine from_third.congr fun c here => ?_
      have one : c ≠ second := by
        rintro rfl
        rcases List.mem_cons.mp here with same | same
        · exact second_third same
        · exact second_rest same
      have two : c ≠ bag.head := by
        rintro rfl
        rcases List.mem_cons.mp here with same | same
        · exact head_third same
        · exact head_rest same
      rw [Function.update_of_ne one, Function.update_of_ne two]
    · simpa [List.getLast?_cons] using tail
    · simp only [List.length_cons] at size ⊢
      omega
    · rw [data]
      exact ok.head
    · intro c here
      rw [data]
      exact full c (List.mem_cons_of_mem _ here)
  · refine ⟨held, fun c here => ?_⟩
    rw [data, next]
    rcases List.mem_cons.mp here with rfl | here
    · rw [Function.update_self]
      exact ⟨full c (by simp), rfl⟩
    · rw [hand] at here
      have absent := outside c here
      simp only [List.mem_cons, not_or] at absent
      rw [Function.update_of_ne absent.2.1, Function.update_of_ne absent.1]
      exact detached c here
  · rw [data, blocks, Pi.single_eq_same, Pi.single_eq_of_ne (Option.some_ne_none i)]
    simp only [objectsIn_cons]
    abel
  · rw [data, hand, objectsIn_cons, Pi.single_eq_same,
      Pi.single_eq_of_ne (Option.some_ne_none i).symm]
    abel
  · intro k one other
    rw [Pi.single_eq_of_ne one, Pi.single_eq_of_ne other]

/-- A bag of at most two blocks gives none away. -/
theorem Inv.removeFullBlock_none (inv : Inv blockSize w own) (mine : w.bag i = some bag)
    (few : bag.sizeInBlocks < 3) :
    w.removeFullBlock i bag = (w, none) := by
  have ok := inv.bagOk mine
  have chain := ok.chain
  have size := ok.size
  obtain ⟨rest, blocks, behind⟩ := ok.blocks
  rw [blocks, List.length_cons] at size
  cases rest with
  | nil =>
      have last : w.nexts bag.head = none := chain_head behind
      rw [World.removeFullBlock, last]
  | cons second rest =>
      have to_second : w.nexts bag.head = some second := chain_head behind
      rw [to_second] at behind
      cases rest with
      | nil =>
          have last : w.nexts second = none := chain_head (chain_next behind)
          rw [World.removeFullBlock, to_second]
          simp only [last]
      | cons third rest =>
          simp only [List.length_cons] at size
          omega

/-- add with a shared bag, as long as it keeps at least two blocks. -/
theorem Inv.addShared (inv : Inv blockSize w own) (mine : w.bag i = some bag) (obj : T)
    {thresh : Nat} (atLeastTwo : 2 ≤ thresh) :
    ∃ after given own', w.addShared blockSize i bag obj thresh = some (after, given) ∧
      Kept blockSize w own after own' (given.elim 0 fun b => Pi.single (some i) (after.dataOf b))
        (Pi.single (some i) {obj} + given.elim 0 fun b => Pi.single none (after.dataOf b)) := by
  obtain ⟨blocks, grown, mine', added⟩ := inv.add mine obj
  have few : Kept blockSize w own (w.add blockSize i bag obj) (Function.update own (some i) blocks)
    0 (Pi.single (some i) {obj} + 0) := by
    rw [add_zero]
    exact added
  rw [World.addShared]
  by_cases full : (w.dataOf bag.head ++ [obj]).length = blockSize
  · simp only [full, if_true, mine']
    by_cases many : thresh < grown.sizeInBlocks
    · have ok := added.inv.bagOk mine'
      rw [Function.update_self] at ok
      have size := ok.size
      obtain ⟨rest, split, _⟩ := ok.blocks
      rw [split] at size
      cases rest with
      | nil =>
          rw [List.length_singleton] at size
          omega
      | cons second rest =>
          cases rest with
          | nil =>
              simp only [List.length_cons, List.length_nil] at size
              omega
          | cons third rest =>
              obtain ⟨after, removed, data, kept⟩ :=
                added.inv.removeFullBlock mine' ((Function.update_self _ _ _).trans split)
              simp only [many, if_true, removed]
              have whole := added.trans kept
              rw [zero_add, ← data] at whole
              exact ⟨after, some second, _, rfl, whole⟩
    · simp only [many, if_false]
      exact ⟨_, none, _, rfl, few⟩
  · simp only [full, if_false]
    exact ⟨_, none, _, rfl, few⟩

theorem splice_perm (blocks front back : List Addr) (p : Addr) :
    ((blocks ++ back) ++ (front ++ [p])).Perm (blocks ++ (front ++ p :: back)) := by
  rw [List.append_assoc]
  refine List.Perm.append_left blocks ?_
  have whole : front ++ p :: back = (front ++ [p]) ++ back := by simp
  rw [whole]
  exact List.perm_append_comm

/-- The chain behind `p` is put behind `last`, and then cut off from `p`. -/
theorem chain_splice {next : Addr → Option Addr} {one two : Option Addr}
    {start front back : List Addr} {last p : Addr} (mine : Chain next one (start ++ [last]))
    (theirs : Chain next two (front ++ p :: back))
    (nodup : (start ++ [last] ++ (front ++ p :: back)).Nodup) :
    Chain (Function.update next last (next p)) one (start ++ [last] ++ back) ∧
      Chain (Function.update (Function.update next last (next p)) p none) one
        (start ++ [last] ++ back) ∧
      Chain (Function.update (Function.update next last (next p)) p none) two (front ++ [p]) := by
  obtain ⟨distinct, distinct', apart⟩ := List.nodup_append.mp nodup
  have last_apart : last ∉ front ++ p :: back :=
    fun here => apart last (List.mem_append_right _ List.mem_cons_self) last here rfl
  have p_apart : p ∉ start ++ [last] :=
    fun here => apart p here p (List.mem_append_right _ List.mem_cons_self) rfl
  have p_left : p ∉ back := (List.nodup_cons.mp (List.nodup_append.mp distinct').2.1).1
  have joined : Chain (Function.update next last (next p)) one (start ++ [last] ++ back) := by
    have joined := chain_join mine distinct (chain_behind theirs) fun here =>
      last_apart (List.mem_append_right _ (List.mem_cons_of_mem _ here))
    rw [List.append_assoc]
    exact joined
  refine ⟨joined, joined.congr fun c here => Function.update_of_ne ?_ _ _, chain_cut ?_ distinct'⟩
  · rintro rfl
    rcases List.mem_append.mp here with here | here
    · exact p_apart here
    · exact p_left here
  · exact theirs.congr fun c here =>
      Function.update_of_ne (fun same : c = last => last_apart (same ▸ here)) _ _

/-- The list behind a block of another bag goes to the tail. -/
theorem Inv.appendMove (inv : Inv blockSize w own) (mine : w.bag i = some bag) {o : Nat}
    {other : Bag} (theirs : w.bag o = some other) (ne : i ≠ o) {front back : List Addr} {p : Addr}
    (split : own (some o) = front ++ p :: back) :
    ∃ after bag', w.appendMoveFullBlocks i bag o other p = some after ∧ after.dataOf = w.dataOf ∧
      after.bag i = some bag' ∧
      (∃ other', after.bag o = some other' ∧ other'.head = other.head) ∧
      Kept blockSize w own after
        (Function.update (Function.update own (some i) (own (some i) ++ back)) (some o)
        (front ++ [p]))
        (Pi.single (some o) (objectsIn w.dataOf back))
        (Pi.single (some i) (objectsIn w.dataOf back)) := by
  have ok := inv.bagOk mine
  have okOther := inv.bagOk theirs
  have differ : (some i) ≠ (some o) := fun same => ne (Option.some.inj same)
  have chainOther := okOther.chain
  rw [split] at chainOther
  have behind := chain_behind chainOther
  cases back with
  | nil =>
      have last : w.nexts p = none := chain_head behind
      refine ⟨w, bag, by rw [World.appendMoveFullBlocks, last], rfl, mine, ⟨other, theirs, rfl⟩, ?_⟩
      have same : Function.update (Function.update own (some i) (own (some i) ++ [])) (some o)
        (front ++ [p]) = own := by
        rw [List.append_nil, Function.update_eq_self, ← split, Function.update_eq_self]
      rw [same]
      have none_lost : objectsIn w.dataOf [] = 0 := rfl
      rw [none_lost, ← single_zero, ← single_zero]
      exact inv.kept
  | cons first back =>
      have to_first : w.nexts p = some first := chain_head behind
      obtain ⟨start, ends⟩ := List.getLast?_eq_some_iff.mp ok.tail
      have tail_member : bag.tail ∈ own (some i) := List.mem_of_getLast? ok.tail
      have p_member : p ∈ own (some o) := by
        rw [split]
        exact List.mem_append_right _ List.mem_cons_self
      have nodup : (own (some i) ++ own (some o)).Nodup := by
        refine List.nodup_append.mpr ⟨inv.owns.nodup (some i), inv.owns.nodup (some o), ?_⟩
        rintro c here d there rfl
        exact inv.owns.apart (some o) (some i) (Ne.symm differ) c there here
      have below : ∀ b ∈ own (some i) ++ own (some o), b < w.fresh := fun b here => by
        rcases List.mem_append.mp here with here | here
        · exact inv.owns.below _ b here
        · exact inv.owns.below _ b here
      -- every block is in one of the two lists afterwards, as it was before
      have shuffle := splice_perm (own (some i)) front (first :: back) p
      rw [split] at nodup below
      have nodup' := shuffle.nodup_iff.mpr nodup
      have below' (b : Addr) (here : b ∈ own (some i) ++ first :: back ++ (front ++ [p])) :
        b < w.fresh := below b (shuffle.mem_iff.mp here)
      have spliced := chain_splice (ends ▸ ok.chain) chainOther (by rw [← ends]; exact nodup)
      rw [← ends, to_first] at spliced
      obtain ⟨joined, kept_joined, cut⟩ := spliced
      have nodup_joined := (List.nodup_append.mp nodup').1
      have nodup_cut := (List.nodup_append.mp nodup').2.1
      have below_joined : ∀ b ∈ own (some i) ++ first :: back, b < w.fresh :=
        fun b here => below' b (List.mem_append_left _ here)
      have below_cut : ∀ b ∈ front ++ [p], b < w.fresh :=
        fun b here => below' b (List.mem_append_right _ here)
      have sized : (w.setNext bag.tail (some first)).computeSizeInBlocks bag.head =
        some (own (some i) ++ first :: back).length := by
        rw [World.computeSizeInBlocks, nexts_setNext, fresh_setNext,
          walk_chain joined (Nat.lt_succ_of_le (length_le nodup_joined below_joined)),
            Option.map_some]
      generalize longer : (Bag.mk bag.head other.tail (own (some i) ++ first :: back).length) =
        bag' at *
      generalize state : ((w.setNext bag.tail (some first)).setBag i bag').setNext p none = middle
      have middle_next : middle.nexts = Function.update
        (Function.update w.nexts bag.tail (some first)) p none := by
        rw [← state, nexts_setNext, nexts_setBag, nexts_setNext]
      have middle_data : middle.dataOf = w.dataOf := by
        rw [← state, dataOf_setNext, dataOf_setBag, dataOf_setNext]
      have middle_fresh : middle.fresh = w.fresh := by
        rw [← state]
        rfl
      have sized' : middle.computeSizeInBlocks other.head = some (front ++ [p]).length := by
        rw [World.computeSizeInBlocks, middle_next, middle_fresh,
          walk_chain cut (Nat.lt_succ_of_le (length_le nodup_cut below_cut)), Option.map_some]
      have moved : w.appendMoveFullBlocks i bag o other p =
          some (middle.setBag o (Bag.mk other.head p (front ++ [p]).length)) := by
        rw [World.appendMoveFullBlocks, to_first]
        simp only [sized, Option.bind_some, longer, state, sized', Option.map_some]
      have at_i : (middle.setBag o (Bag.mk other.head p (front ++ [p]).length)).bag i =
        some bag' := by
        rw [← state]
        exact (Function.update_of_ne ne _ _).trans (Function.update_self _ _ _)
      have at_o : (middle.setBag o (Bag.mk other.head p (front ++ [p]).length)).bag o =
        some (Bag.mk other.head p (front ++ [p]).length) :=
        Function.update_self _ _ _
      refine ⟨_, bag', moved, middle_data, at_i, ⟨_, at_o, rfl⟩,
        inv.exchange _ differ ?_ ?_ ?_ ⟨?_, ?_, ?_⟩ ?_ ?_ ?_ ?_ ?_⟩
      · rw [fresh_setBag, middle_fresh]
      · exact nodup'
      · intro c here
        rw [split]
        rcases List.mem_append.mp (shuffle.mem_iff.mp here) with here | here
        · exact .inl here
        · exact .inr (.inl here)
      · intro k one two
        rw [← state]
        exact (Function.update_of_ne (fun same => two (congrArg some same)) _ _).trans
          (Function.update_of_ne (fun same => one (congrArg some same)) _ _)
      · intro _ _
        rw [← state]
        rfl
      · intro c low one two
        have not_tail : c ≠ bag.tail := fun same => one (same ▸ tail_member)
        have not_p : c ≠ p := fun same => two (same ▸ p_member)
        rw [nexts_setBag, dataOf_setBag, middle_next, middle_data, Function.update_of_ne not_p,
          Function.update_of_ne not_tail]
        exact ⟨rfl, rfl⟩
      · have tail := okOther.tail
        have full := okOther.full
        rw [split] at tail full
        rw [← longer] at at_i
        refine .of_bag at_i ⟨?_, ?_, rfl, ?_, fun b later => ?_⟩
        · rw [nexts_setBag, middle_next]
          exact kept_joined
        · simpa [List.getLast?_append] using tail
        · rw [dataOf_setBag, middle_data]
          exact ok.head
        · rw [dataOf_setBag, middle_data]
          obtain ⟨rest, blocks, _⟩ := ok.blocks
          have own_full := ok.full
          rw [blocks] at later own_full
          rcases List.mem_append.mp later with here | here
          · exact own_full b here
          · refine full b ?_
            cases front with
            | nil => exact here
            | cons a front => exact List.mem_append_right _ (List.mem_cons_of_mem _ here)
      · refine .of_bag at_o ⟨?_, List.getLast?_concat, rfl, ?_, fun b later => ?_⟩
        · rw [nexts_setBag, middle_next]
          exact cut
        · rw [dataOf_setBag, middle_data]
          exact okOther.head
        · rw [dataOf_setBag, middle_data]
          have full := okOther.full
          rw [split] at full
          refine full b ?_
          cases front with
          | nil => cases later
          | cons a front =>
              simp only [List.cons_append, List.tail_cons, List.mem_append, List.mem_cons,
                List.not_mem_nil, or_false] at later ⊢
              tauto
      · rw [dataOf_setBag, middle_data, objectsIn_append, Pi.single_eq_same,
          Pi.single_eq_of_ne differ, add_zero]
      · rw [dataOf_setBag, middle_data, split, Pi.single_eq_same,
          Pi.single_eq_of_ne (Ne.symm differ), objectsIn_append, objectsIn_append,
          objectsIn_single, objectsIn_cons w.dataOf p, add_zero, add_assoc]
      · intro k one two
        rw [Pi.single_eq_of_ne one, Pi.single_eq_of_ne two]

/-! remove and erase take one object out. -/

theorem pop_count {data : List T} {obj : T} (last : data.getLast? = some obj) :
    ((data.dropLast : List T) : Multiset T) + {obj} = data ∧ data.dropLast.length + 1 =
    data.length := by
  obtain ⟨start, rfl⟩ := List.getLast?_eq_some_iff.mp last
  rw [List.dropLast_concat]
  refine ⟨?_, by simp⟩
  rw [← Multiset.coe_singleton, Multiset.coe_add]

theorem set_count {data : List T} {ix : Nat} (inside : ix < data.length) (obj : T) :
    ((data.set ix obj : List T) : Multiset T) + {data[ix]} = data + {obj} := by
  induction data generalizing ix with
  | nil => cases inside
  | cons first rest ih =>
      cases ix with
      | zero =>
          simp only [List.set_cons_zero,
            List.getElem_cons_zero, ← Multiset.cons_coe, ← Multiset.singleton_add]
          abel
      | succ ix =>
          have kept := ih (Nat.lt_of_succ_lt_succ inside)
          simp only [List.set_cons_succ,
            List.getElem_cons_succ, ← Multiset.cons_coe, ← Multiset.singleton_add, add_assoc, kept]

theorem blockErase_count {data : List T} {ix : Nat} (inside : ix < data.length) :
    ((World.blockErase data ix : List T) : Multiset T) + {data[ix]} = data ∧
    (World.blockErase data ix).length + 1 = data.length := by
  cases last : data.getLast? with
  | none =>
      rw [List.getLast?_eq_none_iff] at last
      rw [last] at inside
      cases inside
  | some obj =>
      by_cases at_end : ix = data.length - 1
      · obtain ⟨count, length⟩ := pop_count last
        have same : data[ix] = obj := by
          rw [List.getLast?_eq_getElem?] at last
          subst at_end
          rw [List.getElem?_eq_getElem inside] at last
          exact Option.some.inj last
        rw [World.blockErase, last]
        simp only [at_end, ne_eq, not_true, if_false]
        simp only [at_end] at same
        rw [same]
        exact ⟨count, length⟩
      · have last' : (data.set ix obj).getLast? = some obj := by
          rw [List.getLast?_eq_getElem?, List.length_set,
            List.getElem?_set_ne at_end, ← List.getLast?_eq_getElem?]
          exact last
        obtain ⟨count, length⟩ := pop_count last'
        rw [World.blockErase, last]
        simp only [ne_eq, at_end, not_false_eq_true, if_true]
        rw [List.length_set] at length
        refine ⟨add_right_cancel (b := {obj}) ?_, length⟩
        rw [add_right_comm, count]
        exact set_count inside obj

theorem replace_count {total total' old new lost gained : Multiset T}
    (change : total' + old = total + new) (same : new + lost = old + gained) :
    total' + lost = total + gained := by
  apply add_right_cancel (b := old)
  calc total' + lost + old
      = total' + old + lost := by abel
    _ = total + (new + lost) := by rw [change, add_assoc]
    _ = total + gained + old := by rw [same]; abel

/-- One object goes out of a bag, perhaps with an empty block in front. -/
theorem Inv.take (inv : Inv blockSize w own) (mine : w.bag i = some bag) (after : World T)
    (dropped : List Addr) {rest : List Addr} {top : Addr}
    (blocks : own (some i) = dropped ++ top :: rest)
    (bags : after.bag = Function.update w.bag i (some ⟨top, bag.tail, rest.length + 1⟩))
    (hand : after.hand = w.hand) (fresh : after.fresh = w.fresh) (next : after.nexts = w.nexts)
    (outside : ∀ b, b ∉ top :: rest → after.dataOf b = w.dataOf b)
    (room : (after.dataOf top).length < blockSize)
    (full : ∀ b ∈ rest, (after.dataOf b).length = blockSize) {obj : T}
    (count : objectsIn after.dataOf (top :: rest) + {obj} = objectsIn w.dataOf (own (some i))) :
    Kept blockSize w own after (Function.update own (some i) (top :: rest))
      (Pi.single (some i) {obj}) 0 := by
  have ok := inv.bagOk mine
  have nodup := inv.owns.nodup (some i)
  have chain := ok.chain
  have tail := ok.tail
  rw [blocks] at nodup chain tail
  have stays (b : Addr) (here : b ∈ top :: rest) : b ∈ own (some i) := by
    rw [blocks]
    exact List.mem_append_right _ here
  rw [single_zero (some i)]
  refine inv.change after i fresh.ge (List.nodup_append.mp nodup).2.1
    (fun b here => .inl (stays b here)) ?_ hand ?_ ?_ ?_
  · intro k differ
    rw [bags, Function.update_of_ne differ]
  · intro b _ absent
    rw [next, outside b fun here => absent (stays b here)]
    exact ⟨rfl, rfl⟩
  · have mine' : after.bag i = some ⟨top, bag.tail, rest.length + 1⟩ := by
      rw [bags, Function.update_self]
    refine .of_bag mine' ⟨?_, ?_, rfl, room, full⟩
    · rw [next]
      exact .cons (chain_behind chain)
    · simpa [List.getLast?_append] using tail
  · rw [count, add_zero]

theorem Inv.remove_top (inv : Inv blockSize w own) (mine : w.bag i = some bag) {obj : T}
    (last : (w.dataOf bag.head).getLast? = some obj) :
    w.remove i bag = some (w.setData bag.head (w.dataOf bag.head).dropLast, obj) ∧
      Kept blockSize w own (w.setData bag.head (w.dataOf bag.head).dropLast) own
        (Pi.single (some i) {obj}) 0 := by
  have ok := inv.bagOk mine
  have nodup := inv.owns.nodup (some i)
  obtain ⟨rest, blocks, _⟩ := ok.blocks
  obtain ⟨count, length⟩ := pop_count last
  have room := ok.head
  have full := ok.full
  have member : bag.head ∈ own (some i) := by
    rw [blocks]
    exact List.mem_cons_self
  have change := objectsIn_change w.dataOf nodup member (w.dataOf bag.head).dropLast
  refine ⟨by rw [World.remove, last], ?_⟩
  have same : Function.update own (some i) (bag.head :: rest) = own := by
    rw [← blocks, Function.update_eq_self]
  have bag_eq : (⟨bag.head, bag.tail, rest.length + 1⟩ : Bag) = bag := by
    rw [← @List.length_cons Addr bag.head, ← blocks, ← ok.size]
  have kept := @Inv.take T blockSize w own i bag inv mine
    (w.setData bag.head (w.dataOf bag.head).dropLast) [] rest bag.head
    blocks ?_ rfl rfl (nexts_setData _ _ _) ?_ ?_ ?_ obj ?_
  · rw [same] at kept
    exact kept
  · rw [bag_eq, ← mine, Function.update_eq_self]
    rfl
  · intro b absent
    rw [dataOf_setData, Function.update_of_ne fun here : b = _ => absent
      (here ▸ List.mem_cons_self)]
  · rw [dataOf_setData, Function.update_self]
    omega
  · intro b here
    rw [blocks] at nodup full
    rw [dataOf_setData, Function.update_of_ne]
    · exact full b here
    · rintro rfl
      exact (List.nodup_cons.mp nodup).1 here
  · rw [dataOf_setData, ← blocks]
    exact (replace_count change (count.trans (add_zero _).symm)).trans (add_zero _)

theorem isEmpty_of_head (empty : w.dataOf bag.head = []) (nonempty : ¬ w.isEmpty bag) :
    ∃ second, w.nexts bag.head = some second := by
  cases behind : w.nexts bag.head with
  | none => exact absurd ⟨behind, empty⟩ nonempty
  | some second => exact ⟨second, rfl⟩

/-- With an empty head the second block is the next head. -/
theorem Inv.second (inv : Inv blockSize w own) (mine : w.bag i = some bag) {second : Addr}
    (behind : w.nexts bag.head = some second) :
    ∃ rest, own (some i) = [bag.head] ++ second :: rest ∧ (w.dataOf second).length = blockSize ∧
      (∀ b ∈ rest, (w.dataOf b).length = blockSize) ∧ bag.sizeInBlocks - 1 = rest.length + 1 ∧
      (second :: rest).Nodup ∧
      bag.head ∉ second :: rest := by
  have ok := inv.bagOk mine
  have nodup := inv.owns.nodup (some i)
  have full := ok.full
  have size := ok.size
  obtain ⟨later, blocks, chain⟩ := ok.blocks
  rw [behind] at chain
  obtain ⟨rest, rfl, _⟩ := chain.some
  rw [blocks] at nodup full size
  refine ⟨rest, blocks, full second List.mem_cons_self,
    fun b here => full b (List.mem_cons_of_mem _ here), ?_,
    (List.nodup_cons.mp nodup).2, (List.nodup_cons.mp nodup).1⟩
  simp only [List.length_cons] at size
  omega

theorem Inv.remove (inv : Inv blockSize w own) (mine : w.bag i = some bag)
    (nonempty : ¬ w.isEmpty bag) :
    ∃ after obj own', w.remove i bag = some (after, obj) ∧ Kept blockSize w own after own'
      (Pi.single (some i) {obj}) 0 := by
  have positive : 0 < blockSize := (Nat.zero_le _).trans_lt (inv.bagOk mine).head
  cases last : (w.dataOf bag.head).getLast? with
  | some obj =>
      obtain ⟨removed, kept⟩ := inv.remove_top mine last
      exact ⟨_, obj, own, removed, kept⟩
  | none =>
      have empty := List.getLast?_eq_none_iff.mp last
      obtain ⟨second, behind⟩ := isEmpty_of_head empty nonempty
      obtain ⟨rest, blocks, length, full, size, nodup, _⟩ := inv.second mine behind
      cases last' : (w.dataOf second).getLast? with
      | none =>
          rw [List.getLast?_eq_none_iff.mp last'] at length
          exact absurd length.symm positive.ne'
      | some obj =>
          obtain ⟨count, shorter⟩ := pop_count last'
          have change := objectsIn_change w.dataOf nodup List.mem_cons_self
            (w.dataOf second).dropLast
          have removed : w.remove i bag =
            some ((w.setData second (w.dataOf second).dropLast).setBag i
              { bag with head := second, sizeInBlocks := bag.sizeInBlocks - 1 }, obj) := by
            rw [World.remove, last, behind]
            simp only [last']
          refine ⟨_, obj, _, removed, inv.take mine _ [bag.head] blocks ?_ ?_ ?_ ?_ ?_ ?_ ?_ ?_⟩
          · rw [← size]
            rfl
          · rfl
          · rfl
          · rw [nexts_setBag, nexts_setData]
          · intro b absent
            rw [dataOf_setBag, dataOf_setData, Function.update_of_ne fun here : b = _ => absent
              (here ▸ List.mem_cons_self)]
          · rw [dataOf_setBag, dataOf_setData, Function.update_self]
            omega
          · intro b here
            rw [dataOf_setBag, dataOf_setData, Function.update_of_ne]
            · exact full b here
            · rintro rfl
              exact (List.nodup_cons.mp nodup).1 here
          · rw [dataOf_setBag, dataOf_setData, blocks, objectsIn_append, objectsIn_single, empty]
            have left := replace_count change (count.trans (add_zero _).symm)
            rw [left, add_zero]
            exact (zero_add _).symm

theorem eraseFrom_spec (blockSize : Nat) {top curr : Addr} {rest : List Addr} {ix : Nat}
    (nodup : (top :: rest).Nodup) (member : curr ∈ top :: rest)
    (inside : ix < (w.dataOf curr).length) (filled : w.dataOf top ≠ [])
    (full : ∀ b ∈ rest, (w.dataOf b).length = blockSize) :
    ∃ after, w.eraseFrom top curr ix = some after ∧ after.bag = w.bag ∧ after.hand = w.hand ∧
      after.fresh = w.fresh ∧
      after.nexts = w.nexts ∧ (∀ b, b ∉ top :: rest → after.dataOf b = w.dataOf b) ∧
      (after.dataOf top).length + 1 = (w.dataOf top).length ∧
      (∀ b ∈ rest, (after.dataOf b).length = blockSize) ∧
      objectsIn after.dataOf (top :: rest) + {(w.dataOf curr)[ix]} = objectsIn w.dataOf
        (top :: rest) := by
  have top_rest := (List.nodup_cons.mp nodup).1
  by_cases here : curr = top
  · subst here
    obtain ⟨count, shorter⟩ := blockErase_count inside
    have change := objectsIn_change w.dataOf nodup member (World.blockErase (w.dataOf curr) ix)
    refine ⟨_, if_pos rfl, rfl, rfl, rfl, nexts_setData _ _ _, ?_, ?_, ?_, ?_⟩
    · intro b absent
      rw [dataOf_setData, Function.update_of_ne fun here : b = _ => absent
        (here ▸ List.mem_cons_self)]
    · rw [dataOf_setData, Function.update_self]
      exact shorter
    · intro b later
      rw [dataOf_setData, Function.update_of_ne fun same : b = curr => top_rest (same ▸ later)]
      exact full b later
    · rw [dataOf_setData]
      exact (replace_count change (count.trans (add_zero _).symm)).trans (add_zero _)
  · obtain ⟨obj, last⟩ : ∃ obj, (w.dataOf top).getLast? = some obj :=
      ⟨_, List.getLast?_eq_some_getLast filled⟩
    obtain ⟨count, shorter⟩ := pop_count last
    have later : curr ∈ rest := (List.mem_cons.mp member).resolve_left here
    have popped := objectsIn_change w.dataOf nodup List.mem_cons_self (w.dataOf top).dropLast
    have replaced := objectsIn_change (Function.update w.dataOf top (w.dataOf top).dropLast) nodup
      member ((w.dataOf curr).set ix obj)
    rw [Function.update_of_ne here] at replaced
    have erased : w.eraseFrom top curr ix =
        some ((w.setData top (w.dataOf top).dropLast).setData curr
          ((w.dataOf curr).set ix obj)) := by
      rw [World.eraseFrom, if_neg here, last]
    refine ⟨_, erased, rfl, rfl, rfl, ?_, ?_, ?_, ?_, ?_⟩
    · rw [nexts_setData, nexts_setData]
    · intro b absent
      simp only [List.mem_cons, not_or] at absent
      rw [dataOf_setData, dataOf_setData, Function.update_of_ne fun same : b = curr => absent.2
        (same ▸ later),
        Function.update_of_ne absent.1]
    · rw [dataOf_setData, dataOf_setData, Function.update_of_ne (Ne.symm here),
        Function.update_self]
      exact shorter
    · intro b there
      rw [dataOf_setData, dataOf_setData]
      by_cases same : b = curr
      · rw [same, Function.update_self, List.length_set]
        exact full curr later
      · rw [Function.update_of_ne same, Function.update_of_ne fun same : b = top => top_rest
          (same ▸ there)]
        exact full b there
    · rw [dataOf_setData, dataOf_setData, replace_count replaced (set_count inside obj)]
      exact (replace_count popped (count.trans (add_zero _).symm)).trans (add_zero _)

theorem Inv.erase (inv : Inv blockSize w own) (mine : w.bag i = some bag) {curr : Addr} {ix : Nat}
    (member : curr ∈ own (some i)) (inside : ix < (w.dataOf curr).length) :
    ∃ after own', w.erase i bag curr ix = some after ∧
      Kept blockSize w own after own' (Pi.single (some i) {(w.dataOf curr)[ix]}) 0 := by
  have ok := inv.bagOk mine
  have nodup := inv.owns.nodup (some i)
  have full := ok.full
  have size := ok.size
  have room := ok.head
  obtain ⟨rest, blocks, chain⟩ := ok.blocks
  rw [blocks] at member nodup full size
  by_cases empty : w.dataOf bag.head = []
  · have apart : curr ≠ bag.head := by
      rintro rfl
      rw [empty] at inside
      cases inside
    have later : curr ∈ rest := (List.mem_cons.mp member).resolve_left apart
    obtain ⟨second, behind⟩ : ∃ second, w.nexts bag.head = some second := by
      cases rest with
      | nil => cases later
      | cons second rest => exact ⟨second, chain_head chain⟩
    obtain ⟨rest', blocks', length, full', size', nodup', _⟩ := inv.second mine behind
    obtain rfl : rest = second :: rest' := by
      rw [blocks] at blocks'
      exact (List.cons.inj blocks').2
    have filled : w.dataOf second ≠ [] := by
      intro none
      rw [none] at length
      rw [← length] at room
      cases room
    obtain ⟨after, erased, bags, hand, fresh, next, outside, shorter, kept, count⟩ :=
      @eraseFrom_spec T (w.setBag i
        { bag with head := second, sizeInBlocks := bag.sizeInBlocks - 1 }) blockSize second curr
        rest' ix
        nodup' later inside filled full'
    have started : w.erase i bag curr ix =
        (w.setBag i { bag with head := second, sizeInBlocks := bag.sizeInBlocks - 1 }).eraseFrom
        second curr ix := by
      rw [World.erase, empty]
      simp only [behind]
    refine ⟨after, _, started.trans erased, inv.take mine after [bag.head] blocks' ?_ hand fresh
      next outside ?_ kept ?_⟩
    · rw [bags, ← size']
      rfl
    · rw [dataOf_setBag] at shorter
      omega
    · rw [blocks', objectsIn_append, objectsIn_single, empty]
      exact count.trans (zero_add _).symm
  · obtain ⟨after, erased, bags, hand, fresh, next, outside, shorter, kept, count⟩ :=
      eraseFrom_spec blockSize nodup member inside empty full
    have started : w.erase i bag curr ix = w.eraseFrom bag.head curr ix := by
      rw [World.erase]
      split
      · exact absurd ‹_› empty
      · rfl
    refine ⟨after, _, started.trans erased, inv.take mine after [] blocks ?_ hand fresh next outside
      ?_ kept ?_⟩
    · rw [List.length_cons] at size
      rw [bags, ← size, ← mine, Function.update_eq_self]
    · omega
    · rw [blocks]
      exact count

/-! appendMoveAll adds the objects of the other head one by one. -/

theorem add_bag {obj : T} {k : Nat} (apart : k ≠ i) :
    (w.add blockSize i bag obj).bag k = w.bag k := by
  simp only [World.add]
  split
  · exact Function.update_of_ne apart _ _
  · rfl

theorem add_dataOf {obj : T} {b : Addr} (one : b ≠ bag.head) (other : b ≠ w.fresh) :
    (w.add blockSize i bag obj).dataOf b = w.dataOf b := by
  simp only [World.add]
  split
  · simp [Function.update_of_ne one, Function.update_of_ne other]
  · simp [Function.update_of_ne one]

theorem Inv.drain [DecidableEq T] {o : Nat} {other : Bag} (ne : i ≠ o) {fuel : Nat}
    (inv : Inv blockSize w own) (mine : w.bag i = some bag) (theirs : w.bag o = some other)
    (single : own (some o) = [other.head]) (enough : (w.dataOf other.head).length < fuel) :
    ∃ after own' bag', World.drain blockSize i o fuel w = some after ∧ after.bag i = some bag' ∧
      Kept blockSize w own after own' (Pi.single (some o) (w.dataOf other.head))
        (Pi.single (some i) (w.dataOf other.head)) := by
  induction fuel generalizing w own bag with
  | zero => cases enough
  | succ fuel ih =>
      have chain := (inv.bagOk theirs).chain
      rw [single] at chain
      have last_block : w.nexts other.head = none := chain_head (chain_next chain)
      rw [World.drain, theirs]
      cases last : (w.dataOf other.head).getLast? with
      | none =>
          have empty := List.getLast?_eq_none_iff.mp last
          have done : w.isEmpty other := ⟨last_block, empty⟩
          refine ⟨w, own, bag, if_pos done, mine, ?_⟩
          rw [empty, Multiset.coe_nil, ← single_zero, ← single_zero]
          exact inv.kept
      | some obj =>
          obtain ⟨removed, popped⟩ := inv.remove_top theirs last
          obtain ⟨count, shorter⟩ := pop_count last
          have more : ¬ w.isEmpty other := by
            rintro ⟨_, empty⟩
            rw [empty] at last
            cases last
          generalize middle_eq : w.setData other.head (w.dataOf other.head).dropLast =
            middle at removed popped
          have mine' : middle.bag i = some bag := by
            rw [← middle_eq]
            exact mine
          have theirs' : middle.bag o = some other := by
            rw [← middle_eq]
            exact theirs
          have data : middle.dataOf other.head = (w.dataOf other.head).dropLast := by
            rw [← middle_eq, dataOf_setData, Function.update_self]
          obtain ⟨blocks, grown, enlarged, added⟩ := popped.inv.add mine' obj
          have held : other.head ∈ own (some o) := by
            rw [single]
            exact List.mem_singleton.mpr rfl
          have differ : (some o) ≠ (some i) := fun same => ne (Option.some.inj same).symm
          have apart : other.head ≠ bag.head := by
            intro same
            obtain ⟨rest, split, _⟩ := (inv.bagOk mine).blocks
            refine inv.owns.apart (some o) (some i) differ _ held ?_
            rw [split, same]
            exact List.mem_cons_self
          have old : other.head ≠ middle.fresh := by
            have low := inv.owns.below (some o) _ held
            rw [← middle_eq]
            exact Nat.ne_of_lt low
          have kept_data : (middle.add blockSize i bag obj).dataOf other.head =
            (w.dataOf other.head).dropLast :=
            (add_dataOf apart old).trans data
          obtain ⟨after, own', bag', drained, ours, rest⟩ :=
            ih added.inv enlarged ((add_bag ne.symm).trans theirs')
            ((Function.update_of_ne differ _ _).trans single) (by rw [kept_data]; omega)
          refine ⟨after, own', bag', ?_, ours, ?_⟩
          · simp only [if_neg more, removed, Option.bind_some, mine']
            exact drained
          · have whole := (popped.trans added).trans rest
            have sum : ({obj} : Multiset T) + ((w.dataOf other.head).dropLast : List T) =
              (w.dataOf other.head : List T) :=
              (add_comm _ _).trans count
            rw [kept_data, add_zero, zero_add, ← Pi.single_add, ← Pi.single_add, sum] at whole
            exact whole

theorem Inv.appendMoveAll [DecidableEq T] (inv : Inv blockSize w own) (mine : w.bag i = some bag)
    {o : Nat} {other : Bag} (theirs : w.bag o = some other) (ne : i ≠ o) :
    ∃ after own', w.appendMoveAll blockSize i bag o other = some after ∧
      Kept blockSize w own after own' (Pi.single (some o) (objectsIn w.dataOf (own (some o))))
        (Pi.single (some i) (objectsIn w.dataOf (own (some o)))) := by
  have room := (inv.bagOk theirs).head
  obtain ⟨rest, blocks, _⟩ := (inv.bagOk theirs).blocks
  obtain ⟨middle, bag', appended, data, mine', ⟨other', theirs', head⟩, moved⟩ :=
    @Inv.appendMove T blockSize w own i bag inv mine o other theirs ne [] rest _ blocks
  rw [← head] at room
  obtain ⟨after, own', final, drained, ours, added⟩ := moved.inv.drain ne mine' theirs'
    (by rw [Function.update_self, List.nil_append, head])
    (show (middle.dataOf other'.head).length < blockSize + 1 by rw [data]; omega)
  have ok := added.inv.bagOk ours
  have walked := ok.walk (added.inv.owns.nodup _) (added.inv.owns.below _)
  have same : after.setBag i { final with sizeInBlocks := (own' (some i)).length } = after := by
    rw [← ok.size, World.setBag, ← ours, Function.update_eq_self]
  refine ⟨after, own', ?_, ?_⟩
  · rw [World.appendMoveAll, appended, Option.bind_some, drained, Option.bind_some]
    simp only [ours, World.computeSizeInBlocks, walked, Option.map_some, same]
  · have whole := moved.trans added
    rw [← Pi.single_add, ← Pi.single_add, data, head,
      add_comm (objectsIn w.dataOf rest), ← objectsIn_cons, ← blocks] at whole
    exact whole

theorem clearRest_spec {next : Option Addr} {rest : List Addr} (chain : Chain w.nexts next rest)
    {fuel : Nat} (enough : rest.length < fuel) :
    ∃ after, World.clearRest fuel w next = some after ∧ after.bag = w.bag ∧ after.hand = w.hand ∧
      after.fresh = w.fresh ∧
      after.nexts = w.nexts ∧ ∀ b, b ∉ rest → after.dataOf b = w.dataOf b := by
  induction rest generalizing w next fuel with
  | nil =>
      cases chain
      cases fuel with
      | zero => cases enough
      | succ fuel => exact ⟨w, rfl, rfl, rfl, rfl, rfl, fun _ _ => rfl⟩
  | cons a rest ih =>
      cases chain with
      | cons tail =>
          cases fuel with
          | zero => cases enough
          | succ fuel =>
              rw [← nexts_setData w a []] at tail
              obtain ⟨after, cleared, bags, hand, fresh, next, data⟩ :=
                ih tail (Nat.lt_of_succ_lt_succ enough)
              rw [nexts_setData] at cleared next
              refine ⟨after, cleared, bags, hand, fresh, next, fun b absent => ?_⟩
              simp only [List.mem_cons, not_or] at absent
              rw [data b absent.2, dataOf_setData, Function.update_of_ne absent.1]

theorem Inv.clear (inv : Inv blockSize w own) (mine : w.bag i = some bag) :
    ∃ after own', w.clearWithoutFreeingElements i bag = some after ∧
      Kept blockSize w own after own' (Pi.single (some i) (objectsIn w.dataOf (own (some i))))
        0 := by
  have ok := inv.bagOk mine
  have positive : 0 < blockSize := (Nat.zero_le _).trans_lt ok.head
  have nodup := inv.owns.nodup (some i)
  have short := length_le nodup (inv.owns.below (some i))
  obtain ⟨rest, blocks, chain⟩ := ok.blocks
  rw [blocks] at nodup short
  obtain ⟨cleared, loop, bags, hand, fresh, next, data⟩ :=
    clearRest_spec chain (show rest.length < w.fresh + 1 by
    rw [List.length_cons] at short
    omega)
  have member : bag.head ∈ own (some i) := by
    rw [blocks]
    exact List.mem_cons_self
  refine ⟨((cleared.setNext bag.head none).setData bag.head []).setBag i ⟨bag.head, bag.head, 1⟩,
    Function.update own (some i) [bag.head], by
      rw [World.clearWithoutFreeingElements, loop, Option.map_some], ?_⟩
  rw [single_zero (some i)]
  refine inv.change _ i ?_ (List.nodup_singleton _) ?_ ?_ ?_ ?_ ?_ ?_
  · exact fresh.ge
  · intro b here
    exact .inl (List.mem_singleton.mp here ▸ member)
  · intro k differ
    exact (Function.update_of_ne differ _ _).trans (congrFun bags k)
  · exact hand
  · intro b _ absent
    have apart : b ≠ bag.head := fun same => absent (same ▸ member)
    have outside : b ∉ rest :=
      fun here => absent (by rw [blocks]; exact List.mem_cons_of_mem _ here)
    rw [nexts_setBag, nexts_setData, nexts_setNext, dataOf_setBag, dataOf_setData, dataOf_setNext,
      Function.update_of_ne apart,
      Function.update_of_ne apart, next, data b outside]
    exact ⟨rfl, rfl⟩
  · refine .of_bag (Function.update_self _ _ _) ⟨.cons ?_, rfl, rfl, ?_,
      fun b later => by cases later⟩
    · rw [nexts_setBag, nexts_setData, nexts_setNext]
      change Chain _ (Function.update cleared.nexts bag.head none bag.head) []
      rw [Function.update_self]
      exact .nil
    · rw [dataOf_setBag, dataOf_setData, Function.update_self]
      exact positive
  · rw [dataOf_setBag, dataOf_setData, objectsIn_single, Function.update_self, add_zero]
    exact zero_add _

/-- A new bag has one empty block. -/
theorem Inv.create (inv : Inv blockSize w own) (absent : w.bag i = none)
    (positive : 0 < blockSize) :
    Kept blockSize w own (w.create i) (Function.update own (some i) [w.fresh]) 0 0 := by
  have holds := inv.holds (some i)
  rw [Holds, absent] at holds
  rw [single_zero (some i)]
  refine inv.change _ i ?_ (List.nodup_singleton _) ?_ ?_ ?_ ?_ ?_ ?_
  · exact Nat.le_succ w.fresh
  · intro b here
    obtain rfl := List.mem_singleton.mp here
    exact .inr ⟨Nat.le_refl _, Nat.lt_succ_self _⟩
  · exact fun k differ => Function.update_of_ne differ _ _
  · rfl
  · intro b low _
    rw [World.create, nexts_setBag, dataOf_setBag, nexts_allocate, dataOf_allocate,
      Function.update_of_ne (Nat.ne_of_lt low),
      Function.update_of_ne (Nat.ne_of_lt low)]
    exact ⟨rfl, rfl⟩
  · refine .of_bag (Function.update_self _ _ _) ⟨.cons ?_, rfl, rfl, ?_,
      fun b later => by cases later⟩
    · rw [World.create, nexts_setBag, nexts_allocate]
      change Chain _ (Function.update w.nexts w.fresh none w.fresh) []
      rw [Function.update_self]
      exact .nil
    · rw [World.create, dataOf_setBag, dataOf_allocate, Function.update_self]
      exact positive
  · rw [World.create, dataOf_setBag, dataOf_allocate, objectsIn_single, Function.update_self, holds]
    rfl

end Operations

end SetBench.BagMoves
