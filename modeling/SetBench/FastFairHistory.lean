import Mathlib
import SetBench.FastFairChains

/-! Runs of operations on the leaves, seen from a parent that is older than their splits: it sends
a search to a leaf before the one where its key now is. -/
namespace SetBench.FastFair

variable {chain : Chain} {later : List Chain} {map : Nat → Nat} {key low : Nat}

/-- The chains of a run, from before its first operation to after its last. -/
def history : List Op → Chain → List Chain
  | [], chain => [chain]
  | op :: ops, chain => chain :: op.chains chain ++ history ops (op.after chain)

def maps : List Op → (Nat → Nat) → List (Nat → Nat)
  | [], map => [map]
  | op :: ops, map => map :: maps ops (op.meaning map)

def AllFresh : List Op → (Nat → Nat) → Prop
  | [], _ => True
  | op :: ops, map => op.Fresh map ∧ AllFresh ops (op.meaning map)

theorem history_starts (ops : List Op) (chain : Chain) :
    ∃ later, history ops chain = chain :: later := by
  cases ops <;> exact ⟨_, rfl⟩

theorem maps_head (ops : List Op) (map : Nat → Nat) : map ∈ maps ops map := by
  cases ops <;> exact List.mem_cons_self

theorem ChainOk.history (ops : List Op) :
    ∀ {chain : Chain}, ChainOk 0 chain → AllFresh ops (search chain) →
    (∀ c ∈ history ops chain, (Along c ∧ Ascending c) ∧ ∃ m ∈ maps ops (search chain), Gives m c) ∧
    (history ops chain).IsChain Grows := by
  induction ops with
  | nil =>
      intro chain ok _
      refine ⟨fun c member => ?_, List.isChain_singleton _⟩
      cases List.mem_singleton.mp member
      exact ⟨⟨ok.along, ok.ascending⟩, search chain, List.mem_cons_self, fun _ => rfl⟩
  | cons op ops ih =>
      intro chain ok fresh
      obtain ⟨turn, same, after, walk⟩ := ok.step op fresh.1
      obtain ⟨all, grows⟩ := ih after (same ▸ fresh.2)
      rw [same] at all
      constructor
      · intro c member
        rcases List.mem_append.mp member with early | late
        · rcases List.mem_cons.mp early with rfl | stored
          · exact ⟨⟨ok.along, ok.ascending⟩, search c, List.mem_cons_self, fun _ => rfl⟩
          · refine ⟨⟨walk.along c stored, walk.ascending c stored⟩, ?_⟩
            rcases turn.seen c stored with old | new
            · exact ⟨_, List.mem_cons_self, old⟩
            · exact ⟨_, List.mem_cons_of_mem _ (maps_head ops _), new⟩
        · obtain ⟨good, m, inside, gives⟩ := all c late
          exact ⟨good, m, List.mem_cons_of_mem _ inside, gives⟩
      · refine List.isChain_append.mpr ⟨walk.grows, grows, fun c last d first => ?_⟩
        obtain ⟨_, starts⟩ := history_starts ops (op.after chain)
        rw [starts] at first
        cases first
        rw [List.getLast?_cons] at last
        cases last
        rw [Op.after, List.getLastD_eq_getLast?]
        exact .of_lows rfl

end SetBench.FastFair
