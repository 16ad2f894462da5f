import SetBench.Probing

/-! Probing by sums of squares. The places hash + 1 + 4 + ... + j * j modulo a power of two come to
every cell, since a whole period of the smaller power changes exactly the next bit. -/
namespace Probing

def squares : Nat → Nat
  | 0 => 0
  | j + 1 => squares j + (j + 1) * (j + 1)

theorem squares_add (j count : Nat) :
    squares (j + count) = squares j + count * (j * j) + j * (count * (count + 1)) + squares
      count := by
  induction count with
  | zero => simp [squares]
  | succ count ih =>
      rw [← Nat.add_assoc, squares, ih, squares]
      ring

-- Over 2^(bits+1) steps the sum moves by 2^bits, modulo 2^(bits+1).
theorem squares_period (bits : Nat) : squares (2 ^ (bits + 1)) % 2 ^ (bits + 1) = 2 ^ bits := by
  induction bits with
  | zero => rfl
  | succ bits ih =>
      have split := Nat.div_add_mod (squares (2 ^ (bits + 1))) (2 ^ (bits + 1))
      rw [ih] at split
      generalize squares (2 ^ (bits + 1)) / 2 ^ (bits + 1) = quotient at split
      have doubled : squares (2 ^ (bits + 2)) =
          2 ^ (bits + 1) + 2 ^ (bits + 2) * (quotient + 2 ^ (bits + 1) * 2 ^ (bits + 1) + 2 ^
            bits) := by
        rw [show 2 ^ (bits + 2) = 2 ^ (bits + 1) + 2 ^ (bits + 1) by ring, squares_add, ← split]
        ring
      rw [show bits + 1 + 1 = bits + 2 from rfl, doubled, Nat.add_mul_mod_self_left,
        Nat.mod_eq_of_lt]
      exact Nat.pow_lt_pow_right (by decide) (Nat.lt_succ_self _)

theorem squares_shift (bits j : Nat) :
    squares (j + 2 ^ (bits + 1)) % 2 ^ (bits + 1) = (squares j + 2 ^ bits) % 2 ^ (bits + 1) := by
  rw [squares_add]
  have gathered : squares j + 2 ^
    (bits + 1) * (j * j) + j * (2 ^ (bits + 1) * (2 ^ (bits + 1) + 1)) + squares (2 ^ (bits + 1)) =
      squares j + squares (2 ^ (bits + 1)) + 2 ^
        (bits + 1) * (j * j + j * (2 ^ (bits + 1) + 1)) := by
    ring
  rw [gathered, Nat.add_mul_mod_self_left, ← Nat.add_mod_mod, squares_period]

/-- Twice as many steps as cells come to every residue. -/
theorem squares_cover (bits residue : Nat) :
    ∃ j < 2 ^ (bits + 1), squares j % 2 ^ bits = residue % 2 ^ bits := by
  induction bits with
  | zero => exact ⟨0, by decide, by rw [pow_zero, Nat.mod_one, Nat.mod_one]⟩
  | succ bits ih =>
      obtain ⟨j, below, same⟩ := ih
      have power : 2 ^ (bits + 1) = 2 * 2 ^ bits := by ring
      have pos := Nat.two_pow_pos bits
      have longer : 2 ^ (bits + 1 + 1) = 2 * 2 ^ (bits + 1) := by ring
      have top (number : Nat) : number % 2 ^ (bits + 1) = number % 2 ^ bits ∨
        number % 2 ^ (bits + 1) = number % 2 ^ bits + 2 ^ bits := by
        have low := Nat.mod_mod_of_dvd number (show 2 ^ bits ∣ 2 ^ (bits + 1) from ⟨2, by ring⟩)
        have bound := Nat.mod_lt number (show 0 < 2 ^ (bits + 1) from Nat.two_pow_pos _)
        rw [power] at bound low ⊢
        by_cases small : number % (2 * 2 ^ bits) < 2 ^ bits
        · rw [Nat.mod_eq_of_lt small] at low
          exact .inl low
        · right
          have rest : number % (2 * 2 ^ bits) % 2 ^ bits = number % (2 * 2 ^ bits) - 2 ^ bits := by
            rw [Nat.mod_eq_sub_mod (by omega), Nat.mod_eq_of_lt (by omega)]
          omega
      by_cases done : squares j % 2 ^ (bits + 1) = residue % 2 ^ (bits + 1)
      · exact ⟨j, by omega, done⟩
      · refine ⟨j + 2 ^ (bits + 1), by omega, ?_⟩
        rw [squares_shift]
        have here := top (squares j)
        have there := top residue
        have less := Nat.mod_lt (squares j) pos
        have less' := Nat.mod_lt residue pos
        rw [← Nat.mod_add_mod]
        rcases here with here | here <;> rcases there with there | there
        · omega
        · rw [here, there, same, Nat.mod_eq_of_lt (by omega)]
        · rw [here, there, same, Nat.add_assoc, ← two_mul, ← power, Nat.add_mod_right,
            Nat.mod_eq_of_lt (by omega)]
        · omega

def squareProbe (bits hash j : Nat) : Nat := (hash + squares j) % 2 ^ bits

theorem squareProbe_lt (bits hash j : Nat) : squareProbe bits hash j < 2 ^ bits :=
  Nat.mod_lt _ (Nat.two_pow_pos bits)

theorem squareProbe_covers {bits place : Nat} (hash : Nat) (inside : place < 2 ^ bits) :
    ∃ j < 2 ^ (bits + 1), squareProbe bits hash j = place := by
  obtain ⟨j, below, same⟩ := squares_cover bits (place + (2 ^ bits - hash % 2 ^ bits))
  refine ⟨j, below, ?_⟩
  have less := Nat.mod_lt hash (Nat.two_pow_pos bits)
  rw [squareProbe, ← Nat.add_mod_mod, same, Nat.add_mod_mod, ← Nat.mod_add_mod,
    show hash % 2 ^ bits + (place + (2 ^ bits - hash % 2 ^ bits)) = place + 2 ^ bits by omega,
    Nat.add_mod_right, Nat.mod_eq_of_lt inside]

theorem squareProbe_succ (bits hash j : Nat) :
    squareProbe bits hash (j + 1) = (squareProbe bits hash j + (j + 1) * (j + 1)) % 2 ^ bits := by
  rw [squareProbe, squareProbe, squares, Nat.mod_add_mod, Nat.add_assoc]

/-! Loops with fuel that end. -/

section Eventually

universe u v
variable {α : Type u} {β : Type v}

/-- From some fuel on the loop gives `result`. -/
def Eventually (loop : Nat → Option α) (result : α) : Prop :=
  ∃ least, ∀ fuel, least ≤ fuel → loop fuel = some result

theorem Eventually.always {loop : Nat → Option α} {result : α}
    (same : ∀ fuel, loop fuel = some result) : Eventually loop result :=
  ⟨0, fun fuel _ => same fuel⟩

theorem Eventually.bind {loop : Nat → Option α} (next : Nat → α → Option β) {middle : α}
    {result : β} (first : Eventually loop middle)
    (second : Eventually (fun fuel => next fuel middle) result) :
    Eventually (fun fuel => (loop fuel).bind (next fuel)) result := by
  obtain ⟨least, first⟩ := first
  obtain ⟨least', second⟩ := second
  refine ⟨max least least', fun fuel enough => ?_⟩
  simp only [first fuel (by omega), Option.bind_some]
  exact second fuel (by omega)

theorem Eventually.map {loop : Nat → Option α} {middle : α} (first : Eventually loop middle)
    (f : α → β) :
    Eventually (fun fuel => (loop fuel).map f) (f middle) := by
  obtain ⟨least, first⟩ := first
  refine ⟨least, fun fuel enough => ?_⟩
  simp only [first fuel enough, Option.map_some]

theorem Eventually.step {loop next : Nat → Option α} {result : α} (later : Eventually next result)
    (unfolds : ∀ fuel, loop (fuel + 1) = next fuel) : Eventually loop result := by
  obtain ⟨least, later⟩ := later
  refine ⟨least + 1, fun fuel enough => ?_⟩
  obtain ⟨fuel, rfl⟩ : ∃ n, fuel = n + 1 := ⟨fuel - 1, by omega⟩
  rw [unfolds]
  exact later fuel (by omega)

end Eventually

end Probing
