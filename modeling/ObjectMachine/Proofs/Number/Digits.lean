import Mathlib.Tactic
import Mathlib.Data.Nat.Digits.Lemmas
import ObjectMachine.Digits

/-! Reading and finding digits are inverse to each other.

Both halve their work, reading by joining neighbours and finding by dividing by repeated squares of the
base, so that neither follows the positions one by one.  What digits are worth, whichever way they are
added up, is the value of the list of them in `Nat.ofDigits`, and the digits that are found are worth the
number they were found for. -/

namespace ObjectMachine.Digits

variable {base n : Nat}

/-! ### Reading -/

/-- Neighbours are joined to digits of the squared base. -/
theorem ofDigits_pairUp (base : Nat) : ∀ digits : List Nat,
    Nat.ofDigits (base * base) (pairUp base digits) = Nat.ofDigits base digits
  | [] => rfl
  | [_] => rfl
  | low :: high :: rest => by
    rw [pairUp, Nat.ofDigits_cons, Nat.ofDigits_cons, Nat.ofDigits_cons, ofDigits_pairUp base rest]
    ring

theorem join_eq : ∀ (rounds base : Nat) (digits : List Nat),
    join rounds base digits = Nat.ofDigits base digits
  | _, _, [] => by rw [join, Nat.ofDigits_nil]
  | _, _, [_] => by rw [join, Nat.ofDigits_singleton]
  | 0, base, low :: high :: rest => (Nat.ofDigits_eq_foldr base _).symm
  | rounds + 1, base, low :: high :: rest => by
    rw [join, join_eq rounds, ofDigits_pairUp] <;> nofun

/-- Digits are worth what they are worth place by place. -/
theorem value_eq (base : Nat) (digits : List Nat) :
    value base digits = Nat.ofDigits base digits.reverse := join_eq _ _ _

/-! ### Finding -/

/-- The repeated squares of the base, the largest first. -/
def ladder (base : Nat) : Nat → List Nat
  | 0 => []
  | height + 1 => base ^ 2 ^ height :: ladder base height

/-- Squaring goes on until the square is larger than the number. -/
theorem exists_squaresUpTo : ∀ (rounds height : Nat), n < base ^ 2 ^ (height + rounds) →
    ∃ top, squaresUpTo n rounds (base ^ 2 ^ height) (ladder base height) = ladder base top ∧
      n < base ^ 2 ^ top
  | 0, height, h => ⟨height, rfl, h⟩
  | rounds + 1, height, h => by
    rw [squaresUpTo]
    by_cases hlt : n < base ^ 2 ^ height
    · exact ⟨height, if_pos hlt, hlt⟩
    · have hsquare : base ^ 2 ^ height * base ^ 2 ^ height = base ^ 2 ^ (height + 1) := by
        rw [← pow_add, pow_succ, mul_two]
      rw [if_neg hlt, hsquare]
      exact exists_squaresUpTo rounds (height + 1) (by rwa [Nat.add_right_comm, Nat.add_assoc])

/-- A number below the square of the first rung falls apart into as many digits as the ladder has places,
which are worth the number. -/
theorem split_ladder (hbase : 0 < base) : ∀ (height n : Nat), n < base ^ 2 ^ height →
    (split (ladder base height) n).length = 2 ^ height ∧
      (∀ d ∈ split (ladder base height) n, d < base) ∧
      Nat.ofDigits base (split (ladder base height) n).reverse = n
  | 0, n, h => by
    rw [pow_zero, pow_one] at h
    refine ⟨rfl, fun d hd => ?_, Nat.ofDigits_singleton⟩
    rwa [List.mem_singleton.mp hd]
  | height + 1, n, h => by
    have hpos : 0 < base ^ 2 ^ height := Nat.pow_pos hbase
    have hquotient : n / base ^ 2 ^ height < base ^ 2 ^ height := by
      rwa [Nat.div_lt_iff_lt_mul hpos, ← pow_add, ← mul_two, ← pow_succ]
    obtain ⟨hlength, hdigits, hvalue⟩ := split_ladder hbase height _ hquotient
    obtain ⟨hlength', hdigits', hvalue'⟩ := split_ladder hbase height _ (Nat.mod_lt n hpos)
    rw [ladder, split]
    refine ⟨?_, fun d hd => (List.mem_append.mp hd).elim (hdigits d) (hdigits' d), ?_⟩
    · rw [List.length_append, hlength, hlength', pow_succ, mul_two]
    · rw [List.reverse_append, Nat.ofDigits_append, List.length_reverse, hlength', hvalue, hvalue',
        Nat.mod_add_div]

/-- Zeros in front are worth nothing. -/
theorem ofDigits_dropWhile (base : Nat) : ∀ digits : List Nat,
    Nat.ofDigits base (digits.dropWhile (· == 0)).reverse = Nat.ofDigits base digits.reverse
  | [] => rfl
  | digit :: rest => by
    by_cases h : digit = 0
    · subst h
      rw [List.dropWhile_cons_of_pos rfl, ofDigits_dropWhile base rest, List.reverse_cons,
        Nat.ofDigits_append, Nat.ofDigits_singleton, mul_zero, add_zero]
    · rw [List.dropWhile_cons_of_neg (by simpa using h)]

/-- There is a digit, digits are smaller than the base, and they are worth the number. -/
theorem digits_spec (hbase : 2 ≤ base) (n : Nat) :
    digits base n ≠ [] ∧ (∀ d ∈ digits base n, d < base) ∧
      Nat.ofDigits base (digits base n).reverse = n := by
  have hbound : n < base ^ 2 ^ (0 + (n.log2 + 1)) := by
    rw [Nat.zero_add]
    calc n < 2 ^ (n.log2 + 1) := Nat.lt_log2_self
      _ < 2 ^ 2 ^ (n.log2 + 1) := Nat.pow_lt_pow_right one_lt_two Nat.lt_two_pow_self
      _ ≤ base ^ 2 ^ (n.log2 + 1) := Nat.pow_le_pow_left hbase _
  obtain ⟨top, hsquares, hlt⟩ := exists_squaresUpTo (n.log2 + 1) 0 hbound
  obtain ⟨-, hdigits, hvalue⟩ := split_ladder (by omega) top n hlt
  rw [pow_zero, pow_one, ladder] at hsquares
  rw [← hsquares] at hdigits
  rw [← hsquares, ← ofDigits_dropWhile] at hvalue
  unfold digits
  split
  · next hnil =>
    rw [hnil] at hvalue
    refine ⟨List.cons_ne_nil _ _, fun d hd => ?_, by rw [← hvalue]; rfl⟩
    rw [List.mem_singleton.mp hd]
    omega
  · next hne => exact ⟨hne, fun d hd => hdigits d ((List.dropWhile_sublist _).subset hd), hvalue⟩

end ObjectMachine.Digits
