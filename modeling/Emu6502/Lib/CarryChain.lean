import Mathlib.Data.Nat.Digits.Defs

/-! Numerals of any length, least significant digit first, added and subtracted one digit
at a time by a step that keeps its carry in a state. What the step does to one digit, the
chain does to whole numerals. -/
namespace Emu6502.CarryChain
variable {S D : Type} (step : S → D → D → D × S)

def chain (s : S) : List (D × D) → List D × S
  | [] => ([],s)
  | (x,y) :: operands =>
      let out := step s x y
      let rest := chain out.2 operands
      (out.1 :: rest.1,rest.2)

theorem chainLength (s : S) (operands : List (D × D)) : (chain step s operands).1.length = operands.length := by
  induction operands generalizing s with
  | nil => rfl
  | cons pair operands ih => simp [chain,ih]

theorem chainConcat (s : S) (operands : List (D × D)) (x y : D) :
    chain step s (operands ++ [(x,y)]) =
      let before := chain step s operands
      let out := step before.2 x y
      (before.1 ++ [out.1],out.2) := by
  induction operands generalizing s with
  | nil => rfl
  | cons pair operands ih => simp [chain,ih]

/- The step stays among the states and the digits it is specified on. -/
structure Closed (state : S → Prop) (digit : D → Prop) : Prop where
  keeps : ∀ {s x y}, state s → digit x → digit y → state (step s x y).2
  yields : ∀ {s x y}, state s → digit x → digit y → digit (step s x y).1

section
variable {state : S → Prop} {digit : D → Prop} {step}

theorem chainClosed (closed : Closed step state digit) {s : S} (start : state s) {operands : List (D × D)}
    (digits : ∀ pair ∈ operands, digit pair.1 ∧ digit pair.2) :
    state (chain step s operands).2 ∧ ∀ d ∈ (chain step s operands).1, digit d := by
  induction operands generalizing s with
  | nil => exact ⟨start,by simp [chain]⟩
  | cons pair operands ih =>
    obtain ⟨left,right⟩ := digits pair (by simp)
    obtain ⟨kept,rest⟩ := ih (closed.keeps start left right) fun p member => digits p (by simp [member])
    refine ⟨kept,fun d member => ?_⟩
    rcases List.mem_cons.mp member with rfl | later
    · exact closed.yields start left right
    · exact rest d later

end

variable (base : Nat) (value : D → Nat) (carry : S → Bool)

def numeral (digits : List D) : Nat := Nat.ofDigits base (digits.map value)

@[simp] theorem numeralNil : numeral base value [] = 0 := rfl

@[simp] theorem numeralCons (d : D) (digits : List D) :
    numeral base value (d :: digits) = value d + base * numeral base value digits := Nat.ofDigits_cons

theorem numeralConcat (digits : List D) (d : D) :
    numeral base value (digits ++ [d]) = numeral base value digits + base ^ digits.length * value d := by
  simp [numeral,Nat.ofDigits_append]

theorem numeralBound (large : 1 < base) {digits : List D} (small : ∀ d ∈ digits, value d < base) :
    numeral base value digits < base ^ digits.length := by
  have bound := Nat.ofDigits_lt_base_pow_length (l := digits.map value) large (by simpa using small)
  simpa [numeral] using bound

structure Adds (state : S → Prop) (digit : D → Prop) : Prop extends Closed step state digit where
  sum : ∀ {s x y}, state s → digit x → digit y →
    value (step s x y).1 + base * (carry (step s x y).2).toNat = value x + value y + (carry s).toNat

/- The carry of a subtraction is a borrow when it is clear. -/
structure Subtracts (state : S → Prop) (digit : D → Prop) : Prop extends Closed step state digit where
  difference : ∀ {s x y}, state s → digit x → digit y →
    value (step s x y).1 + value y + (!carry s).toNat = value x + base * (!carry (step s x y).2).toNat

section
variable {step base value carry} {state : S → Prop} {digit : D → Prop}

theorem chainSum (adds : Adds step base value carry state digit) {s : S} (start : state s)
    {operands : List (D × D)} (digits : ∀ pair ∈ operands, digit pair.1 ∧ digit pair.2) :
    numeral base value (chain step s operands).1 +
        base ^ operands.length * (carry (chain step s operands).2).toNat =
      numeral base value (operands.map Prod.fst) + numeral base value (operands.map Prod.snd) +
        (carry s).toNat := by
  induction operands generalizing s with
  | nil => simp [chain]
  | cons pair operands ih =>
    obtain ⟨left,right⟩ := digits pair (by simp)
    have first := adds.sum start left right
    have rest := ih (adds.keeps start left right) fun p member => digits p (by simp [member])
    simp only [chain,List.map_cons,numeralCons,List.length_cons,Nat.pow_succ']
    generalize (chain step (step s pair.1 pair.2).2 operands) = later at rest ⊢
    calc
      _ = value (step s pair.1 pair.2).1 +
          base * (numeral base value later.1 + base ^ operands.length * (carry later.2).toNat) := by ring
      _ = value (step s pair.1 pair.2).1 + base * (carry (step s pair.1 pair.2).2).toNat +
          base * (numeral base value (operands.map Prod.fst) + numeral base value (operands.map Prod.snd)) := by
        rw [rest]
        ring
      _ = _ := by
        rw [first]
        ring

theorem chainDifference (subtracts : Subtracts step base value carry state digit) {s : S} (start : state s)
    {operands : List (D × D)} (digits : ∀ pair ∈ operands, digit pair.1 ∧ digit pair.2) :
    numeral base value (chain step s operands).1 + numeral base value (operands.map Prod.snd) +
        (!carry s).toNat =
      numeral base value (operands.map Prod.fst) +
        base ^ operands.length * (!carry (chain step s operands).2).toNat := by
  induction operands generalizing s with
  | nil => simp [chain]
  | cons pair operands ih =>
    obtain ⟨left,right⟩ := digits pair (by simp)
    have first := subtracts.difference start left right
    have rest := ih (subtracts.keeps start left right) fun p member => digits p (by simp [member])
    simp only [chain,List.map_cons,numeralCons,List.length_cons,Nat.pow_succ']
    generalize (chain step (step s pair.1 pair.2).2 operands) = later at rest ⊢
    calc
      _ = value (step s pair.1 pair.2).1 + value pair.2 + (!carry s).toNat +
          base * (numeral base value later.1 + numeral base value (operands.map Prod.snd)) := by ring
      _ = value pair.1 + base * (numeral base value later.1 + numeral base value (operands.map Prod.snd) +
          (!carry (step s pair.1 pair.2).2).toNat) := by
        rw [first]
        ring
      _ = _ := by
        rw [rest]
        ring

end

/-! The two equations, solved for the result and the carry out. -/

theorem sumResolved {r t whole : Nat} {c : Bool} (small : r < whole) (sum : r + whole * c.toNat = t) :
    r = t % whole ∧ (c = true ↔ whole ≤ t) := by
  subst sum
  cases c with
  | false => simp [Nat.mod_eq_of_lt small,small]
  | true => simp [Nat.mod_eq_of_lt small]

theorem differenceResolved {r x y whole : Nat} {b c : Bool} (small : r < whole)
    (difference : r + y + (!b).toNat = x + whole * (!c).toNat) :
    (r : Int) = ((x : Int) - y - (!b).toNat) % whole ∧ (c = true ↔ y + (!b).toNat ≤ x) := by
  have rest : (r : Int) % whole = r := Int.emod_eq_of_lt (by omega) (by omega)
  cases c with
  | false =>
    simp only [Bool.not_false,Bool.toNat_true,Nat.mul_one] at difference
    refine ⟨?_,by simp; omega⟩
    rw [← rest,show (x : Int) - y - (!b).toNat = r - whole by omega,Int.sub_emod_right]
  | true =>
    simp only [Bool.not_true,Bool.toNat_false,Nat.mul_zero,Nat.add_zero] at difference
    refine ⟨?_,by simp; omega⟩
    rw [← rest,show (x : Int) - y - (!b).toNat = r by omega]

/-! Two's complement: the half of the range that stands for the negative numbers, and
what signs tell about a result that does not fit. -/

def signed (whole v : Nat) : Int := if 2 * v < whole then v else v - whole

def Fits (whole : Nat) (v : Int) : Prop := -(whole : Int) ≤ 2 * v ∧ 2 * v < whole

theorem signedNegative {whole v : Nat} (small : v < whole) : signed whole v < 0 ↔ whole ≤ 2 * v := by
  unfold signed
  split <;> omega

section
variable {half x y r : Nat} {b c : Bool} (left : x < 2 * half) (right : y < 2 * half) (small : r < 2 * half)
include left right small

theorem sumFits (sum : r + 2 * half * c.toNat = x + y + b.toNat) :
    Fits (2 * half) (signed (2 * half) x + signed (2 * half) y + b.toNat) ↔
      ((half ≤ x ↔ half ≤ y) → (half ≤ x ↔ half ≤ r)) := by
  have carried := Bool.toNat_le b
  unfold Fits signed
  cases c with
  | false =>
    simp only [Bool.toNat_false,Nat.mul_zero,Nat.add_zero] at sum
    split <;> split <;> omega
  | true =>
    simp only [Bool.toNat_true,Nat.mul_one] at sum
    split <;> split <;> omega

theorem differenceFits (difference : r + y + (!b).toNat = x + 2 * half * (!c).toNat) :
    Fits (2 * half) (signed (2 * half) x - signed (2 * half) y - (!b).toNat) ↔
      (¬(half ≤ x ↔ half ≤ y) → (half ≤ x ↔ half ≤ r)) := by
  have borrowed := Bool.toNat_le (!b)
  unfold Fits signed
  cases c with
  | false =>
    simp only [Bool.not_false,Bool.toNat_true,Nat.mul_one] at difference
    split <;> split <;> omega
  | true =>
    simp only [Bool.not_true,Bool.toNat_false,Nat.mul_zero,Nat.add_zero] at difference
    split <;> split <;> omega

end

end Emu6502.CarryChain
