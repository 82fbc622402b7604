import Mathlib.Logic.Function.Iterate

/-! A while loop given fuel: the states its body left, oldest first, and the state it returned
with, if the fuel saw it out. -/
namespace Emu6502.Loop
variable {S : Type} (continues : S → Bool) (next : S → S)

def loop : Nat → S → List S × Option S
  | 0,_ => ([],none)
  | fuel+1,s =>
      if continues s then
        let rest := loop fuel (next s)
        (next s :: rest.1,rest.2)
      else ([],some s)

theorem loopStates (fuel : Nat) (s : S) :
    (loop continues next fuel s).1 =
      (List.range (loop continues next fuel s).1.length).map fun k => next^[k+1] s := by
  induction fuel generalizing s with
  | zero => rfl
  | succ fuel ih =>
    unfold loop
    split
    · have later := ih (next s)
      simp only [List.length_cons,List.range_succ_eq_map,List.map_cons,List.map_map]
      exact congrArg (List.cons (next s)) later
    · rfl

theorem loopContinued (fuel : Nat) (s : S) (k : Nat) (inside : k < (loop continues next fuel s).1.length) :
    continues (next^[k] s) = true := by
  induction fuel generalizing s k with
  | zero => simp [loop] at inside
  | succ fuel ih =>
    unfold loop at inside
    split at inside
    · cases k with
      | zero => assumption
      | succ k => exact ih (next s) k (by simpa using inside)
    · simp at inside

variable {continues next}

theorem loopReturned {fuel : Nat} {s t : S} (returned : (loop continues next fuel s).2 = some t) :
    t = next^[(loop continues next fuel s).1.length] s ∧ continues t = false := by
  induction fuel generalizing s with
  | zero => simp [loop] at returned
  | succ fuel ih =>
    unfold loop at returned ⊢
    split at returned
    · rename_i going
      rw [if_pos going]
      exact ih returned
    · rename_i stops
      rw [if_neg stops]
      cases returned
      exact ⟨rfl,by simpa using stops⟩

theorem loopReturns {fuel n : Nat} {s : S} (stops : continues (next^[n] s) = false) (enough : n < fuel) :
    ((loop continues next fuel s).2).isSome = true := by
  induction fuel generalizing s n with
  | zero => omega
  | succ fuel ih =>
    unfold loop
    split
    · rename_i going
      cases n with
      | zero => exact absurd (stops.symm.trans going) Bool.false_ne_true
      | succ n => exact ih stops (by omega)
    · rfl

end Emu6502.Loop
