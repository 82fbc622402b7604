import Mathlib.Logic.Function.Iterate

/-! Total correctness for a system that takes one step after another. A triple says that from
every state in its first set the system gets to one in its second; triples are put together
by the rules below and carried from an abstract system to one that simulates it. -/
namespace Emu6502.Total
variable {S T : Type} {next : S → S} {P P' Q Q' R : S → Prop}

def Reaches (next : S → S) (Q : S → Prop) (s : S) : Prop := ∃ n, Q (next^[n] s)

def Triple (next : S → S) (P Q : S → Prop) : Prop := ∀ s, P s → Reaches next Q s

theorem here {s : S} (now : Q s) : Reaches next Q s := ⟨0,now⟩

theorem after {s : S} (later : Reaches next Q (next s)) : Reaches next Q s := by
  obtain ⟨n,reached⟩ := later
  exact ⟨n+1,reached⟩

theorem onwards {s : S} (first : Reaches next P s) (second : Triple next P Q) : Reaches next Q s := by
  obtain ⟨n,middle⟩ := first
  obtain ⟨k,reached⟩ := second _ middle
  refine ⟨k+n,?_⟩
  rw [Function.iterate_add_apply]
  exact reached

theorem weaker {s : S} (reached : Reaches next Q s) (weaken : ∀ t, Q t → Q' t) : Reaches next Q' s := by
  obtain ⟨n,there⟩ := reached
  exact ⟨n,weaken _ there⟩

namespace Triple

theorem skip (now : ∀ s, P s → Q s) : Triple next P Q := fun s holds => here (now s holds)

theorem sequence (first : Triple next P Q) (second : Triple next Q R) : Triple next P R :=
  fun s holds => onwards (first s holds) second

/- A loop that counts its rounds down, from no more than `most` of them. -/
theorem countdown {I : Nat → S → Prop} {most : Nat} (round : ∀ {k}, k < most → Triple next (I (k+1)) (I k)) {k : Nat}
    (few : k ≤ most) : Triple next (I k) (I 0) := by
  induction k with
  | zero => exact skip fun _ holds => holds
  | succ k ih => exact (round few).sequence (ih (Nat.le_of_succ_le few))

end Triple

/-! A system whose every step, from a state in `within`, is one of the abstract system. -/

section simulation
variable {step : T → T} {view : T → S} {within : T → Prop} (kept : ∀ t, within t → within (step t))
  (simulates : ∀ t, within t → view (step t) = next (view t))
include kept simulates

theorem iterateSimulates (n : Nat) {t : T} (start : within t) :
    within (step^[n] t) ∧ view (step^[n] t) = next^[n] (view t) := by
  induction n with
  | zero => exact ⟨start,rfl⟩
  | succ n ih =>
    obtain ⟨inside,same⟩ := ih
    rw [Function.iterate_succ_apply',Function.iterate_succ_apply',simulates _ inside,same]
    exact ⟨kept _ inside,rfl⟩

theorem reachesSimulates {t : T} (start : within t) (reached : Reaches next Q (view t)) :
    Reaches step (fun u => within u ∧ Q (view u)) t := by
  obtain ⟨n,there⟩ := reached
  obtain ⟨inside,same⟩ := iterateSimulates kept simulates n start
  exact ⟨n,inside,same ▸ there⟩

end simulation
end Emu6502.Total
