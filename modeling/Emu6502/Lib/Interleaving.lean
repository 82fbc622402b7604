/-! Threads that take turns on one shared state. A schedule names the thread of every
turn; it is fair if it never stops naming any of them. -/
namespace Emu6502.Interleaving
variable {S T : Type} (move : T → S → S)

def state (schedule : Nat → T) (s : S) : Nat → S
  | 0 => s
  | n+1 => move (schedule n) (state schedule s n)

def Fair (schedule : Nat → T) : Prop := ∀ t n, ∃ k, n ≤ k ∧ schedule k = t

variable {move} {schedule : Nat → T} {s : S} {n : Nat}

theorem invariantFrom {I : S → Prop} (kept : ∀ t s, I s → I (move t s)) (now : I (state move schedule s n)) :
    ∀ k, n ≤ k → I (state move schedule s k) := by
  intro k later
  obtain ⟨turns,rfl⟩ := Nat.exists_eq_add_of_le later
  clear later
  induction turns with
  | zero => exact now
  | succ turns ih => exact kept _ _ ih

/-- A rank that no move raises and every move of one thread lowers reaches zero. -/
theorem rankReachesZero (fair : Fair schedule) {I : S → Prop} {rank : S → Nat} (helper : T)
    (kept : ∀ t s, I s → I (move t s)) (falls : ∀ t s, I s → rank (move t s) ≤ rank s)
    (helps : ∀ s, I s → rank s ≠ 0 → rank (move helper s) < rank s) (now : I (state move schedule s n)) :
    ∃ k, n ≤ k ∧ rank (state move schedule s k) = 0 := by
  induction bound : rank (state move schedule s n) using Nat.strongRecOn generalizing n with
  | ind r ih =>
    by_cases zero : r = 0
    · exact ⟨n,Nat.le_refl n,bound.trans zero⟩
    · -- Nothing rises until the helper's next turn, which brings the rank below `r`.
      obtain ⟨k,later,turn⟩ := fair helper n
      have holds : I (state move schedule s k) := invariantFrom kept now k later
      have level : rank (state move schedule s k) ≤ r := by
        have start : I (state move schedule s n) ∧ rank (state move schedule s n) ≤ r :=
          ⟨now,Nat.le_of_eq bound⟩
        have stays := invariantFrom (I := fun s => I s ∧ rank s ≤ r)
          (fun t s h => ⟨kept t s h.1,Nat.le_trans (falls t s h.1) h.2⟩) start
        exact (stays k later).2
      have lower : rank (state move schedule s (k+1)) < r := by
        by_cases reached : rank (state move schedule s k) = 0
        · have := falls (schedule k) _ holds
          simp only [state]
          omega
        · have := helps _ holds reached
          simp only [state,turn]
          omega
      have next : I (state move schedule s (k+1)) := kept _ _ holds
      obtain ⟨j,after,done⟩ := ih _ lower next rfl
      exact ⟨j,by omega,done⟩

end Emu6502.Interleaving
