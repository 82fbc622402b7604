/-! Pacing against an absolute deadline. Every call adds its budget; a host that has fallen
further behind than `slack` is forgiven, by moving the deadline up to the present. -/
namespace Emu6502.Deadline
variable (slack : Nat)

structure Call where
  budget : Nat
  sample : Nat
  returned : Nat
  deriving DecidableEq, Repr

def budgets (calls : List Call) : Nat := (calls.map Call.budget).foldr (· + ·) 0

def advance (deadline : Nat) (c : Call) : Nat :=
  if c.sample < deadline + c.budget then deadline + c.budget
  else if slack < c.sample - (deadline + c.budget) then c.sample else deadline + c.budget

def follow (deadline : Nat) (calls : List Call) : Nat := calls.foldl (advance slack) deadline

/- A clock that never runs back, and sleeps that never end before their time. -/
def Hosted (deadline now : Nat) : List Call → Prop
  | [] => True
  | c :: calls => now ≤ c.sample ∧ c.sample + (deadline + c.budget - c.sample) ≤ c.returned ∧
      Hosted (advance slack deadline c) c.returned calls

@[simp] theorem budgetsNil : budgets [] = 0 := rfl

@[simp] theorem budgetsCons (c : Call) (calls : List Call) : budgets (c :: calls) = c.budget + budgets calls := rfl

@[simp] theorem budgetsAppend (first last : List Call) : budgets (first ++ last) = budgets first + budgets last := by
  induction first with
  | nil => simp
  | cons c first ih => simp only [List.cons_append,budgetsCons,ih,Nat.add_assoc]

@[simp] theorem followCons (deadline : Nat) (c : Call) (calls : List Call) :
    follow slack deadline (c :: calls) = follow slack (advance slack deadline c) calls := rfl

theorem followAppend (deadline : Nat) (first last : List Call) :
    follow slack deadline (first ++ last) = follow slack (follow slack deadline first) last := List.foldl_append

theorem budgetCounted (deadline : Nat) (c : Call) : deadline + c.budget ≤ advance slack deadline c := by
  unfold advance
  split
  · exact Nat.le_refl _
  · split <;> omega

theorem lagBounded (deadline : Nat) (c : Call) : c.sample ≤ advance slack deadline c + slack := by
  unfold advance
  split
  · omega
  · split <;> omega

theorem deadlineWaited {deadline : Nat} {c : Call}
    (slept : c.sample + (deadline + c.budget - c.sample) ≤ c.returned) : advance slack deadline c ≤ c.returned := by
  unfold advance
  split
  · omega
  · split <;> omega

theorem budgetsCounted (deadline : Nat) (calls : List Call) :
    deadline + budgets calls ≤ follow slack deadline calls := by
  induction calls generalizing deadline with
  | nil => exact Nat.le_refl _
  | cons c calls ih =>
    have here := budgetCounted slack deadline c
    have later := ih (advance slack deadline c)
    rw [budgetsCons,followCons]
    omega

variable {slack}

theorem hostedAppend {deadline now : Nat} {first last : List Call} (hosted : Hosted slack deadline now (first ++ last)) :
    ∃ since, Hosted slack (follow slack deadline first) since last := by
  induction first generalizing deadline now with
  | nil => exact ⟨now,hosted⟩
  | cons c first ih => exact ih hosted.2.2

theorem returnsAfterDeadline {deadline now : Nat} {before after : List Call} {last : Call}
    (hosted : Hosted slack deadline now (before ++ last :: after)) :
    follow slack deadline (before ++ [last]) ≤ last.returned := by
  obtain ⟨since,_,slept,_⟩ := hostedAppend hosted
  rw [followAppend]
  exact deadlineWaited slack slept

theorem neverAhead {deadline now : Nat} {before after : List Call} {last : Call}
    (hosted : Hosted slack deadline now (before ++ last :: after)) :
    deadline + budgets (before ++ [last]) ≤ last.returned :=
  Nat.le_trans (budgetsCounted slack deadline _) (returnsAfterDeadline hosted)

theorem lostTimeForgiven {deadline now : Nat} {earlier between after : List Call} {first last : Call}
    (hosted : Hosted slack deadline now (earlier ++ first :: (between ++ last :: after))) :
    first.sample + budgets (between ++ [last]) ≤ last.returned + slack := by
  obtain ⟨since,_,_,rest⟩ := hostedAppend hosted
  have lag := lagBounded slack (follow slack deadline earlier) first
  have counted := neverAhead rest
  omega

end Emu6502.Deadline
