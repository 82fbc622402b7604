import Emu6502.Lib.Transition

/-! An array under events that each store values at some of its indices. An index holds
what the last event that stored there left. -/
namespace Emu6502.Overlay
variable {S E I V : Type}

def lastStored (stores : E → I → Option V) (i : I) : List E → Option V
  | [] => none
  | e :: later => (lastStored stores i later).or (stores e i)

/-- Every event overlays the array with what it stores. -/
structure Overlays (next : S → E → S) (valid : S → Prop) (cell : S → I → V) (stores : E → I → Option V) : Prop where
  kept : ∀ s e, valid s → valid (next s e)
  stored : ∀ s e i, valid s → cell (next s e) i = (stores e i).getD (cell s i)

variable {next : S → E → S} {valid : S → Prop} {cell : S → I → V} {stores : E → I → Option V}

theorem runHolds (overlays : Overlays next valid cell stores) {s : S} (initial : valid s) (events : List E) (i : I) :
    cell (Transition.run next s events) i = (lastStored stores i events).getD (cell s i) := by
  induction events generalizing s with
  | nil => rfl
  | cons e later ih =>
    rw [Transition.runCons,ih (overlays.kept s e initial),overlays.stored s e i initial,lastStored]
    cases lastStored stores i later with
    | none => rfl
    | some v => rfl

end Emu6502.Overlay
