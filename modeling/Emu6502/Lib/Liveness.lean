import Emu6502.Lib.Transition

/-! Which cells of its memory a system still depends on. A cell is live if an event to come uses it
and none before that writes it; memories that differ in dead cells alone lead to the same run. -/
namespace Emu6502.Liveness
open Transition
variable {S E A V : Type}

/- Two memories before and after the same cells of both were written alike. -/
def Overwrites (cells : List A) (f g next other : A → V) : Prop :=
  ∀ a, (a ∈ cells → other a = next a) ∧ (a ∉ cells → next a = f a ∧ other a = g a)

theorem overwritesNothing (f g : A → V) : Overwrites [] f g f g :=
  fun _ => ⟨fun member => absurd member List.not_mem_nil,fun _ => ⟨rfl,rfl⟩⟩

structure Footprint (react : S → E → S) (content : S → A → V) (uses writes : S → E → List A) (Same : S → S → Prop) :
    Prop where
  step {s t : S} {e : E} : Same s t → (∀ a ∈ uses s e, content t a = content s a) →
    Same (react s e) (react t e) ∧ Overwrites (writes s e) (content s) (content t) (content (react s e)) (content (react t e))

section live
variable [DecidableEq A] (react : S → E → S) (uses writes : S → E → List A)

def live (a : A) : S → List E → Bool
  | _, [] => false
  | s, e :: events => (uses s e).contains a || (!(writes s e).contains a && live a (react s e) events)

theorem liveCons {a : A} {s : S} {e : E} {events : List E} : live react uses writes a s (e :: events) = false ↔
    a ∉ uses s e ∧ (a ∉ writes s e → live react uses writes a (react s e) events = false) := by
  simp only [live,Bool.or_eq_false_iff,Bool.and_eq_false_imp,Bool.not_eq_true',List.contains_eq_mem,decide_eq_false_iff_not]

theorem livePrefix {a : A} {s : S} {before events : List E} (within : before <+: events)
    (dead : live react uses writes a s events = false) : live react uses writes a s before = false := by
  induction before generalizing s events with
  | nil => rfl
  | cons e before ih =>
    obtain ⟨rest,rfl⟩ := within
    obtain ⟨unused,later⟩ := (liveCons react uses writes).mp dead
    exact (liveCons react uses writes).mpr ⟨unused,fun unwritten => ih ⟨rest,rfl⟩ (later unwritten)⟩

end live

theorem deadRun [DecidableEq A] {react : S → E → S} {content : S → A → V} {uses writes : S → E → List A} {Same : S → S → Prop}
    (footprint : Footprint react content uses writes Same) {s t : S} {events : List E} (same : Same s t)
    (dead : ∀ a, content t a ≠ content s a → live react uses writes a s events = false) :
    Same (run react s events) (run react t events) ∧
      ∀ a, content (run react t events) a = content (run react s events) a ∨
        (content (run react s events) a = content s a ∧ content (run react t events) a = content t a) := by
  induction events generalizing s t with
  | nil => exact ⟨same,fun _ => .inr ⟨rfl,rfl⟩⟩
  | cons e events ih =>
    have agree : ∀ a ∈ uses s e, content t a = content s a := fun a used => Classical.byContradiction fun differs =>
      ((liveCons react uses writes).mp (dead a differs)).1 used
    obtain ⟨next,overwrites⟩ := footprint.step same agree
    obtain ⟨last,cells⟩ := ih next fun a differs => by
      have unwritten : a ∉ writes s e := fun written => differs ((overwrites a).1 written)
      obtain ⟨kept,other⟩ := (overwrites a).2 unwritten
      rw [kept,other] at differs
      exact ((liveCons react uses writes).mp (dead a differs)).2 unwritten
    refine ⟨last,fun a => ?_⟩
    rcases cells a with equal | ⟨left,right⟩
    · exact .inl equal
    · by_cases written : a ∈ writes s e
      · exact .inl (right.trans (((overwrites a).1 written).trans left.symm))
      · obtain ⟨kept,other⟩ := (overwrites a).2 written
        exact .inr ⟨left.trans kept,right.trans other⟩

end Emu6502.Liveness
