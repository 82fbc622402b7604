/-! Deterministic systems driven by a list of events: the run, the state every
event met, and the induction over runs stated once. -/
namespace Emu6502.Transition
variable {S E : Type} (next : S → E → S)

def run (s : S) (events : List E) : S := events.foldl next s

@[simp] theorem runNil (s : S) : run next s [] = s := rfl

@[simp] theorem runCons (s : S) (e : E) (events : List E) :
    run next s (e :: events) = run next (next s e) events := rfl

theorem runAppend (s : S) (first last : List E) :
    run next s (first ++ last) = run next (run next s first) last := List.foldl_append

def history (s : S) : List E → List (S × E)
  | [] => []
  | e :: events => (s,e) :: history (next s e) events

@[simp] theorem historyNil (s : S) : history next s [] = [] := rfl

@[simp] theorem historyCons (s : S) (e : E) (events : List E) :
    history next s (e :: events) = (s,e) :: history next (next s e) events := rfl

theorem historyAppend (s : S) (first last : List E) :
    history next s (first ++ last) = history next s first ++ history next (run next s first) last := by
  induction first generalizing s with
  | nil => rfl
  | cons e first ih => simp [ih]

theorem historyEvents (s : S) (events : List E) : (history next s events).map Prod.snd = events := by
  induction events generalizing s with
  | nil => rfl
  | cons e events ih => simp [ih]

theorem historyPosition {s : S} {events : List E} {met : S × E} :
    met ∈ history next s events ↔
      ∃ before after, events = before ++ met.2 :: after ∧ met.1 = run next s before := by
  induction events generalizing s with
  | nil => simp
  | cons e events ih =>
    simp only [historyCons,List.mem_cons,ih]
    constructor
    · rintro (same | ⟨before,after,split,state⟩)
      · subst same; exact ⟨[],events,rfl,rfl⟩
      · exact ⟨e :: before,after,by simp [split],state⟩
    · rintro ⟨before,after,split,state⟩
      cases before with
      | nil =>
        left
        simp only [List.nil_append,List.cons.injEq] at split
        exact Prod.ext state split.1.symm
      | cons b before =>
        right
        simp only [List.cons_append,List.cons.injEq] at split
        obtain ⟨same,split⟩ := split
        subst same
        exact ⟨before,after,split,state⟩

theorem runInvariant {I : S → Prop} {s : S} {events : List E} (initial : I s)
    (kept : ∀ met ∈ history next s events, I met.1 → I (next met.1 met.2)) :
    I (run next s events) := by
  induction events generalizing s with
  | nil => exact initial
  | cons e events ih =>
    refine ih (kept (s,e) (by simp) initial) ?_
    intro met member
    exact kept met (by simp [member])

theorem runUnless {I : S → Prop} {R : S × E → Prop} {s : S} {events : List E} (initial : I s)
    (kept : ∀ met ∈ history next s events, I met.1 → ¬ R met → I (next met.1 met.2)) :
    I (run next s events) ∨ ∃ met ∈ history next s events, R met := by
  by_cases released : ∃ met ∈ history next s events, R met
  · exact .inr released
  · refine .inl (runInvariant next initial fun met member holds => ?_)
    exact kept met member holds fun r => released ⟨met,member,r⟩

/- Two systems under the same events. What is observed of every event met is the same as long
as a relation holds that the events met in the first run keep. -/
theorem runSimulates {T O : Type} {other : T → E → T} {R : S → T → Prop} {observed : S × E → O}
    {otherObserved : T × E → O} {s : S} {t : T} {events : List E} (initial : R s t)
    (kept : ∀ met ∈ history next s events, ∀ t, R met.1 t →
      observed met = otherObserved (t,met.2) ∧ R (next met.1 met.2) (other t met.2)) :
    (history next s events).map observed = (history other t events).map otherObserved ∧
      R (run next s events) (run other t events) := by
  induction events generalizing s t with
  | nil => exact ⟨rfl,initial⟩
  | cons e events ih =>
    obtain ⟨here,later⟩ := kept (s,e) (by simp) t initial
    obtain ⟨rest,related⟩ := ih later fun met member => kept met (by simp [member])
    refine ⟨?_,related⟩
    simp only [historyCons,List.map_cons,rest]
    exact congrArg (· :: _) here

/- What is at most n of the counted events away is reached, if every event leaves it no further away
and the counted ones bring it closer. -/
theorem runReaches (Away : Nat → S → Prop) (counted : E → Bool) {n : Nat} {s : S} {events : List E}
    (initial : Away n s) (enough : n ≤ events.countP counted)
    (moved : ∀ n s e, Away (n + 1) s → ∃ m, Away m (next s e) ∧ m + (if counted e then 1 else 0) ≤ n + 1) :
    ∃ before after, events = before ++ after ∧ Away 0 (run next s before) := by
  induction events generalizing n s with
  | nil =>
    obtain rfl : n = 0 := by simpa using enough
    exact ⟨[],[],rfl,initial⟩
  | cons e events ih =>
    cases n with
    | zero => exact ⟨[],e :: events,rfl,initial⟩
    | succ n =>
      obtain ⟨m,closer,lower⟩ := moved n s e initial
      rw [List.countP_cons] at enough
      obtain ⟨before,after,split,reached⟩ := ih closer (by omega)
      exact ⟨e :: before,after,by rw [split,List.cons_append],reached⟩

end Emu6502.Transition
