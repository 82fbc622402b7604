import Emu6502.HostSession
import Emu6502.Lib.Loop

/-! DebugProcessor::run() with both callbacks installed or not, against the sequence that
step() alone makes. -/
namespace Emu6502
open Interaction Loop

def Processor.withFlags (cpu : Processor) (running stopping : Bool) : Processor :=
  {cpu with running := running, stopping := stopping}

/- A DebugProcessor on its bus, and whatever the host's callbacks keep between calls. -/
structure DebugProcessor (σ κ : Type) where
  machine : Machine σ
  breakpoints : List Uint16
  host : κ

namespace DebugProcessor
variable {σ κ : Type}

/- What the callback leaves, and whether it called pause(). -/
abbrev Callback (σ κ : Type) := DebugProcessor σ κ → DebugProcessor σ κ × Bool

def pc (p : DebugProcessor σ κ) : Uint16 := p.machine.cpu.regs.pc
def running (p : DebugProcessor σ κ) : Bool := p.machine.cpu.running
def stopping (p : DebugProcessor σ κ) : Bool := p.machine.cpu.stopping

def withFlags (p : DebugProcessor σ κ) (running stopping : Bool) : DebugProcessor σ κ :=
  {p with machine := {p.machine with cpu := p.machine.cpu.withFlags running stopping}}

-- m_running is out of a callback's reach, and m_stopping but for pause().
def call (callback : Option (Callback σ κ)) (p : DebugProcessor σ κ) : DebugProcessor σ κ :=
  match callback with
  | none => p
  | some f => (f p).1.withFlags p.running (p.stopping || (f p).2)

structure Hooks (σ κ : Type) where
  instr : Option (Callback σ κ)
  breakp : Option (Callback σ κ)

structure DebugRun (σ κ : Type) where
  boundaries : List (DebugProcessor σ κ)
  fired : Nat
  returned : Option (DebugProcessor σ κ)

variable (d : Device Uint16 Uint8 σ) (hooks : Hooks σ κ)

/- step() up to its last line, which calls back. -/
def executed (p : DebugProcessor σ κ) : DebugProcessor σ κ := {p with machine := p.machine.step d}

def step (p : DebugProcessor σ κ) : DebugProcessor σ κ := call hooks.instr (p.executed d)

def atBreakpoint (p : DebugProcessor σ κ) : Bool := p.breakpoints.contains p.pc

def continues (p : DebugProcessor σ κ) : Bool := !p.atBreakpoint && p.running && !p.stopping

def begun (p : DebugProcessor σ κ) : DebugProcessor σ κ := p.withFlags true false

def run (fuel : Nat) (p : DebugProcessor σ κ) : DebugRun σ κ :=
  let first := p.begun.step d hooks
  let stepped := loop continues (step d hooks) fuel first
  match stepped.2 with
  | none => ⟨first :: stepped.1,0,none⟩
  | some stopped =>
      if stopped.atBreakpoint && hooks.breakp.isSome then
        ⟨first :: stepped.1,1,some ((call hooks.breakp stopped).withFlags false false)⟩
      else ⟨first :: stepped.1,0,some (stopped.withFlags false false)⟩

/- Whether the callback of a step() made from here calls pause(). -/
def asks (p : DebugProcessor σ κ) : Bool :=
  match hooks.instr with
  | none => false
  | some f => (f (p.executed d)).2

def boundary (p : DebugProcessor σ κ) (n : Nat) : DebugProcessor σ κ := (step d hooks)^[n] p.begun

def Stops (p : DebugProcessor σ κ) (n : Nat) : Prop :=
  (p.boundary d hooks n).pc ∈ (p.boundary d hooks n).breakpoints ∨
    ∃ k < n, (p.boundary d hooks k).asks d hooks = true

theorem stepRunning (p : DebugProcessor σ κ) : (p.step d hooks).running = p.running := by
  have kept : (p.executed d).running = p.running := (p.machine.isStepped d).runFlagsKept.1
  unfold step call
  split
  · exact kept
  · exact kept

theorem stepStopping (p : DebugProcessor σ κ) :
    (p.step d hooks).stopping = (p.stopping || p.asks d hooks) := by
  have kept : (p.executed d).stopping = p.stopping := (p.machine.isStepped d).runFlagsKept.2
  unfold step call asks
  cases hooks.instr with
  | none => rw [Bool.or_false]; exact kept
  | some f => exact congrArg (· || _) kept

variable {d hooks}

theorem boundarySucc (p : DebugProcessor σ κ) (n : Nat) :
    p.boundary d hooks (n+1) = (p.boundary d hooks n).step d hooks := Function.iterate_succ_apply' _ _ _

theorem boundaryRunning (p : DebugProcessor σ κ) (n : Nat) : (p.boundary d hooks n).running = true := by
  induction n with
  | zero => rfl
  | succ n ih => rw [boundarySucc,stepRunning,ih]

theorem boundaryStopping (p : DebugProcessor σ κ) (n : Nat) :
    (p.boundary d hooks n).stopping = true ↔ ∃ k < n, (p.boundary d hooks k).asks d hooks = true := by
  induction n with
  | zero => simp [boundary,begun,withFlags,Processor.withFlags,stopping]
  | succ n ih =>
    rw [boundarySucc,stepStopping,Bool.or_eq_true,ih]
    constructor
    · rintro (⟨k,before,asked⟩ | asked)
      · exact ⟨k,Nat.lt_succ_of_lt before,asked⟩
      · exact ⟨n,Nat.lt_succ_self n,asked⟩
    · rintro ⟨k,before,asked⟩
      rcases Nat.lt_succ_iff_lt_or_eq.mp before with before | rfl
      · exact .inl ⟨k,before,asked⟩
      · exact .inr asked

theorem continuesIff (p : DebugProcessor σ κ) (n : Nat) :
    (p.boundary d hooks n).continues = true ↔ ¬ p.Stops d hooks n := by
  rw [Stops,← boundaryStopping]
  simp [continues,atBreakpoint,boundaryRunning]

/-! The flags themselves. Only a callback that asks isRunning() can tell a run from step() calls. -/

def Blind (f : Callback σ κ) : Prop := ∀ p running stopping,
  (f (p.withFlags running stopping)).1.withFlags false false = (f p).1.withFlags false false

theorem cpuStepWithFlags (cpu : Processor) (running stopping : Bool) :
    Program.Related (fun plain flagged => flagged = (plain.1,plain.2.withFlags running stopping))
      cpu.step (cpu.withFlags running stopping).step := by
  by_cases pending : cpu.nmiPending = true
  · have same : (cpu.withFlags running stopping).nmiPending = true := pending
    rw [Processor.stepNmi pending,Processor.stepNmi same]
    exact Program.relatedAfter _ fun _ => rfl
  · have quiet : cpu.nmiPending = false := by simpa using pending
    have same : (cpu.withFlags running stopping).nmiPending = false := quiet
    by_cases taken : cpu.irqLine = true ∧ cpu.masked = false
    · have alike : (cpu.withFlags running stopping).irqLine = true ∧ (cpu.withFlags running stopping).masked = false :=
        taken
      rw [Processor.stepIrq quiet taken.1 taken.2,Processor.stepIrq same alike.1 alike.2]
      exact Program.relatedAfter _ fun _ => rfl
    · have free : cpu.executes = true := by
        unfold Processor.executes
        cases line : cpu.irqLine <;> cases clear : cpu.masked <;> simp_all
      have freed : (cpu.withFlags running stopping).executes = true := free
      rw [Processor.stepExecute free,Processor.stepExecute freed]
      exact Program.relatedRead _ fun _ => Program.relatedAfter _ fun _ => rfl

theorem executedWithFlags (p : DebugProcessor σ κ) (running stopping : Bool) :
    (p.withFlags running stopping).executed d = (p.executed d).withFlags running stopping := by
  obtain ⟨_,state,result⟩ := Program.relatedRun (cpuStepWithFlags p.machine.cpu running stopping) d p.machine.bus
  have same : (p.withFlags running stopping).machine.step d =
      ⟨(p.machine.step d).cpu.withFlags running stopping,(p.machine.step d).bus⟩ := by
    unfold Machine.step Machine.stepped
    exact congrArg₂ Machine.mk (congrArg Prod.snd result) state.symm
  unfold executed
  rw [same]
  rfl

theorem stepBlind (blind : ∀ f, hooks.instr = some f → Blind f) (p : DebugProcessor σ κ) (running stopping : Bool) :
    ((p.withFlags running stopping).step d hooks).withFlags false false =
      (p.step d hooks).withFlags false false := by
  unfold step
  rw [executedWithFlags]
  cases installed : hooks.instr with
  | none => rfl
  | some f => exact blind f installed (p.executed d) running stopping

theorem boundaryBlind (blind : ∀ f, hooks.instr = some f → Blind f) (p : DebugProcessor σ κ) (n : Nat) :
    (p.boundary d hooks n).withFlags false false = ((step d hooks)^[n] p).withFlags false false := by
  induction n with
  | zero => rfl
  | succ n ih =>
    have here := stepBlind (d := d) blind ((step d hooks)^[n] p) false false
    rw [boundarySucc,Function.iterate_succ_apply',← here,← ih]
    exact (stepBlind blind (p.boundary d hooks n) false false).symm

theorem runBoundaries (p : DebugProcessor σ κ) (fuel : Nat) :
    (p.run d hooks fuel).boundaries =
      p.boundary d hooks 1 :: (loop continues (step d hooks) fuel (p.boundary d hooks 1)).1 := by
  simp only [run]
  split
  · rfl
  · split <;> rfl

theorem runPending {p : DebugProcessor σ κ} {fuel : Nat}
    (pending : (loop continues (step d hooks) fuel (p.boundary d hooks 1)).2 = none) :
    (p.run d hooks fuel).returned = none ∧ (p.run d hooks fuel).fired = 0 := by
  have first : p.begun.step d hooks = p.boundary d hooks 1 := rfl
  simp only [run,first,pending]
  exact ⟨trivial,trivial⟩

theorem runStopped {p stopped : DebugProcessor σ κ} {fuel : Nat}
    (seen : (loop continues (step d hooks) fuel (p.boundary d hooks 1)).2 = some stopped) :
    let hit := stopped.pc ∈ stopped.breakpoints ∧ hooks.breakp.isSome = true
    (hit → (p.run d hooks fuel).fired = 1 ∧
        (p.run d hooks fuel).returned = some ((call hooks.breakp stopped).withFlags false false)) ∧
      (¬ hit → (p.run d hooks fuel).fired = 0 ∧
        (p.run d hooks fuel).returned = some (stopped.withFlags false false)) := by
  have first : p.begun.step d hooks = p.boundary d hooks 1 := rfl
  have asked : (stopped.atBreakpoint && hooks.breakp.isSome) = true ↔
      stopped.pc ∈ stopped.breakpoints ∧ hooks.breakp.isSome = true := by
    simp [atBreakpoint]
  simp only [run,first,seen,asked]
  constructor
  · intro hit
    rw [if_pos hit]
    exact ⟨rfl,rfl⟩
  · intro missed
    rw [if_neg missed]
    exact ⟨rfl,rfl⟩

/- It returns when its loop does. -/
theorem returnedLoop (p : DebugProcessor σ κ) (fuel : Nat) :
    (p.run d hooks fuel).returned.isSome = (loop continues (step d hooks) fuel (p.boundary d hooks 1)).2.isSome := by
  cases seen : (loop continues (step d hooks) fuel (p.boundary d hooks 1)).2 with
  | none => rw [(runPending seen).1]
  | some stopped =>
    obtain ⟨fires,quiet⟩ := runStopped seen
    by_cases here : stopped.pc ∈ stopped.breakpoints ∧ hooks.breakp.isSome = true
    · rw [(fires here).2]
      rfl
    · rw [(quiet here).2]
      rfl

theorem loopBoundary (p : DebugProcessor σ κ) (k : Nat) :
    (step d hooks)^[k] (p.boundary d hooks 1) = p.boundary d hooks (k+1) := rfl

/-- run() is step() repeated, at least once and up to the first boundary with pc on a
breakpoint or a pause() since the call; there the breakpoint callback fires or does not. -/
theorem debugRunIsSteps (d : Device Uint16 Uint8 σ) (hooks : Hooks σ κ) (p : DebugProcessor σ κ) (fuel : Nat) :
    let r := p.run d hooks fuel
    let n := r.boundaries.length
    let last := p.boundary d hooks n
    let hit := last.pc ∈ last.breakpoints ∧ hooks.breakp.isSome = true
    1 ≤ n ∧ r.boundaries = ((List.range n).map fun k => p.boundary d hooks (k+1)) ∧
      (∀ k, 1 ≤ k → k < n → ¬ p.Stops d hooks k) ∧
      (∀ left, r.returned = some left → p.Stops d hooks n ∧
        (hit → r.fired = 1 ∧ left = (call hooks.breakp last).withFlags false false) ∧
        (¬ hit → r.fired = 0 ∧ left = last.withFlags false false)) ∧
      (r.returned = none → r.fired = 0) ∧
      (∀ k, 1 ≤ k → p.Stops d hooks k → k ≤ fuel → r.returned.isSome = true) ∧
      ((∀ f, hooks.instr = some f → Blind f) → ∀ k,
        (p.boundary d hooks k).withFlags false false = ((step d hooks)^[k] p).withFlags false false) := by
  intro r n last hit
  have boundaries := @runBoundaries _ _ d hooks p fuel
  have states := loopStates continues (step d hooks) fuel (p.boundary d hooks 1)
  have continued := loopContinued continues (step d hooks) fuel (p.boundary d hooks 1)
  have count : n = (loop continues (step d hooks) fuel (p.boundary d hooks 1)).1.length + 1 := by
    simp only [n,r,boundaries,List.length_cons]
  refine ⟨by omega,?_,?_,?_,?_,?_,fun blind k => boundaryBlind blind p k⟩
  · rw [count,List.range_succ_eq_map,List.map_cons,List.map_map]
    exact boundaries.trans (congrArg (List.cons _) states)
  · intro k begun before
    obtain ⟨k,rfl⟩ := Nat.exists_eq_add_of_le' begun
    exact (continuesIff p (k+1)).mp (continued k (by omega))
  · intro left returned
    cases seen : (loop continues (step d hooks) fuel (p.boundary d hooks 1)).2 with
    | none =>
      have pending : r.returned = none := (runPending seen).1
      rw [pending] at returned
      contradiction
    | some stopped =>
      obtain ⟨reached,stops⟩ := loopReturned seen
      rw [loopBoundary,← count] at reached
      rw [reached] at stops seen
      obtain ⟨fires,quiet⟩ := runStopped seen
      refine ⟨?_,?_,?_⟩
      · by_contra going
        exact absurd ((continuesIff p n).mpr going) (by rw [stops]; exact Bool.false_ne_true)
      · intro here
        exact ⟨(fires here).1,Option.some.inj (returned.symm.trans (fires here).2)⟩
      · intro missed
        exact ⟨(quiet missed).1,Option.some.inj (returned.symm.trans (quiet missed).2)⟩
  · intro pending
    have ended := @returnedLoop _ _ d hooks p fuel
    rw [show (p.run d hooks fuel).returned = none from pending] at ended
    exact (runPending (Option.not_isSome_iff_eq_none.mp (by simp [← ended]))).2
  · intro k begun stops enough
    obtain ⟨k,rfl⟩ := Nat.exists_eq_add_of_le' begun
    have ended : continues ((step d hooks)^[k] (p.boundary d hooks 1)) = false := by
      rw [loopBoundary]
      exact Bool.eq_false_iff.mpr fun going => (continuesIff p (k+1)).mp going stops
    exact (returnedLoop p fuel).trans (loopReturns ended (by omega : k < fuel))

end DebugProcessor
end Emu6502
