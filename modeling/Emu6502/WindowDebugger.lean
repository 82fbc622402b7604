import Mathlib.Data.Fin.Tuple.Basic
import Emu6502.DebugRun
import Emu6502.SelfTrap

/-! test_6502.cpp: the Windows debugger behind its windows. Its instruction callback keeps the last six
program counters and asks for a pause where an instruction leaves pc alone. -/
namespace Emu6502
open Interaction Loop

/- What TestWindowMan keeps beside the processor. `pauses` says of each instruction to come, the first
from m_stopping = false on, whether the UI thread's pause() falls into it. -/
structure TestWindow where
  previousPcs : Fin 6 → Int
  pauses : List Bool

abbrev TestWindowMan := DebugProcessor RamBus TestWindow

-- `early`: a pause() reaches the run thread before its m_stopping = false.
inductive WindowCommand where
  | step
  | run (fuel : Nat) (early : Bool) (pauses : List Bool)
  | reset
  | addBreakpoint (addr : Uint16)
  deriving DecidableEq, Repr

namespace TestWindowMan

def shiftIn (previousPcs : Fin 6 → Int) (pc : Uint16) : Fin 6 → Int :=
  Fin.cons (pc.toNat : Int) fun i : Fin 5 => previousPcs i.castSucc

def runCallback (p : TestWindowMan) : TestWindowMan × Bool :=
  let asked := p.host.pauses.headD false
  let waiting := {p.host with pauses := p.host.pauses.tail}
  if p.host.previousPcs 0 = p.pc.toNat then ({p with host := waiting},true)
  else ({p with host := {waiting with previousPcs := shiftIn p.host.previousPcs p.pc}},asked)

-- setupStop() only draws.
def hooks : DebugProcessor.Hooks RamBus TestWindow := ⟨some runCallback,some fun p => (p,false)⟩

def construct (regs : Registers) (bus : RamBus) : TestWindowMan :=
  let machine := (⟨{regs := regs},bus⟩ : Machine RamBus).start RamBus.device
  {machine := machine, breakpoints := [], host := ⟨fun i => machine.cpu.regs.pc.toNat - i.val,[]⟩}

def watched (p : TestWindowMan) (pauses : List Bool) : TestWindowMan := {p with host := {p.host with pauses := pauses}}

def stepped (p : TestWindowMan) : TestWindowMan := (p.watched []).step RamBus.device hooks

def pausedEarly (p : TestWindowMan) (early : Bool) : TestWindowMan :=
  {p with machine := {p.machine with cpu := if early then p.machine.cpu.pause else p.machine.cpu}}

-- m_running = true sets no flag that pause() does, so a pause() on either side of it is the same.
def runToBreakpoint (p : TestWindowMan) (fuel : Nat) (early : Bool) (pauses : List Bool) :
    DebugProcessor.DebugRun RamBus TestWindow :=
  ((p.pausedEarly early).watched pauses).run RamBus.device hooks fuel

-- The stop() in reset() spins on a running processor.
def reset (p : TestWindowMan) : Option TestWindowMan :=
  p.machine.cpu.stop.map fun cpu =>
    let machine := (⟨cpu,p.machine.bus⟩ : Machine RamBus).start RamBus.device
    {p with machine := machine, host := {p.host with previousPcs := shiftIn p.host.previousPcs machine.cpu.regs.pc}}

def perform (p : TestWindowMan) : WindowCommand → Option TestWindowMan
  | .step => some p.stepped
  | .run fuel early pauses => (p.runToBreakpoint fuel early pauses).returned
  | .reset => p.reset
  | .addBreakpoint addr => some {p with breakpoints := p.breakpoints.insert addr}

/-! The whole trail, newest first: every pc an instruction left behind but those it found there,
and every pc a reset loaded. -/

def record (trail : List Uint16) (pc : Uint16) : List Uint16 := if trail.head? = some pc then trail else pc :: trail

def recorded (trail : List Uint16) (p : TestWindowMan) : WindowCommand → List Uint16
  | .step => record trail p.stepped.pc
  | .run fuel early pauses => ((p.runToBreakpoint fuel early pauses).boundaries.map DebugProcessor.pc).foldl record trail
  | .reset => (p.reset.map DebugProcessor.pc).toList ++ trail
  | .addBreakpoint _ => trail

def session (p : TestWindowMan) (trail : List Uint16) : List WindowCommand → Option (TestWindowMan × List Uint16)
  | [] => some (p,trail)
  | c :: commands => (p.perform c).bind fun q => q.session (recorded trail p c) commands

/- Entry `i` of a window on the trail, over what the constructor filled it with. -/
def entry (start : Uint16) (trail : List Uint16) (i : Nat) : Int :=
  (trail[i]?.map fun pc => (pc.toNat : Int)).getD (start.toNat + trail.length - (i + 1))

structure Shows (start : Uint16) (trail : List Uint16) (p : TestWindowMan) : Prop where
  window : ∀ i, p.host.previousPcs i = entry start trail i.val
  newest : trail.head? = some p.pc

section shows
variable {start : Uint16} {trail : List Uint16} {p : TestWindowMan}

theorem entryFirst (start pc : Uint16) (trail : List Uint16) : entry start (pc :: trail) 0 = pc.toNat := rfl

theorem entryShift (start pc : Uint16) (trail : List Uint16) (i : Nat) :
    entry start (pc :: trail) (i+1) = entry start trail i := by
  simp only [entry,List.getElem?_cons_succ,List.length_cons]
  congr 1
  omega

theorem shiftShows (window : ∀ i, p.host.previousPcs i = entry start trail i.val) (pc : Uint16) (i : Fin 6) :
    shiftIn p.host.previousPcs pc i = entry start (pc :: trail) i.val := by
  cases i using Fin.cases with
  | zero => exact (entryFirst start pc trail).symm
  | succ i =>
    rw [shiftIn,Fin.cons_succ,window]
    exact (entryShift start pc trail i.val).symm

theorem showsFirst (shows : Shows start trail p) : p.host.previousPcs 0 = p.pc.toNat := by
  have newest := shows.newest
  rw [shows.window]
  cases trail with
  | nil => simp at newest
  | cons pc trail => rw [Option.some.inj newest]; rfl

theorem sameCount {a b : Uint16} : (a.toNat : Int) = b.toNat ↔ a = b :=
  Int.ofNat_inj.trans BitVec.toNat_inj

theorem unmovedIff (shows : Shows start trail p) (pc : Uint16) :
    p.host.previousPcs 0 = pc.toNat ↔ trail.head? = some pc := by
  rw [showsFirst shows,sameCount,shows.newest,Option.some.injEq]

theorem stepPc (p : TestWindowMan) : (p.step RamBus.device hooks).pc = (p.executed RamBus.device).pc := by
  change (runCallback (p.executed RamBus.device)).1.pc = _
  unfold runCallback
  dsimp only
  split <;> rfl

theorem stepWindow (p : TestWindowMan) : (p.step RamBus.device hooks).host.previousPcs =
    if p.host.previousPcs 0 = (p.executed RamBus.device).pc.toNat then p.host.previousPcs
    else shiftIn p.host.previousPcs (p.executed RamBus.device).pc := by
  change (runCallback (p.executed RamBus.device)).1.host.previousPcs = _
  unfold runCallback
  dsimp only
  split
  · rename_i same
    exact (if_pos same).symm
  · rename_i moved
    exact (if_neg moved).symm

theorem showsStep (shows : Shows start trail p) :
    Shows start (record trail (p.step RamBus.device hooks).pc) (p.step RamBus.device hooks) := by
  have test := unmovedIff shows (p.step RamBus.device hooks).pc
  rw [stepPc] at test
  by_cases stays : trail.head? = some (p.executed RamBus.device).pc
  · rw [stepPc,record,if_pos stays]
    refine ⟨fun i => ?_,by rw [stepPc]; exact stays⟩
    rw [stepWindow,if_pos (test.mpr stays)]
    exact shows.window i
  · rw [stepPc,record,if_neg stays]
    refine ⟨fun i => ?_,by rw [stepPc]; rfl⟩
    rw [stepWindow,if_neg fun same => stays (test.mp same)]
    exact shiftShows shows.window _ i

theorem showsFlags (shows : Shows start trail p) (running stopping : Bool) :
    Shows start trail (p.withFlags running stopping) := ⟨shows.window,shows.newest⟩

theorem showsBoundary (shows : Shows start trail p) (n : Nat) :
    Shows start (((List.range n).map fun k => (p.boundary RamBus.device hooks (k+1)).pc).foldl record trail)
      (p.boundary RamBus.device hooks n) := by
  induction n with
  | zero => exact showsFlags shows true false
  | succ n ih =>
    rw [List.range_succ,List.map_append,List.foldl_append]
    simp only [List.map_cons,List.map_nil,List.foldl_cons,List.foldl_nil,DebugProcessor.boundarySucc p n]
    exact showsStep ih

end shows
def trapBus : RamBus := (Machine.ramRig [(0xfffd,0x04),(0x0400,0xe8),(0x0401,0x4c),(0x0402,0x01),(0x0403,0x04)]).bus

end TestWindowMan

namespace DebugProcessor
variable {σ κ : Type} {d : Device Uint16 Uint8 σ} {hooks : Hooks σ κ} {p : DebugProcessor σ κ} {fuel : Nat}

theorem runCount (d : Device Uint16 Uint8 σ) (hooks : Hooks σ κ) (p : DebugProcessor σ κ) (fuel : Nat) :
    1 ≤ (p.run d hooks fuel).boundaries.length ∧
    (p.run d hooks fuel).boundaries =
      (List.range (p.run d hooks fuel).boundaries.length).map fun k => p.boundary d hooks (k+1) := by
  rw [runBoundaries,List.length_cons]
  refine ⟨Nat.succ_pos _,?_⟩
  rw [List.range_succ_eq_map,List.map_cons,List.map_map]
  exact congrArg (List.cons _) (loopStates continues (step d hooks) fuel (p.boundary d hooks 1))

theorem runGoesOn {k : Nat} (begun : 1 ≤ k) (before : k < (p.run d hooks fuel).boundaries.length) :
    ¬ p.Stops d hooks k := by
  rw [runBoundaries,List.length_cons] at before
  obtain ⟨k,rfl⟩ := Nat.exists_eq_add_of_le' begun
  exact (continuesIff p (k+1)).mp (loopContinued continues (step d hooks) fuel (p.boundary d hooks 1) k (by omega))

theorem runLeaves {left : DebugProcessor σ κ} (returned : (p.run d hooks fuel).returned = some left) :
    let last := p.boundary d hooks (p.run d hooks fuel).boundaries.length
    p.Stops d hooks (p.run d hooks fuel).boundaries.length ∧
      (left = (call hooks.breakp last).withFlags false false ∨ left = last.withFlags false false) := by
  intro last
  cases seen : (loop continues (step d hooks) fuel (p.boundary d hooks 1)).2 with
  | none =>
    rw [(runPending seen).1] at returned
    contradiction
  | some stopped =>
    obtain ⟨reached,stops⟩ := loopReturned seen
    have count : (p.run d hooks fuel).boundaries.length =
        (loop continues (step d hooks) fuel (p.boundary d hooks 1)).1.length + 1 := by
      rw [runBoundaries,List.length_cons]
    rw [loopBoundary,← count] at reached
    subst reached
    obtain ⟨fires,quiet⟩ := runStopped seen
    refine ⟨?_,?_⟩
    · by_contra going
      exact absurd ((continuesIff p _).mpr going) (by rw [stops]; exact Bool.false_ne_true)
    · by_cases hit : last.pc ∈ last.breakpoints ∧ hooks.breakp.isSome = true
      · exact .inl (Option.some.inj (returned.symm.trans (fires hit).2))
      · exact .inr (Option.some.inj (returned.symm.trans (quiet hit).2))

theorem runReturns {k : Nat} (begun : 1 ≤ k) (stops : p.Stops d hooks k) (enough : k ≤ fuel) :
    (p.run d hooks fuel).returned.isSome = true := by
  obtain ⟨k,rfl⟩ := Nat.exists_eq_add_of_le' begun
  have ended : continues ((step d hooks)^[k] (p.boundary d hooks 1)) = false := by
    rw [loopBoundary]
    exact Bool.eq_false_iff.mpr fun going => (continuesIff p (k+1)).mp going stops
  exact (returnedLoop p fuel).trans (loopReturns ended (by omega : k < fuel))

end DebugProcessor

namespace TestWindowMan
variable {start : Uint16} {trail : List Uint16} {p : TestWindowMan}

/- run() sets both of its flags, whatever was stored before. -/
theorem earlyErased (p : TestWindowMan) (fuel : Nat) (early : Bool) (pauses : List Bool) :
    p.runToBreakpoint fuel early pauses = (p.watched pauses).run RamBus.device hooks fuel := by
  cases early <;> rfl

theorem showsRun {fuel : Nat} {early : Bool} {pauses : List Bool} {left : TestWindowMan} (shows : Shows start trail p)
    (returned : (p.runToBreakpoint fuel early pauses).returned = some left) :
    Shows start (recorded trail p (.run fuel early pauses)) left := by
  rw [earlyErased] at returned
  have watched : Shows start trail (p.watched pauses) := ⟨shows.window,shows.newest⟩
  have here := showsBoundary watched ((p.watched pauses).run RamBus.device hooks fuel).boundaries.length
  have boundaries := (DebugProcessor.runCount RamBus.device hooks (p.watched pauses) fuel).2
  have passed : recorded trail p (.run fuel early pauses) =
      ((List.range ((p.watched pauses).run RamBus.device hooks fuel).boundaries.length).map fun k =>
        ((p.watched pauses).boundary RamBus.device hooks (k+1)).pc).foldl record trail := by
    rw [recorded,earlyErased]
    exact congrArg (List.foldl record trail) ((congrArg (List.map DebugProcessor.pc) boundaries).trans List.map_map)
  rw [passed]
  obtain ⟨_,rfl | rfl⟩ := DebugProcessor.runLeaves returned
  · exact ⟨here.window,here.newest⟩
  · exact ⟨here.window,here.newest⟩

theorem showsReset {left : TestWindowMan} (shows : Shows start trail p) (returned : p.reset = some left) :
    Shows start (recorded trail p .reset) left := by
  simp only [recorded,returned,Option.map_some,Option.toList_some,List.singleton_append]
  obtain ⟨cpu,_,rfl⟩ := Option.map_eq_some_iff.mp returned
  exact ⟨shiftShows shows.window _,rfl⟩

theorem showsPerform {left : TestWindowMan} (shows : Shows start trail p) (c : WindowCommand)
    (done : p.perform c = some left) : Shows start (recorded trail p c) left := by
  cases c with
  | step =>
    cases Option.some.inj done
    exact showsStep (p := p.watched []) ⟨shows.window,shows.newest⟩
  | run fuel early pauses => exact showsRun shows done
  | reset => exact showsReset shows done
  | addBreakpoint addr =>
    cases Option.some.inj done
    exact ⟨shows.window,shows.newest⟩

theorem showsSession {left : TestWindowMan} {whole : List Uint16} {commands : List WindowCommand}
    (shows : Shows start trail p) (done : p.session trail commands = some (left,whole)) : Shows start whole left := by
  induction commands generalizing p trail with
  | nil =>
    cases Option.some.inj done
    exact shows
  | cons c commands ih =>
    obtain ⟨q,performed,rest⟩ := Option.bind_eq_some_iff.mp done
    exact ih (showsPerform shows c performed) rest

theorem constructShows (regs : Registers) (bus : RamBus) :
    Shows (construct regs bus).pc [(construct regs bus).pc] (construct regs bus) := by
  refine ⟨fun i => ?_,rfl⟩
  cases i using Fin.cases with
  | zero => simp [construct,entry,DebugProcessor.pc]
  | succ i =>
    simp only [construct,entry,DebugProcessor.pc,Fin.val_succ,List.getElem?_cons_succ,List.getElem?_nil,Option.map_none,
      Option.getD_none,List.length_singleton]
    omega

/-- After any commands the six entries are the newest of the trail, over the constructor's filling, and
the first is the pc the window highlights. -/
theorem previousPcsShown (regs : Registers) (bus : RamBus) (commands : List WindowCommand) (s : TestWindowMan)
    (trail : List Uint16)
    (done : (construct regs bus).session [(construct regs bus).pc] commands = some (s,trail)) :
    (∀ i : Fin 6, s.host.previousPcs i = entry (construct regs bus).pc trail i.val) ∧
      s.host.previousPcs 0 = s.pc.toNat := by
  have shows := showsSession (constructShows regs bus) done
  exact ⟨shows.window,showsFirst shows⟩

theorem trapShown : (construct Host.resetRegs trapBus).stepped.stepped.host.previousPcs 1 = 0x0400 :=
  ((previousPcsShown Host.resetRegs trapBus [.step,.step] _ _ rfl).1 1).trans rfl

/-! A run against step() alone: the same machine at every boundary, but for the run flags. -/

def settled (m : Machine RamBus) : Machine RamBus := ⟨m.cpu.withFlags false false,m.bus⟩

theorem settledStep (m : Machine RamBus) :
    (settled m).step RamBus.device = settled (m.step RamBus.device) := by
  have whole := DebugProcessor.executedWithFlags (d := RamBus.device) (⟨m,[],()⟩ : DebugProcessor RamBus Unit) false false
  exact congrArg DebugProcessor.machine whole

theorem sameStep {m n : Machine RamBus} (same : settled n = settled m) :
    settled (n.step RamBus.device) = settled (m.step RamBus.device) := by
  rw [← settledStep,same,settledStep]

theorem sameRegs {m n : Machine RamBus} (same : settled n = settled m) : n.cpu.regs = m.cpu.regs :=
  congrArg (fun m => m.cpu.regs) same

theorem sameBus {m n : Machine RamBus} (same : settled n = settled m) : n.bus = m.bus :=
  (congrArg Machine.bus same : (settled n).bus = (settled m).bus)

theorem callbackRest (p : TestWindowMan) : (runCallback p).1.machine = p.machine ∧
    (runCallback p).1.breakpoints = p.breakpoints ∧ (runCallback p).1.host.pauses = p.host.pauses.tail := by
  unfold runCallback
  dsimp only
  split <;> exact ⟨rfl,rfl,rfl⟩

theorem boundaryRest (p : TestWindowMan) (n : Nat) :
    settled (p.boundary RamBus.device hooks n).machine = settled (p.machine.steps n) ∧
      (p.boundary RamBus.device hooks n).breakpoints = p.breakpoints ∧
      (p.boundary RamBus.device hooks n).host.pauses = p.host.pauses.drop n := by
  induction n with
  | zero => exact ⟨rfl,rfl,rfl⟩
  | succ n ih =>
    obtain ⟨same,breakpoints,pauses⟩ := ih
    obtain ⟨machine,kept,popped⟩ := callbackRest ((p.boundary RamBus.device hooks n).executed RamBus.device)
    rw [DebugProcessor.boundarySucc,Machine.stepsLast]
    refine ⟨?_,kept.trans breakpoints,?_⟩
    · exact (congrArg settled machine).trans (sameStep same)
    · exact popped.trans ((congrArg List.tail pauses).trans List.tail_drop)

def Halts (p : TestWindowMan) (pauses : List Bool) (n : Nat) : Prop :=
  (p.machine.steps n).cpu.regs.pc ∈ p.breakpoints ∨
    ∃ k < n, (p.machine.steps k).Traps ∨ pauses[k]? = some true

theorem callbackAsks (p : TestWindowMan) :
    (runCallback p).2 = (decide (p.host.previousPcs 0 = p.pc.toNat) || p.host.pauses.headD false) := by
  unfold runCallback
  dsimp only
  split
  · rename_i same
    rw [decide_eq_true same]
    rfl
  · rename_i moved
    rw [decide_eq_false moved]
    rfl

theorem asksIff (shows : Shows start trail p) : p.asks RamBus.device hooks = true ↔
    (p.executed RamBus.device).pc = p.pc ∨ p.host.pauses.head? = some true := by
  have first : (p.executed RamBus.device).host.previousPcs 0 = p.pc.toNat := showsFirst shows
  have paused : (p.executed RamBus.device).host.pauses = p.host.pauses := rfl
  change (runCallback (p.executed RamBus.device)).2 = true ↔ _
  rw [callbackAsks,Bool.or_eq_true,decide_eq_true_iff,first,sameCount,paused]
  refine or_congr eq_comm ?_
  cases p.host.pauses <;> simp

theorem stopsIff {pauses : List Bool} (shows : Shows start trail p) (n : Nat) :
    (p.watched pauses).Stops RamBus.device hooks n ↔ p.Halts pauses n := by
  have watched : Shows start trail (p.watched pauses) := ⟨shows.window,shows.newest⟩
  obtain ⟨same,breakpoints,_⟩ := boundaryRest (p.watched pauses) n
  refine or_congr ?_ (exists_congr fun k => and_congr_right fun _ => ?_)
  · rw [breakpoints,DebugProcessor.pc,sameRegs same]
    rfl
  · obtain ⟨here,_,waiting⟩ := boundaryRest (p.watched pauses) k
    rw [asksIff (showsBoundary watched k),waiting,List.head?_drop]
    refine or_congr_left (Iff.of_eq (congrArg₂ (· = ·) ?_ ?_))
    · exact congrArg Registers.pc (sameRegs (sameStep here))
    · exact congrArg Registers.pc (sameRegs here)

end TestWindowMan
end Emu6502
