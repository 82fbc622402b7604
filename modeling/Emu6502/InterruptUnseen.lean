import Emu6502.HostSession
import Emu6502.RoundTrip
import Emu6502.RunLocality
import Emu6502.TwoRuns

/-! An interrupt the main program cannot see. A handler that hands A, X and Y back and returns
by RTI over the frame it was entered with leaves the registers as the service found them; the
rest is what the handler did to memory, and time. -/
namespace Emu6502
open Interaction

theorem Stepped.cyclesGrow {cpu next : Processor} {log : List (Access Uint16 Uint8)} {served : Served}
    (h : Stepped cpu log served next) : cpu.cycles ≤ next.cycles := by
  cases h <;> exact Nat.le_add_right _ _

theorem registersEq {regs other : Registers} (a : regs.a = other.a) (x : regs.x = other.x) (y : regs.y = other.y)
    (sr : regs.sr = other.sr) (sp : regs.sp = other.sp) (pc : regs.pc = other.pc)
    (decimal : regs.decimalDisabled = other.decimalDisabled) : regs = other := by
  cases regs
  cases other
  simp_all

def OnlyLater (wait : Nat) (cpu other : Processor) : Prop := other = cpu.waitCycles wait

theorem laterSwap (cpu : Processor) (wait cost : Nat) :
    (cpu.waitCycles wait).cycles + cost = cpu.cycles + cost + wait := Nat.add_right_comm _ _ _

theorem laterStep (wait : Nat) (cpu : Processor) :
    Program.Related (fun out out' => out'.1 = out.1 ∧ OnlyLater wait out.2 out'.2) cpu.step (cpu.waitCycles wait).step := by
  by_cases pending : cpu.nmiPending = true
  · have same : (cpu.waitCycles wait).nmiPending = true := pending
    rw [Processor.stepNmi pending,Processor.stepNmi same]
    refine Program.relatedAfter _ fun out => ⟨rfl,?_⟩
    simp only [OnlyLater,laterSwap]
    rfl
  rw [Bool.not_eq_true] at pending
  have quiet : (cpu.waitCycles wait).nmiPending = false := pending
  by_cases taken : cpu.irqLine = true ∧ cpu.masked = false
  · have alike : (cpu.waitCycles wait).irqLine = true ∧ (cpu.waitCycles wait).masked = false := taken
    rw [Processor.stepIrq pending taken.1 taken.2,Processor.stepIrq quiet alike.1 alike.2]
    refine Program.relatedAfter _ fun out => ⟨rfl,?_⟩
    simp only [OnlyLater,laterSwap]
    rfl
  · have free : cpu.executes = true := by
      cases line : cpu.irqLine <;> cases gate : cpu.masked <;> simp_all [Processor.executes]
    have otherFree : (cpu.waitCycles wait).executes = true := free
    rw [Processor.stepExecute free,Processor.stepExecute otherFree]
    refine Program.relatedRead _ fun code => ?_
    have body : (cpu.waitCycles wait).instructionBody code = cpu.instructionBody code := rfl
    rw [body]
    refine Program.relatedAfter _ fun out => ⟨rfl,?_⟩
    simp only [OnlyLater,Processor.afterExecute,laterSwap]
    rfl

namespace Machine
variable {σ : Type} (d : Device Uint16 Uint8 σ)

theorem laterRun (m : Machine σ) (wait : Nat) (events : List Event) :
    m.trace d events = (⟨m.cpu.waitCycles wait,m.bus⟩ : Machine σ).trace d events ∧
      OnlyLater wait (m.run d events).cpu ((⟨m.cpu.waitCycles wait,m.bus⟩ : Machine σ).run d events).cpu ∧
      (m.run d events).bus = ((⟨m.cpu.waitCycles wait,m.bus⟩ : Machine σ).run d events).bus := by
  refine Transition.runSimulates (apply d) (R := fun m (n : Machine σ) => OnlyLater wait m.cpu n.cpu ∧ m.bus = n.bus)
    ⟨rfl,rfl⟩ fun met _ n related => ?_
  obtain ⟨⟨cpu,bus⟩,e⟩ := met
  obtain ⟨other,_⟩ := n
  obtain ⟨rfl,rfl⟩ := related
  cases e with
  | nmi => exact ⟨rfl,rfl,rfl⟩
  | irq asserted => exact ⟨rfl,rfl,rfl⟩
  | step =>
    obtain ⟨log,state,served,left⟩ := Program.relatedRun (laterStep wait cpu) d bus
    exact ⟨congrArg some (Prod.ext served.symm log),left,state⟩

theorem cyclesGrow (m : Machine σ) (events : List Event) : m.cpu.cycles ≤ (m.run d events).cpu.cycles := by
  refine Transition.runInvariant (apply d) (I := fun later => m.cpu.cycles ≤ later.cpu.cycles) (Nat.le_refl _) ?_
  intro met _ grown
  refine Nat.le_trans grown ?_
  cases met.2 with
  | step => exact (met.1.isStepped d).cyclesGrow
  | nmi => exact Nat.le_refl _
  | irq asserted => exact Nat.le_refl _

/- A run's accesses are in its trace. -/
theorem traceLog (m : Machine σ) (events : List Event) :
    m.runLog d events = (m.trace d events).flatMap fun seen => (seen.map Prod.snd).getD [] := by
  rw [runLog,trace,List.flatMap_map]
  refine congrArg (List.flatMap · _) (funext fun met => ?_)
  obtain ⟨met,e⟩ := met
  cases e <;> rfl

def entered (m : Machine RamBus) (call : Event) : Machine RamBus := (m.apply RamBus.device call).step RamBus.device

def returning (m : Machine RamBus) (call : Event) (handler : List Event) : Machine RamBus :=
  (m.entered call).run RamBus.device handler

def returned (m : Machine RamBus) (call : Event) (handler : List Event) : Machine RamBus :=
  (m.returning call handler).step RamBus.device

structure Handled (m : Machine RamBus) (call : Event) (handler : List Event) : Prop where
  called : call = .nmi ∨ call = .irq true
  taken : (m.apply RamBus.device call).served RamBus.device = .nmi ∨
    (m.apply RamBus.device call).served RamBus.device = .irq
  frame : Preserved (m.entered call) (m.returning call handler) 3
  a : (m.returning call handler).cpu.regs.a = m.cpu.regs.a
  x : (m.returning call handler).cpu.regs.x = m.cpu.regs.x
  y : (m.returning call handler).cpu.regs.y = m.cpu.regs.y
  released : (m.returning call handler).cpu.irqLine = false
  returns : (m.returning call handler).served RamBus.device = .executed 0x40

/- Nothing asked of the processor, and no flag still in flight. -/
structure Quiet (cpu : Processor) : Prop where
  formed : cpu.regs.StatusFormed
  nmi : cpu.nmiPending = false
  irq : cpu.irqLine = false
  inTime : cpu.iFlagDelayed = false

section handled
variable {m : Machine RamBus} {call : Event} {handler : List Event}

theorem returnedRun (m : Machine RamBus) (call : Event) (handler : List Event) :
    m.returned call handler = m.run RamBus.device (call :: .step :: handler ++ [.step]) :=
  (runAppend RamBus.device m (call :: .step :: handler) [.step]).symm

theorem returnedBytes {a : Uint16} (differs : (m.returned call handler).byte a ≠ m.byte a) :
    writes a (m.runLog RamBus.device (call :: .step :: handler ++ [.step])) = true := by
  rw [returnedRun] at differs
  by_contra unwritten
  exact differs (byteFrame (Bool.not_eq_true _ ▸ unwritten))

theorem runDecimal {σ : Type} (d : Device Uint16 Uint8 σ) (m : Machine σ) (events : List Event) :
    (m.run d events).cpu.regs.decimalDisabled = m.cpu.regs.decimalDisabled := by
  refine Transition.runInvariant (apply d)
    (I := fun later => later.cpu.regs.decimalDisabled = m.cpu.regs.decimalDisabled) rfl fun met _ same => ?_
  refine Eq.trans ?_ same
  cases met.2 with
  | step => exact Program.everyRun (stepDecimal met.1.cpu) d met.1.bus
  | nmi => rfl
  | irq asserted => rfl

theorem callKeepsRegs (called : call = .nmi ∨ call = .irq true) :
    (m.apply RamBus.device call).cpu.regs = m.cpu.regs := by
  rcases called with rfl | rfl <;> rfl

/- The registers the service found are the ones the return leaves. -/
theorem returnedRegs (formed : m.cpu.regs.StatusFormed) (handled : Handled m call handler) :
    (m.returned call handler).cpu.regs = m.cpu.regs := by
  have found := callKeepsRegs (m := m) handled.called
  obtain ⟨sp,stacked⟩ := serviceStacks handled.taken
  rw [found] at sp stacked
  obtain ⟨spBack,pc,sr⟩ := rtiUnstacks handled.returns (preservedFrame handled.frame stacked)
  obtain ⟨_,regs,_⟩ := executedLeaves RamBus.device handled.returns
  have thrice : m.cpu.regs.sp - 1 - 1 - 1 + 1 + 1 + 1 = m.cpu.regs.sp := by bv_omega
  have decimal := runDecimal RamBus.device m (call :: .step :: handler ++ [.step])
  rw [← returnedRun] at decimal
  rw [handled.frame.sp,show (m.entered call).cpu.regs.sp = _ from sp,thrice] at spBack
  rw [wordBytes] at pc
  refine registersEq ?_ ?_ ?_ ?_ spBack pc decimal
  · exact (congrArg Registers.a regs).trans handled.a
  · exact (congrArg Registers.x regs).trans handled.x
  · exact (congrArg Registers.y regs).trans handled.y
  · exact sr.trans (pulledPushed formed .hardware)

theorem returnedIndistinct (quiet : Quiet m.cpu) (handled : Handled m call handler) :
    Indistinct (m.cpu.waitCycles ((m.returned call handler).cpu.cycles - m.cpu.cycles)) (m.returned call handler).cpu := by
  have stepped := (m.returning call handler).isStepped RamBus.device
  have grown := cyclesGrow RamBus.device m (call :: .step :: handler ++ [.step])
  rw [← returnedRun] at grown
  have inTime : (m.returned call handler).cpu.iFlagDelayed = false := by
    refine Bool.eq_false_iff.mpr fun late => ?_
    obtain ⟨⟨code,listed,ran⟩,_⟩ := (stepped.lateIff _).mp ⟨late,rfl⟩
    cases Served.executed.inj (handled.returns.symm.trans ran)
    contradiction
  refine ⟨(returnedRegs quiet.formed handled).symm,Nat.add_sub_cancel' grown,quiet.nmi.trans stepped.nmiTaken.symm,?_,
    quiet.inTime.trans inTime.symm,fun late => ?_⟩
  · exact quiet.irq.trans (stepped.lineKept.trans handled.released).symm
  · exact absurd (quiet.inTime.symm.trans late) Bool.false_ne_true

/- The main program goes on, under whatever is called next, as if it had not been interrupted. -/
theorem interruptUnseen (m : Machine RamBus) (call : Event) (handler later : List Event) (quiet : Quiet m.cpu)
    (handled : Handled m call handler)
    (apart : ∀ a, (m.returned call handler).byte a ≠ m.byte a → asks a (m.runLog RamBus.device later) = false) :
    let resumed := m.returned call handler
    resumed.cpu.regs = m.cpu.regs ∧
    resumed.runLog RamBus.device later = m.runLog RamBus.device later ∧
    (∀ before, before <+: later →
      (resumed.run RamBus.device before).cpu.regs = (m.run RamBus.device before).cpu.regs ∧
      (resumed.run RamBus.device before).cpu.cycles =
        (m.run RamBus.device before).cpu.cycles + (resumed.cpu.cycles - m.cpu.cycles)) ∧
    ∀ a, (resumed.run RamBus.device later).byte a =
      if writes a (m.runLog RamBus.device later) then (m.run RamBus.device later).byte a else resumed.byte a := by
  intro resumed
  have same := returnedIndistinct quiet handled
  -- The interrupted processor on the memory the interrupt found: only time has passed.
  let between : Machine RamBus := ⟨resumed.cpu,m.bus⟩
  have onTime : ∀ events, between.runLog RamBus.device events = m.runLog RamBus.device events ∧
      (between.run RamBus.device events).cpu.regs = (m.run RamBus.device events).cpu.regs ∧
      (between.run RamBus.device events).cpu.cycles =
        (m.run RamBus.device events).cpu.cycles + (resumed.cpu.cycles - m.cpu.cycles) ∧
      (between.run RamBus.device events).bus = (m.run RamBus.device events).bus := by
    intro events
    obtain ⟨trace,after,bus⟩ := laterRun RamBus.device m (resumed.cpu.cycles - m.cpu.cycles) events
    obtain ⟨other,indistinct,left⟩ := indistinctRuns RamBus.device
      (m := ⟨m.cpu.waitCycles (resumed.cpu.cycles - m.cpu.cycles),m.bus⟩) (n := between) ⟨same,rfl⟩ events
    rw [OnlyLater] at after
    refine ⟨?_,?_,?_,left.symm.trans bus.symm⟩
    · rw [traceLog,traceLog,trace,other]
    · rw [← indistinct.regs,after]
      rfl
    · rw [← indistinct.cycles,after]
      rfl
  have silent : ∀ a, resumed.byte a ≠ between.byte a → asks a (between.runLog RamBus.device later) = false := by
    rw [(onTime later).1]
    exact apart
  obtain ⟨_,log,bytes⟩ := localRun (m := between) (n := resumed) rfl silent
  refine ⟨returnedRegs quiet.formed handled,log.trans (onTime later).1,fun before within => ?_,fun a => ?_⟩
  · have alike := (localRun (m := between) (n := resumed) rfl fun a differs => asksPrefix within (silent a differs)).1
    rw [alike]
    exact ⟨(onTime before).2.1,(onTime before).2.2.1⟩
  · have left : ∀ a, (between.run RamBus.device later).byte a = (m.run RamBus.device later).byte a := by
      intro a
      rw [byte,(onTime later).2.2.2]
      rfl
    rw [bytes,(onTime later).1,left]

end handled

/- An NMI ahead of INX and STX $80. The handler is PHA, LDA #$05, STA $90, PLA and RTI. -/
def handlerRig : Machine RamBus :=
  ramRig [(0xfffb,0x05),(0x0500,0x48),(0x0501,0xa9),(0x0502,0x05),(0x0503,0x85),(0x0504,0x90),(0x0505,0x68),(0x0506,0x40),
    (0x0400,0xe8),(0x0401,0x86),(0x0402,0x80)]

theorem handlerHandled : Handled handlerRig .nmi [.step,.step,.step,.step] where
  called := .inl rfl
  taken := .inl rfl
  frame := by
    refine ⟨by decide +kernel,fun k first last => ?_⟩
    obtain rfl | rfl | rfl : k = 1 ∨ k = 2 ∨ k = 3 := by omega
    all_goals decide +kernel
  a := by decide +kernel
  x := by decide +kernel
  y := by decide +kernel
  released := by decide +kernel
  returns := by decide +kernel

theorem handlerApart {a : Uint16} (differs : (handlerRig.returned .nmi [.step,.step,.step,.step]).byte a ≠ handlerRig.byte a) :
    asks a (handlerRig.runLog RamBus.device [.step,.step]) = false := by
  have log : handlerRig.runLog RamBus.device (.nmi :: .step :: [.step,.step,.step,.step] ++ [.step]) =
      [.write 0x01fd 0x04,.write 0x01fc 0x00,.write 0x01fb 0x20,.read 0xfffa 0x00,.read 0xfffb 0x05,
        .read 0x0500 0x48,.write 0x01fa 0x00,.read 0x0501 0xa9,.read 0x0502 0x05,.read 0x0503 0x85,.read 0x0504 0x90,
        .write 0x0090 0x05,.read 0x0505 0x68,.read 0x01fa 0x00,
        .read 0x0506 0x40,.read 0x01fb 0x20,.read 0x01fc 0x00,.read 0x01fd 0x04] := by decide +kernel
  have written := returnedBytes differs
  rw [log] at written
  simp only [writesWrite,writesRead,writesNil,Bool.or_false,Bool.or_eq_true,decide_eq_true_eq] at written
  rcases written with rfl | rfl | rfl | rfl | rfl <;> decide +kernel

theorem handlerUnseen :
    let resumed := handlerRig.returned .nmi [.step,.step,.step,.step]
    (resumed.run RamBus.device [.step,.step]).cpu.regs = (handlerRig.run RamBus.device [.step,.step]).cpu.regs ∧
      (resumed.run RamBus.device [.step,.step]).cpu.cycles =
        (handlerRig.run RamBus.device [.step,.step]).cpu.cycles + 25 := by
  have quiet : Quiet handlerRig.cpu := ⟨by unfold Registers.StatusFormed; decide +kernel,rfl,rfl,rfl⟩
  have spent : (handlerRig.returned .nmi [.step,.step,.step,.step]).cpu.cycles - handlerRig.cpu.cycles = 25 := by
    decide +kernel
  have later := (interruptUnseen handlerRig .nmi [.step,.step,.step,.step] [.step,.step] quiet handlerHandled
    fun _ differs => handlerApart differs).2.2.1 [.step,.step] List.prefix_rfl
  rw [spent] at later
  exact later

end Machine
end Emu6502
