import Emu6502.InterruptGate
import Emu6502.ByteArithmetic

/-! The host's side: I6502Emulator::start(false) and reset(false), clearInterrupts() and writes
to Registers and to what is on the bus, between steps. The processor of a host on one thread is never inside run(), so
the stop() in reset() returns; the structure carries that. -/
namespace Emu6502
open Interaction

structure Host (σ : Type) where
  machine : Machine σ
  idle : machine.cpu.running = false

-- decimalDisabled, which is how the chip is wired, is set apart from the session.
inductive HostOp (σ : Type) where
  | call (e : Event)
  | start
  | reset
  | clearInterrupts
  | writeI (v : Bool)
  | writeRegs (regs : Registers)
  | writeBus (bus : σ)

theorem Stepped.runFlagsKept {cpu next : Processor} {log : List (Access Uint16 Uint8)} {served : Served}
    (h : Stepped cpu log served next) : next.running = cpu.running ∧ next.stopping = cpu.stopping := by
  cases h <;> exact ⟨rfl,rfl⟩

theorem Stepped.lineKept {cpu next : Processor} {log : List (Access Uint16 Uint8)} {served : Served}
    (h : Stepped cpu log served next) : next.irqLine = cpu.irqLine := by
  cases h <;> rfl

theorem Stepped.lateIff {cpu next : Processor} {log : List (Access Uint16 Uint8)} {served : Served}
    (h : Stepped cpu log served next) (found : Bool) :
    next.iFlagDelayed = true ∧ next.iFlagBefore = found ↔
      (∃ code ∈ [0x58,0x78,0x28], served = .executed code) ∧ cpu.regs.getStatus flagI = found := by
  cases h with
  | nmi pending lo hi => simp [Processor.afterService]
  | irq quiet line clear lo hi => simp [Processor.afterService]
  | executed free code log cost regs path => simp [Processor.afterExecute,or_assoc]

namespace Machine
variable {σ : Type} (d : Device Uint16 Uint8 σ)

def mapRegs (m : Machine σ) (f : Registers → Registers) : Machine σ :=
  {m with cpu := {m.cpu with regs := f m.cpu.regs}}

theorem applyRunning (m : Machine σ) (e : Event) : (m.apply d e).cpu.running = m.cpu.running := by
  cases e with
  | step => exact (m.isStepped d).runFlagsKept.1
  | nmi => rfl
  | irq asserted => rfl

structure Restarted (cpu next : Processor) : Prop where
  running : next.running = cpu.running
  stopping : next.stopping = cpu.stopping
  decimal : next.regs.decimalDisabled = false
  inTime : next.iFlagDelayed = false

theorem startRestarts (m : Machine σ) : Restarted m.cpu (m.start d).cpu := by
  have every : m.cpu.start.Every fun _ next => Restarted m.cpu next := fun _ _ => ⟨rfl,rfl,rfl,rfl⟩
  exact Program.everyRun every d m.bus

end Machine

namespace Host
variable {σ : Type} (d : Device Uint16 Uint8 σ)

/- A processor as constructed, on registers and a bus the host prepared. -/
def construct (regs : Registers) (bus : σ) : Host σ := ⟨⟨{regs := regs},bus⟩,rfl⟩

def mapRegs (h : Host σ) (f : Registers → Registers) : Host σ := ⟨h.machine.mapRegs f,h.idle⟩

def call (h : Host σ) (e : Event) : Host σ :=
  ⟨h.machine.apply d e,(h.machine.applyRunning d e).trans h.idle⟩

def start (h : Host σ) : Host σ := ⟨h.machine.start d,(h.machine.startRestarts d).running.trans h.idle⟩

theorem stops (h : Host σ) : h.machine.cpu.stop = some h.machine.cpu.pause := by
  simp only [Processor.stop,Processor.pause,h.idle,Bool.false_eq_true,if_false]

def stop (h : Host σ) : Host σ where
  machine := {h.machine with cpu := h.machine.cpu.stop.get (by simp [h.stops])}
  idle := by simp [h.stops,Processor.pause,h.idle]

def reset (h : Host σ) : Host σ := h.stop.start d

def clearInterrupts (h : Host σ) : Host σ :=
  ⟨{h.machine with cpu := h.machine.cpu.clearInterrupts},h.idle⟩

def apply (h : Host σ) : HostOp σ → Host σ
  | .call e => h.call d e
  | .start => h.start d
  | .reset => h.reset d
  | .clearInterrupts => h.clearInterrupts
  | .writeI v => h.mapRegs fun regs => regs.setStatus flagI v
  | .writeRegs values => h.mapRegs fun regs => {values with decimalDisabled := regs.decimalDisabled}
  | .writeBus bus => ⟨{h.machine with bus := bus},h.idle⟩

def run (h : Host σ) (ops : List (HostOp σ)) : Host σ := Transition.run (apply d) h ops

def history (h : Host σ) (ops : List (HostOp σ)) : List (Host σ × HostOp σ) := Transition.history (apply d) h ops

theorem runAppend (h : Host σ) (first last : List (HostOp σ)) :
    h.run d (first ++ last) = (h.run d first).run d last := Transition.runAppend _ _ _ _

/-! Writes of I from outside. -/

def decisive : HostOp σ → Bool
  | .call .step | .start | .reset | .clearInterrupts => true
  | _ => false

def lastDecisive (h : Host σ) (ops : List (HostOp σ)) : Option (Host σ × HostOp σ) :=
  (h.history d ops).reverse.find? fun met => decisive met.2

/- The instruction behind the host's last step() is CLI, SEI or PLP, and found I at `found`. -/
def LateFrom (h : Host σ) (ops : List (HostOp σ)) (found : Bool) : Prop :=
  ∃ met, lastDecisive d h ops = some (met,.call .step) ∧
    met.machine.Executes d [0x58,0x78,0x28] ∧ met.machine.iFlag = found

theorem lastDecisiveAppend (h : Host σ) (ops : List (HostOp σ)) (op : HostOp σ) :
    h.lastDecisive d (ops ++ [op]) = if decisive op then some (h.run d ops,op) else h.lastDecisive d ops := by
  have grown : h.history d (ops ++ [op]) = h.history d ops ++ [(h.run d ops,op)] :=
    Transition.historyAppend (apply d) h ops [op]
  simp only [lastDecisive,grown,List.reverse_append,List.reverse_singleton,List.singleton_append]
  cases late : decisive op <;> simp [late]

theorem lateLatched {h : Host σ} (fresh : h.machine.cpu.iFlagDelayed = false) (ops : List (HostOp σ)) (found : Bool) :
    ((h.run d ops).machine.cpu.iFlagDelayed = true ∧ (h.run d ops).machine.cpu.iFlagBefore = found) ↔
      h.LateFrom d ops found := by
  induction ops using List.reverseRecOn with
  | nil => simp [run,fresh,LateFrom,lastDecisive,history]
  | append_singleton ops op ih =>
    have last : h.run d (ops ++ [op]) = (h.run d ops).apply d op := runAppend d h ops [op]
    rw [last,LateFrom,lastDecisiveAppend]
    cases op with
    | call e =>
      cases e with
      | step =>
        refine (((h.run d ops).machine.isStepped d).lateIff found).trans ?_
        simp [decisive,Machine.Executes,Machine.iFlag]
      | nmi => exact ih
      | irq asserted => exact ih
    | start =>
      have inTime := ((h.run d ops).machine.startRestarts d).inTime
      simp [apply,start,inTime,decisive]
    | reset =>
      have inTime := ((h.run d ops).stop.machine.startRestarts d).inTime
      simp [apply,reset,start,inTime,decisive]
    | clearInterrupts => simp [apply,clearInterrupts,Processor.clearInterrupts,decisive]
    | writeI v => exact ih
    | writeRegs values => exact ih
    | writeBus bus => exact ih

theorem hostWriteObeyed (regs : Registers) (bus : σ) (ops : List (HostOp σ)) (v : Bool)
    (line : ((construct regs bus).run d ops).machine.cpu.irqLine = true)
    (quiet : ((construct regs bus).run d ops).machine.cpu.nmiPending = false) :
    (((construct regs bus).run d (ops ++ [.writeI v])).machine.served d = .irq ↔ v = false) ↔
      ¬ (construct regs bus).LateFrom d ops (!v) := by
  have written : (construct regs bus).run d (ops ++ [.writeI v]) =
      ((construct regs bus).run d ops).mapRegs fun regs => regs.setStatus flagI v := runAppend d _ ops _
  rw [written,← lateLatched d rfl ops,Stepped.irqIff (Machine.isStepped d _)]
  have readBack := Registers.setStatusReads ((construct regs bus).run d ops).machine.cpu.regs flagI v (by decide)
  simp only [mapRegs,Machine.mapRegs,Processor.masked,line,quiet,readBack,true_and]
  cases ((construct regs bus).run d ops).machine.cpu.iFlagDelayed <;>
    cases ((construct regs bus).run d ops).machine.cpu.iFlagBefore <;> cases v <;> simp

def resetRegs : Registers := {a := 0, x := 0, y := 0, sr := flagU ||| flagI, sp := 0xfd, pc := 0x0400}

theorem hostClearObeyed :
    let host := construct resetRegs (Machine.rig [(0x0400,0xea)]).bus
    (host.run Bus.device [.call (.irq true),.writeI false]).machine.served Bus.device = .irq := by
  intro host
  have obeyed := hostWriteObeyed Bus.device resetRegs (Machine.rig [(0x0400,0xea)]).bus [.call (.irq true)]
    false rfl rfl
  refine (obeyed.mpr ?_).mpr rfl
  rintro ⟨met,last,_⟩
  contradiction

theorem hostClearIgnored :
    let host := construct resetRegs (Machine.rig [(0x0400,0x58)]).bus
    let reached := host.run Bus.device [.call (.irq true),.call .step]
    reached.machine.cpu.irqLine = true ∧ reached.machine.cpu.nmiPending = false ∧
      ¬ ((reached.apply Bus.device (.writeI false)).machine.served Bus.device = .irq ↔ false = false) := by
  decide

end Host

/-! Decimal mode, as the host wired it. -/

/- Add and subtract as the 2A03 does, D or not. ADC and RRA share the one core, SBC and
ISC the other. -/
structure BinaryArithmetic (regs : Registers) : Prop where
  sum (val : Uint8) : (adcCore regs val).a.toNat =
    (regs.a.toNat + val.toNat + (regs.getStatus flagC).toNat) % 256
  carry (val : Uint8) : (adcCore regs val).getStatus flagC =
    decide (256 ≤ regs.a.toNat + val.toNat + (regs.getStatus flagC).toNat)
  difference (val : Uint8) : (sbcCore regs val).a.toNat =
    (regs.a.toNat + 256 - val.toNat - (!regs.getStatus flagC).toNat) % 256
  borrow (val : Uint8) : (sbcCore regs val).getStatus flagC =
    decide (val.toNat + (!regs.getStatus flagC).toNat ≤ regs.a.toNat)

theorem wiredBinary {regs : Registers} (wired : regs.decimalDisabled = true) : BinaryArithmetic regs := by
  have mode : regs.decimalMode = false := binaryMode (.inr wired)
  constructor
  all_goals
    intro val
    have added := adcSum mode val
    have subtracted := sbcDifference mode val
    have addBound := (adcCore regs val).a.isLt
    have subtractBound := (sbcCore regs val).a.isLt
  case sum =>
    have := Bool.toNat_le ((adcCore regs val).getStatus flagC)
    omega
  case carry =>
    cases carry : (adcCore regs val).getStatus flagC
    all_goals
      rw [carry] at added
      simp only [Bool.toNat_true,Bool.toNat_false] at added
      symm
      simp only [decide_eq_true_eq,decide_eq_false_iff_not]
      omega
  case difference =>
    have := Bool.toNat_le (!(sbcCore regs val).getStatus flagC)
    omega
  case borrow =>
    cases carry : (sbcCore regs val).getStatus flagC
    all_goals
      rw [carry] at subtracted
      simp only [Bool.not_true,Bool.not_false,Bool.toNat_true,Bool.toNat_false] at subtracted
      symm
      simp only [decide_eq_true_eq,decide_eq_false_iff_not]
      omega

namespace Host
variable {σ : Type} (d : Device Uint16 Uint8 σ)

def restarts : HostOp σ → Bool
  | .start | .reset => true
  | _ => false

def decimalDisabled (h : Host σ) : Bool := h.machine.cpu.regs.decimalDisabled

theorem decimalApply (h : Host σ) (op : HostOp σ) :
    (h.apply d op).decimalDisabled = (h.decimalDisabled && !restarts op) := by
  cases op with
  | call e =>
    cases e with
    | step => exact (Program.everyRun (stepDecimal h.machine.cpu) d h.machine.bus).trans (Bool.and_true _).symm
    | nmi => exact (Bool.and_true _).symm
    | irq asserted => exact (Bool.and_true _).symm
  | start => exact (h.machine.startRestarts d).decimal.trans (Bool.and_false _).symm
  | reset => exact (h.stop.machine.startRestarts d).decimal.trans (Bool.and_false _).symm
  | clearInterrupts => exact (Bool.and_true _).symm
  | writeI v => exact (Bool.and_true _).symm
  | writeRegs values => exact (Bool.and_true _).symm
  | writeBus bus => exact (Bool.and_true _).symm

theorem decimalRun (h : Host σ) (ops : List (HostOp σ)) :
    (h.run d ops).decimalDisabled = (h.decimalDisabled && ops.all fun op => !restarts op) := by
  induction ops using List.reverseRecOn with
  | nil => simp [run]
  | append_singleton ops op ih =>
    have last : h.run d (ops ++ [op]) = (h.run d ops).apply d op := runAppend d h ops [op]
    rw [last,decimalApply,ih]
    simp [Bool.and_assoc]

/- A setting, and binary arithmetic where it was disabled, outlives exactly the sessions
that do not restart, or nothing was disabled. -/
theorem decimalKept (h : Host σ) (v : Bool) (ops : List (HostOp σ)) :
    let wired := h.mapRegs fun regs => {regs with decimalDisabled := v}
    let reached := (wired.run d ops).machine.cpu.regs
    (reached.decimalDisabled = v ∧ (v = true → BinaryArithmetic reached)) ↔
      v = false ∨ ∀ op ∈ ops, op ≠ .start ∧ op ≠ .reset := by
  intro wired reached
  have kept : reached.decimalDisabled = (v && ops.all fun op => !restarts op) := decimalRun d wired ops
  have noRestart : (ops.all fun op => !restarts op) = true ↔ ∀ op ∈ ops, op ≠ .start ∧ op ≠ .reset := by
    rw [List.all_eq_true]
    refine forall₂_congr fun op _ => ?_
    cases op <;> simp [restarts]
  rw [← noRestart,kept]
  cases v with
  | false => simp
  | true =>
    simp only [Bool.true_and,Bool.true_eq_false,false_or,and_iff_left_iff_imp,true_implies]
    intro same
    exact wiredBinary (kept.trans (by simpa using same))

theorem decimalLost :
    let host := (construct resetRegs (Machine.rig []).bus).mapRegs fun regs => {regs with decimalDisabled := true}
    (host.run Bus.device [.reset]).machine.cpu.regs.decimalDisabled ≠ true := by
  decide

end Host
end Emu6502
