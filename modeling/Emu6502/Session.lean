import Emu6502.Memory
import Emu6502.BusPattern
import Emu6502.Lib.Transition

/-! A processor with a device on its bus, driven from outside: step() calls with
nmi() and irq() calls between them. Nobody else writes registers or memory. -/
namespace Emu6502
open Interaction

structure Machine (σ : Type) where
  cpu : Processor
  bus : σ

inductive Event where
  | step
  | nmi
  | irq (asserted : Bool)
  deriving DecidableEq, Repr

namespace Machine
variable {σ : Type} (d : Device Uint16 Uint8 σ)

def stepped (m : Machine σ) : Outcome Uint16 Uint8 σ (Served × Processor) := m.cpu.step.run d m.bus

def step (m : Machine σ) : Machine σ := ⟨(m.stepped d).result.2,(m.stepped d).state⟩

def served (m : Machine σ) : Served := (m.stepped d).result.1

def accesses (m : Machine σ) : List (Access Uint16 Uint8) := (m.stepped d).log

def Executes (m : Machine σ) (codes : List Uint8) : Prop := ∃ code ∈ codes, m.served d = .executed code

def iFlag (m : Machine σ) : Bool := m.cpu.regs.getStatus flagI

def apply (m : Machine σ) : Event → Machine σ
  | .step => m.step d
  | .nmi => {m with cpu := m.cpu.nmi}
  | .irq asserted => {m with cpu := m.cpu.irq asserted}

def run (m : Machine σ) (events : List Event) : Machine σ := Transition.run (apply d) m events

def history (m : Machine σ) (events : List Event) : List (Machine σ × Event) :=
  Transition.history (apply d) m events

def start (m : Machine σ) : Machine σ :=
  let outcome := m.cpu.start.run d m.bus
  ⟨outcome.result,outcome.state⟩

/- The test rig: 64 KB of RAM, zero but for the given bytes, with pc at $0400. -/
def rig (cells : List (Uint16 × Uint8)) : Machine Bus where
  cpu := {regs := {a := 0, x := 0, y := 0, sr := flagU, sp := 0xfd, pc := 0x0400}}
  bus := ⟨some (cells.foldl (fun mem cell => mem.write cell.1 cell.2) (Memory.ofPages 256))⟩

theorem rigRam (cells : List (Uint16 × Uint8)) : (rig cells).bus.Ram := by
  suffices kept : ∀ mem : Memory, mem.pages = 256 →
      (cells.foldl (fun mem cell => mem.write cell.1 cell.2) mem).pages = 256 from ⟨_,rfl,kept _ rfl⟩
  induction cells with
  | nil => exact fun _ full => full
  | cons cell cells ih => exact fun mem full => ih (mem.write cell.1 cell.2) full

def ramRig (cells : List (Uint16 × Uint8)) : Machine RamBus := ⟨(rig cells).cpu,(rig cells).bus,rigRam cells⟩

theorem steppedOfEvery {m : Machine σ} {Q : List (Access Uint16 Uint8) → Served × Processor → Prop}
    (h : m.cpu.step.Every Q) : Q (m.accesses d) (m.served d,(m.step d).cpu) :=
  Program.everyRun h d m.bus

theorem isStepped (m : Machine σ) : Stepped m.cpu (m.accesses d) (m.served d) (m.step d).cpu :=
  steppedOfEvery d (everyStepped m.cpu)

/- What an instruction does on every path, a step that executes it has done. -/
theorem executedEvery {m : Machine σ} {code : Uint8} {Q : List (Access Uint16 Uint8) → Nat × Registers → Prop}
    (ran : m.served d = .executed code) (every : (m.cpu.instructionBody code).Every Q) :
    ∃ log cost, m.accesses d = .read m.cpu.regs.pc code :: log ∧ Q log (cost,(m.step d).cpu.regs) := by
  have stepped := m.isStepped d
  rw [ran] at stepped
  generalize m.accesses d = log at stepped
  generalize (m.step d).cpu = next at stepped
  cases stepped with
  | executed free code log cost regs path => exact ⟨log,cost,rfl,path _ every⟩

theorem steppedExecute {m : Machine σ} (free : m.cpu.executes = true) :
    m.stepped d =
      let fetched := d.read m.bus m.cpu.regs.pc
      let out := (m.cpu.instructionBody fetched.1).run d fetched.2
      ⟨(.executed fetched.1,m.cpu.afterExecute fetched.1 out.result.1 out.result.2),out.state,
        .read m.cpu.regs.pc fetched.1 :: out.log⟩ := by
  simp only [stepped,Processor.stepExecute free,Program.runRead,Program.runBind,Program.runDone,
    List.append_nil]

theorem executedLeaves {m : Machine σ} {code : Uint8} (ran : m.served d = .executed code) :
    let fetched := d.read m.bus m.cpu.regs.pc
    let out := (m.cpu.instructionBody code).run d fetched.2
    fetched.1 = code ∧ (m.step d).cpu.regs = out.result.2 ∧ (m.step d).bus = out.state := by
  have whole := steppedExecute d ((m.isStepped d).executes ran)
  have fetched : (d.read m.bus m.cpu.regs.pc).1 = code := by
    rw [served,whole] at ran
    exact Served.executed.inj ran
  simp only [step,whole,fetched]
  exact ⟨trivial,rfl,trivial⟩

theorem servicedLeaves {m : Machine σ} (service : m.served d = .nmi ∨ m.served d = .irq) :
    ∃ vector, let out := ((serviceInterrupt vector).run m.cpu.regs).run d m.bus
      (m.step d).cpu.regs = out.result.2 ∧ (m.step d).bus = out.state := by
  rcases service with nmi | irq
  · have pending := (m.isStepped d).nmiIff.mp nmi
    refine ⟨0xfffa,?_⟩
    simp only [step,stepped,Processor.stepNmi pending,Program.runBind,Program.runDone]
    exact ⟨trivial,trivial⟩
  · obtain ⟨quiet,line,clear⟩ := (m.isStepped d).irqIff.mp irq
    refine ⟨0xfffe,?_⟩
    simp only [step,stepped,Processor.stepIrq quiet line clear,Program.runBind,Program.runDone]
    exact ⟨trivial,trivial⟩

theorem runAppend (m : Machine σ) (first last : List Event) :
    m.run d (first ++ last) = (m.run d first).run d last := Transition.runAppend _ _ _ _

@[simp] theorem runCons (m : Machine σ) (e : Event) (events : List Event) :
    m.run d (e :: events) = (m.apply d e).run d events := rfl

@[simp] theorem runNil (m : Machine σ) : m.run d [] = m := rfl

theorem historySplit (m : Machine σ) (first : List Event) (e : Event) (last : List Event) :
    m.history d (first ++ e :: last) =
      m.history d first ++ (m.run d first,e) :: ((m.run d first).apply d e).history d last :=
  Transition.historyAppend (apply d) m first (e :: last)

end Machine
end Emu6502
