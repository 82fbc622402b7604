import Emu6502.StatusByte

/-! Two runs under the same events. After a reset nothing of the processor's past shows in
a run; on a chip wired without decimal, D shows in none that does not push the status. -/
namespace Emu6502
open Interaction

namespace Machine
variable {σ : Type} (d : Device Uint16 Uint8 σ)

/- What a step() did: the branch it took and the accesses it made. Other calls show nothing. -/
def observed (met : Machine σ × Event) : Option (Served × List (Access Uint16 Uint8)) :=
  match met.2 with
  | .step => some (met.1.served d,met.1.accesses d)
  | _ => none

def trace (m : Machine σ) (events : List Event) : List (Option (Served × List (Access Uint16 Uint8))) :=
  (m.history d events).map (observed d)

end Machine

/- Equal but for m_running, m_stopping and an m_i_flag_before that the gate does not look at. -/
structure Indistinct (cpu other : Processor) : Prop where
  regs : cpu.regs = other.regs
  cycles : cpu.cycles = other.cycles
  nmi : cpu.nmiPending = other.nmiPending
  irq : cpu.irqLine = other.irqLine
  delayed : cpu.iFlagDelayed = other.iFlagDelayed
  before : cpu.iFlagDelayed = true → cpu.iFlagBefore = other.iFlagBefore

namespace Indistinct
variable {cpu other : Processor}

theorem masked (same : Indistinct cpu other) : cpu.masked = other.masked := by
  unfold Processor.masked
  rw [← same.delayed,← same.regs]
  split
  · rename_i late; exact same.before late
  · rfl

theorem service (same : Indistinct cpu other) (vector : Uint16) (served : Served) :
    Program.Related (fun out out' => out.1 = out'.1 ∧ Indistinct out.2 out'.2)
      ((serviceInterrupt vector).run cpu.regs >>= fun out => .done (served,{cpu with
        regs := out.2, cycles := cpu.cycles + out.1, nmiPending := false, iFlagDelayed := false}))
      ((serviceInterrupt vector).run other.regs >>= fun out => .done (served,{other with
        regs := out.2, cycles := other.cycles + out.1, nmiPending := false, iFlagDelayed := false})) := by
  rw [← same.regs]
  refine Program.relatedAfter _ fun out => ?_
  exact ⟨rfl,rfl,congrArg (· + out.1) same.cycles,rfl,same.irq,rfl,fun late => by contradiction⟩

theorem step (same : Indistinct cpu other) :
    Program.Related (fun out out' => out.1 = out'.1 ∧ Indistinct out.2 out'.2) cpu.step other.step := by
  by_cases pending : cpu.nmiPending = true
  · rw [Processor.stepNmi pending,Processor.stepNmi (same.nmi ▸ pending)]
    exact same.service 0xfffa .nmi
  rw [Bool.not_eq_true] at pending
  by_cases taken : cpu.irqLine = true ∧ cpu.masked = false
  · rw [Processor.stepIrq pending taken.1 taken.2,
      Processor.stepIrq (same.nmi ▸ pending) (same.irq ▸ taken.1) (same.masked ▸ taken.2)]
    exact same.service 0xfffe .irq
  · have free : cpu.executes = true := by
      cases line : cpu.irqLine <;> cases gate : cpu.masked <;> simp_all [Processor.executes]
    have otherFree : other.executes = true := by
      rwa [Processor.executes,← same.nmi,← same.irq,← same.masked]
    rw [Processor.stepExecute free,Processor.stepExecute otherFree,← same.regs]
    refine Program.relatedRead _ fun code => ?_
    have body : other.instructionBody code = cpu.instructionBody code := by
      simp only [Processor.instructionBody,same.regs]
    rw [body]
    refine Program.relatedAfter _ fun out => ?_
    exact ⟨rfl,rfl,congrArg (· + out.1) same.cycles,same.nmi,same.irq,rfl,fun _ => by
      simp only [Processor.afterExecute,same.regs]⟩

theorem start (cpu other : Processor) : Program.Related Indistinct cpu.start other.start :=
  Program.relatedRead _ fun _ => Program.relatedRead _ fun _ =>
    ⟨rfl,rfl,rfl,rfl,rfl,fun late => by contradiction⟩

end Indistinct

namespace Machine
variable {σ : Type} (d : Device Uint16 Uint8 σ)

theorem indistinctRuns {m n : Machine σ} (same : Indistinct m.cpu n.cpu ∧ m.bus = n.bus) (events : List Event) :
    m.trace d events = n.trace d events ∧
      Indistinct (m.run d events).cpu (n.run d events).cpu ∧ (m.run d events).bus = (n.run d events).bus := by
  refine Transition.runSimulates (apply d) (R := fun m (n : Machine σ) => Indistinct m.cpu n.cpu ∧ m.bus = n.bus) same
    fun met _ n related => ?_
  obtain ⟨⟨cpu,bus⟩,e⟩ := met
  obtain ⟨other,_⟩ := n
  obtain ⟨same,rfl⟩ := related
  cases e with
  | nmi => exact ⟨rfl,⟨same.regs,same.cycles,rfl,same.irq,same.delayed,same.before⟩,rfl⟩
  | irq asserted => exact ⟨rfl,⟨same.regs,same.cycles,same.nmi,rfl,same.delayed,same.before⟩,rfl⟩
  | step =>
    obtain ⟨log,state,served,left⟩ := Program.relatedRun same.step d bus
    exact ⟨congrArg some (Prod.ext served log),left,state⟩

/-- After start(false) on the same bus, whatever the two processors were: the same calls
make the same accesses, services, registers, memory and cycle counts, at every length. -/
theorem resetErasesHistory (cpu other : Processor) (bus : σ) (events : List Event) :
    let first := (⟨cpu,bus⟩ : Machine σ).start d
    let second := (⟨other,bus⟩ : Machine σ).start d
    (cpu.start.run d bus).log = (other.start.run d bus).log ∧
    first.trace d events = second.trace d events ∧
    (first.run d events).cpu.regs = (second.run d events).cpu.regs ∧
    (first.run d events).bus = (second.run d events).bus ∧
    (first.run d events).cpu.cycles = (second.run d events).cpu.cycles := by
  intro first second
  obtain ⟨log,state,same⟩ := Program.relatedRun (Indistinct.start cpu other) d bus
  obtain ⟨trace,last,bus⟩ := indistinctRuns d (m := first) (n := second) ⟨same,state⟩ events
  exact ⟨log,trace,last.regs,bus,last.cycles⟩

end Machine
end Emu6502
