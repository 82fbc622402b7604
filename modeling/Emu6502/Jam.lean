import Emu6502.Session

/-! KIL on the base Bus. The opcode rewinds pc onto itself, which refetches it as long as
step() executes an instruction at all: an interrupt, decided before the fetch, leaves it. -/
namespace Emu6502
open Interaction

theorem kilInstruction : ∀ code, (instruction code).op = .kil → instruction code = ⟨.kil,.null,3⟩ := by
  decide

theorem kilInTime : ∀ code, (instruction code).op = .kil →
    (code == 0x58 || code == 0x78 || code == 0x28) = false := by
  decide

theorem kilBody (cpu : Processor) {code : Uint8} (kil : (instruction code).op = .kil) :
    cpu.instructionBody code = .done (3,cpu.regs) := by
  have rewound : cpu.regs.pc + 1 + 0 - 1 = cpu.regs.pc := by bv_omega
  simp only [Processor.instructionBody,kilInstruction code kil]
  show Program.done (3,{cpu.regs with pc := cpu.regs.pc + 1 + 0 - 1}) = _
  rw [rewound]

namespace Machine

theorem kilStep {m : Machine Bus} (free : m.cpu.executes = true)
    (kil : (instruction (m.bus.read m.cpu.regs.pc)).op = .kil) :
    m.served Bus.device = .executed (m.bus.read m.cpu.regs.pc) ∧
      (m.step Bus.device).cpu.regs = m.cpu.regs ∧ (m.step Bus.device).bus = m.bus ∧
        (m.step Bus.device).cpu.iFlagDelayed = false := by
  have whole := steppedExecute Bus.device free
  rw [show Bus.device.read m.bus m.cpu.regs.pc = (m.bus.read m.cpu.regs.pc,m.bus) from rfl] at whole
  simp only [kilBody m.cpu kil,Program.runDone] at whole
  simp only [served,step,whole]
  exact ⟨trivial,rfl,trivial,kilInTime _ kil⟩

/- Locked on `code` through a run: registers and bus as they are now after every part of
it, and every step() on the way executes `code`, so none services an interrupt. -/
def Locked (m : Machine Bus) (code : Uint8) (events : List Event) : Prop :=
  (∀ before, before <+: events →
    (m.run Bus.device before).cpu.regs = m.cpu.regs ∧ (m.run Bus.device before).bus = m.bus) ∧
  ∀ before, before ++ [.step] <+: events → (m.run Bus.device before).served Bus.device = .executed code

def Undisturbed (m : Machine Bus) : Prop := m.cpu.nmiPending = false ∧ (m.cpu.irqLine = false ∨ m.iFlag = true)

theorem undisturbedIff {m : Machine Bus} (inTime : m.cpu.iFlagDelayed = false) :
    m.Undisturbed ↔ m.cpu.executes = true := by
  simp only [Undisturbed,Processor.executes,Processor.masked,inTime,iFlag]
  cases m.cpu.nmiPending <;> cases m.cpu.irqLine <;> simp

structure Jammed (locked m : Machine Bus) : Prop where
  regs : m.cpu.regs = locked.cpu.regs
  bus : m.bus = locked.bus
  inTime : m.cpu.iFlagDelayed = false

theorem jammedEvent {locked m : Machine Bus} {code : Uint8} (kil : (instruction code).op = .kil)
    (next : locked.bus.read locked.cpu.regs.pc = code) (jammed : Jammed locked m) (e : Event)
    (calm : e = .step → m.cpu.executes = true) : Jammed locked (m.apply Bus.device e) := by
  cases e with
  | nmi => exact ⟨jammed.regs,jammed.bus,jammed.inTime⟩
  | irq asserted => exact ⟨jammed.regs,jammed.bus,jammed.inTime⟩
  | step =>
    have here : m.bus.read m.cpu.regs.pc = code := by rw [jammed.regs,jammed.bus,next]
    obtain ⟨_,regs,bus,inTime⟩ := kilStep (calm rfl) (here ▸ kil)
    exact ⟨regs.trans jammed.regs,bus.trans jammed.bus,inTime⟩

theorem jammedRun {locked : Machine Bus} {code : Uint8} (kil : (instruction code).op = .kil)
    (next : locked.bus.read locked.cpu.regs.pc = code) (inTime : locked.cpu.iFlagDelayed = false)
    {events : List Event}
    (calm : ∀ before, before ++ [.step] <+: events → Jammed locked (locked.run Bus.device before) →
      (locked.run Bus.device before).cpu.executes = true) :
    ∀ before, before <+: events → Jammed locked (locked.run Bus.device before) := by
  intro before part
  refine Transition.runInvariant (apply Bus.device) (I := Jammed locked) ⟨rfl,rfl,inTime⟩
    fun met member jammed => jammedEvent kil next jammed met.2 fun step => ?_
  obtain ⟨earlier,later,split,state⟩ := (Transition.historyPosition (apply Bus.device)).mp member
  have reached : met.1 = locked.run Bus.device earlier := state
  rw [reached] at jammed ⊢
  refine calm earlier (List.IsPrefix.trans ⟨later,?_⟩ part) jammed
  rw [split,step,List.append_assoc,List.singleton_append]

/- Once KIL has executed, a run leaves the processor locked exactly when none of its steps
meets a latched NMI, or an asserted line with I clear. -/
theorem kilLocks {m : Machine Bus} {code : Uint8} (ran : m.served Bus.device = .executed code)
    (kil : (instruction code).op = .kil) (events : List Event) :
    let locked := m.step Bus.device
    (locked.cpu.regs = m.cpu.regs ∧ locked.bus = m.bus ∧ locked.bus.read locked.cpu.regs.pc = code) ∧
      (locked.Locked code events ↔
        ∀ before, before ++ [.step] <+: events → (locked.run Bus.device before).Undisturbed) := by
  intro locked
  have free : m.cpu.executes = true := (m.isStepped Bus.device).executes ran
  have fetched : m.bus.read m.cpu.regs.pc = code := by
    exact (executedLeaves Bus.device ran).1
  obtain ⟨_,regs,bus,inTime⟩ := kilStep free (fetched ▸ kil)
  have next : locked.bus.read locked.cpu.regs.pc = code := by rw [regs,bus,fetched]
  refine ⟨⟨regs,bus,next⟩,?_⟩
  constructor
  · intro held before part
    have calm : ∀ before, before ++ [.step] <+: events → Jammed locked (locked.run Bus.device before) →
        (locked.run Bus.device before).cpu.executes = true :=
      fun before part _ => (isStepped Bus.device _).executes (held.2 before part)
    have jammed := jammedRun kil next inTime calm before ((List.prefix_append _ _).trans part)
    exact (undisturbedIff jammed.inTime).mpr (calm before part jammed)
  · intro quiet
    have calm : ∀ before, before ++ [.step] <+: events → Jammed locked (locked.run Bus.device before) →
        (locked.run Bus.device before).cpu.executes = true :=
      fun before part jammed => (undisturbedIff jammed.inTime).mp (quiet before part)
    have jammed := jammedRun kil next inTime calm
    refine ⟨fun before part => ⟨(jammed before part).regs,(jammed before part).bus⟩,fun before part => ?_⟩
    have here := jammed before ((List.prefix_append _ _).trans part)
    have opcode : (locked.run Bus.device before).bus.read (locked.run Bus.device before).cpu.regs.pc = code := by
      rw [here.regs,here.bus,next]
    rw [← opcode]
    exact (kilStep (calm before part here) (opcode ▸ kil)).1

theorem kilLocksUndisturbed :
    ((rig [(0x0400,0x02)]).step Bus.device).Locked 0x02 [.step,.step] := by
  have ran : (rig [(0x0400,0x02)]).served Bus.device = .executed 0x02 := rfl
  have locks := kilLocks ran (by decide) [.step,.step]
  refine locks.2.mpr fun before part => ?_
  match before with
  | [] => exact ⟨rfl,.inl (rfl)⟩
  | [e] =>
    cases (List.cons_prefix_cons.mp part).1
    exact ⟨rfl,.inl (rfl)⟩
  | _ :: _ :: _ => exact absurd part.length_le (by simp)

theorem kilLeftByNmi :
    (rig [(0x0400,0x02)]).served Bus.device = .executed 0x02 ∧ (instruction 0x02).op = .kil ∧
      ¬ ((rig [(0x0400,0x02)]).step Bus.device).Locked 0x02 [.nmi,.step] := by
  refine ⟨rfl,by decide,fun locked => ?_⟩
  have served := locked.2 [.nmi] (List.prefix_refl _)
  revert served
  decide

end Machine
end Emu6502
