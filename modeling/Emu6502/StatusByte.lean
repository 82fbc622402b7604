import Emu6502.Session
import Emu6502.RegisterFrame

/-! The two bits of the status register that are not flags: bit 5 reads as set and B as
clear in every state a run reaches, and the bytes pushed differ from the register in B only. -/
namespace Emu6502
open Interaction

def unflagged : Uint8 := flagU ||| flagB

def Registers.StatusFormed (regs : Registers) : Prop := regs.sr &&& unflagged = flagU

theorem formedBits {regs : Registers} (formed : regs.StatusFormed) :
    regs.getStatus flagU = true ∧ regs.getStatus flagB = false := by
  have bits : ∀ sr : Uint8, sr &&& unflagged = flagU →
      (sr &&& flagU != 0) = true ∧ (sr &&& flagB != 0) = false := by decide
  exact bits regs.sr formed

def FormKept (before after : Registers) : Prop := before.StatusFormed → after.StatusFormed

theorem formFrame : Frame FormKept where
  refl _ formed := formed
  trans first second formed := second (first formed)
  jump _ _ formed := formed

theorem pulledFormed : ∀ val, pulledStatus val &&& unflagged = flagU := by decide

theorem serviceFormed {regs : Registers} (formed : regs.StatusFormed) (lo hi : Uint8) :
    (serviceRegs regs lo hi).StatusFormed :=
  (Registers.setStatusKeeps regs flagI true (by decide)).trans formed

theorem opFormWithin (op : Op) : op.template.Within FormKept := by
  by_cases pulls : op.statusWrites &&& unflagged = 0
  · refine (opStatusWithin op pulls).mono fun before after kept formed => ?_
    exact kept.trans formed
  · cases op
    case plp => exact fun regs val _ => pulledFormed val
    case rti => exact fun regs val _ => pulledFormed val
    case shx reg => exact absurd BitVec.zero_and pulls
    all_goals exact absurd rfl pulls

theorem Stepped.formed {cpu next : Processor} {log : List (Access Uint16 Uint8)} {served : Served}
    (h : Stepped cpu log served next) (formed : cpu.regs.StatusFormed) : next.regs.StatusFormed := by
  cases h with
  | nmi pending lo hi => exact serviceFormed formed lo hi
  | irq quiet line clear lo hi => exact serviceFormed formed lo hi
  | executed free code log cost regs path =>
    exact path _ (instructionFrame formFrame cpu code (opFormWithin _)) formed

/-- The access by which a step() pushes the status register: the third of an interrupt
sequence, the fourth of BRK behind its opcode, the second of PHP. -/
def statusPush (served : Served) (log : List (Access Uint16 Uint8)) : Option (Access Uint16 Uint8) :=
  match served with
  | .nmi | .irq => log[2]?
  | .executed code =>
    match (instruction code).op with
    | .brk => log[3]?
    | .php => log[1]?
    | _ => none

inductive Pusher where
  | software
  | hardware
  deriving DecidableEq, Repr

def Served.pusher (served : Served) : Option Pusher :=
  match served with
  | .nmi | .irq => some .hardware
  | .executed code =>
    match (instruction code).op with
    | .brk | .php => some .software
    | _ => none

def pushedStatus (sr : Uint8) : Pusher → Uint8
  | .software => sr ||| flagB ||| flagU
  | .hardware => (sr &&& ~~~flagB) ||| flagU

theorem brkOpcode : ∀ code, (instruction code).op = .brk → code = 0x00 := by decide +kernel

theorem phpOpcode : ∀ code, (instruction code).op = .php → code = 0x08 := by decide

theorem Stepped.pushesStatus {cpu next : Processor} {log : List (Access Uint16 Uint8)} {served : Served}
    (h : Stepped cpu log served next) :
    ∃ sp, statusPush served log =
      served.pusher.map fun pusher => .write (stackAddress sp) (pushedStatus cpu.regs.sr pusher) := by
  cases h with
  | nmi pending lo hi => exact ⟨_,rfl⟩
  | irq quiet line clear lo hi => exact ⟨_,rfl⟩
  | executed free code log cost regs path =>
    by_cases brk : (instruction code).op = .brk
    · cases brkOpcode code brk
      exact path (fun log _ => ∃ sp, log[2]? = some (.write (stackAddress sp) (pushedStatus cpu.regs.sr .software)))
        fun lo hi => ⟨_,rfl⟩
    by_cases php : (instruction code).op = .php
    · cases phpOpcode code php
      exact path (fun log _ => ∃ sp, log[0]? = some (.write (stackAddress sp) (pushedStatus cpu.regs.sr .software)))
        ⟨_,rfl⟩
    · refine ⟨0,?_⟩
      simp only [statusPush,Served.pusher]
      rfl

theorem pushedUnused (sr : Uint8) (pusher : Pusher) : pushedStatus sr pusher &&& flagU = flagU := by
  revert sr
  cases pusher <;> decide

theorem pushedBreak (sr : Uint8) (pusher : Pusher) :
    pushedStatus sr pusher &&& flagB = if pusher = .software then flagB else 0 := by
  revert sr
  cases pusher <;> decide

theorem pushedFlags (sr : Uint8) (pusher : Pusher) :
    pushedStatus sr pusher &&& ~~~unflagged = sr &&& ~~~unflagged := by
  revert sr
  cases pusher <;> decide

namespace Machine
variable {σ : Type} (d : Device Uint16 Uint8 σ)

theorem runFormed {m : Machine σ} (formed : m.cpu.regs.StatusFormed) (events : List Event) :
    (m.run d events).cpu.regs.StatusFormed := by
  refine Transition.runInvariant (apply d) (I := fun n => n.cpu.regs.StatusFormed) formed fun met _ held => ?_
  obtain ⟨n,e⟩ := met
  cases e with
  | step => exact (n.isStepped d).formed held
  | nmi => exact held
  | irq asserted => exact held

theorem startFormed (m : Machine σ) : (m.start d).cpu.regs.StatusFormed := by
  have written : m.cpu.start.Every fun _ cpu => cpu.regs.sr = flagU ||| flagI := fun _ _ => rfl
  have sr : (m.start d).cpu.regs.sr = flagU ||| flagI := Program.everyRun written d m.bus
  unfold Registers.StatusFormed
  rw [sr]
  decide

theorem statusBits (m : Machine σ) (events : List Event) :
    let met := (m.start d).run d events
    (met.cpu.regs.getStatus flagU = true ∧ met.cpu.regs.getStatus flagB = false) ∧
    ((statusPush (met.served d) (met.accesses d)).isSome ↔ (met.served d).pusher.isSome) ∧
    ∀ push, statusPush (met.served d) (met.accesses d) = some push →
      (∃ sp val, push = .write (stackAddress sp) val) ∧
      push.value &&& flagU = flagU ∧
      (push.value &&& flagB = flagB ↔ (met.served d).pusher = some .software) ∧
      (push.value &&& flagB = 0 ↔ (met.served d).pusher = some .hardware) ∧
      push.value &&& ~~~(flagU ||| flagB) = met.cpu.regs.sr &&& ~~~(flagU ||| flagB) := by
  intro met
  have formed : met.cpu.regs.StatusFormed := runFormed d (startFormed d m) events
  refine ⟨?_,?_,?_⟩
  · exact formedBits formed
  · obtain ⟨sp,pushed⟩ := (met.isStepped d).pushesStatus
    simp [pushed]
  · intro push pushes
    obtain ⟨sp,pushed⟩ := (met.isStepped d).pushesStatus
    rw [pushed,Option.map_eq_some_iff] at pushes
    obtain ⟨pusher,source,rfl⟩ := pushes
    rw [source]
    refine ⟨⟨sp,_,rfl⟩,pushedUnused _ _,?_,?_,pushedFlags _ _⟩
    · simp only [Access.value,pushedBreak]
      cases pusher <;> simp
    · simp only [Access.value,pushedBreak]
      cases pusher <;> simp

end Machine
end Emu6502
