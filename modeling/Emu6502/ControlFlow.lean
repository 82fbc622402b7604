import Emu6502.Jam
import Emu6502.LineSync
import Emu6502.PublishedCycles
import Emu6502.StackHelpers

/-! Where a step leaves pc, read off the registers and 64 KB of RAM before it: past the
instruction, or where a branch, jump, call, return or break sends it. -/
namespace Emu6502
open Interaction

namespace Machine

/- The address the instruction at pc hands control to. -/
def target (m : Machine RamBus) : Uint16 :=
  let regs := m.cpu.regs
  let i := instruction (m.bus.val.read regs.pc)
  let next := regs.pc + 1 + BitVec.ofNat 16 i.mode.operandLength
  let operand := word (m.bus.val.read (regs.pc + 1)) (m.bus.val.read (regs.pc + 1 + 1))
  let pulled (k : Uint8) := m.bus.val.read (stackAddress (regs.sp + k))
  if i.op = .kil then regs.pc else
    match i.op.template with
    | .branch flag set =>
        let offset : Uint16 := (m.bus.val.read (regs.pc + 1)).signExtend 16
        if regs.getStatus flag = set then next + offset else next
    | .jmp =>
        if i.mode = .indirect then
          word (m.bus.val.read operand) (m.bus.val.read ((operand &&& 0xff00) ||| ((operand + 1) &&& 0x00ff)))
        else operand
    | .jsr => operand
    | .brk => word (m.bus.val.read 0xfffe) (m.bus.val.read 0xffff)
    | .rti => word (pulled 2) (pulled 3)
    | .rts => word (pulled 1) (pulled 2) + 1
    | _ => next

end Machine

theorem branchTarget (flag : Uint8) (set : Bool) (cycles : Nat) (regs : Registers) (v : Uint8) :
    (branchOutcome flag set cycles regs v).2.pc =
      if regs.getStatus flag = set then regs.pc + v.signExtend 16 else regs.pc := by
  unfold branchOutcome
  by_cases taken : regs.getStatus flag = set
  · rw [if_pos taken,if_neg (by simp [taken])]
    simp only [signExtended v,BitVec.add_comm]
  · rw [if_neg taken,if_pos (by simp [taken])]

/- Pushes stay in page one, clear of the vectors. -/
theorem pushKeeps (bus : RamBus) (s v : Uint8) {a : Uint16} (high : 0x0200 ≤ a) :
    (RamBus.device.write bus (stackAddress s) v).val.read a = bus.val.read a := by
  have apart : a ≠ stackAddress s := by
    rintro rfl
    have page := (StackHelpers.stackInPageOne s).2
    rw [BitVec.le_def] at high
    exact absurd (Nat.le_trans high page) (by decide)
  exact (Bus.ramReadWrite bus.property _ _ _).trans (if_neg apart)

theorem breakKeeps (bus : RamBus) (s t u v w x : Uint8) {a : Uint16} (high : 0x0200 ≤ a) :
    (RamBus.device.write (RamBus.device.write (RamBus.device.write bus (stackAddress s) v) (stackAddress t) w)
      (stackAddress u) x).val.read a = bus.val.read a := by
  rw [pushKeeps _ _ _ high,pushKeeps _ _ _ high,pushKeeps _ _ _ high]

namespace Machine

theorem bodyTarget (m : Machine RamBus) :
    ((m.cpu.instructionBody (m.bus.val.read m.cpu.regs.pc)).run RamBus.device m.bus).result.2.pc = m.target := by
  simp only [target]
  generalize m.bus.val.read m.cpu.regs.pc = code
  have admitted := tableAdmits code
  by_cases kil : (instruction code).op = .kil
  · simp only [kilBody m.cpu kil,if_pos kil,Program.runDone]
  have within := opAside _ kil
  simp only [if_neg kil,Processor.instructionBody,Program.runBind]
  generalize (instruction code).op.template = t at admitted within ⊢
  generalize (instruction code).mode = mode at admitted ⊢
  generalize (instruction code).cycles = cycles
  cases jumping : t.jumps with
  | false =>
    have straight := Program.everyRun (Template.actionStraight (fun _ => ⟨rfl,rfl⟩)
      (fun first second => ⟨second.pc.trans first.pc,second.decimal.trans first.decimal⟩) jumping within mode cycles
      ({m.cpu.regs with pc := m.cpu.regs.pc + 1}.advance mode)
      ((mode.operand (m.cpu.regs.pc + 1)).run RamBus.device m.bus).result) RamBus.device
      ((mode.operand (m.cpu.regs.pc + 1)).run RamBus.device m.bus).state
    refine straight.pc.trans ?_
    cases t <;> first | rfl | contradiction
  | true =>
    cases t with
    | jmp =>
      simp only [Template.admits,Bool.or_eq_true,beq_iff_eq] at admitted
      rcases admitted with rfl | rfl <;> rfl
    | jsr =>
      simp only [Template.admits,beq_iff_eq] at admitted
      subst admitted
      rfl
    | rti =>
      simp only [Template.admits,beq_iff_eq] at admitted
      subst admitted
      have second : m.cpu.regs.sp + 1 + 1 = m.cpu.regs.sp + 2 := BitVec.add_assoc _ 1 1
      have third : m.cpu.regs.sp + 1 + 1 + 1 = m.cpu.regs.sp + 3 := (congrArg (· + 1) second).trans (BitVec.add_assoc _ 2 1)
      rw [← second,← third]
      rfl
    | rts =>
      simp only [Template.admits,beq_iff_eq] at admitted
      subst admitted
      have second : m.cpu.regs.sp + 1 + 1 = m.cpu.regs.sp + 2 := BitVec.add_assoc _ 1 1
      rw [← second]
      rfl
    | brk =>
      simp only [Template.admits,beq_iff_eq] at admitted
      subst admitted
      exact congrArg₂ word (breakKeeps m.bus _ _ _ _ _ _ (by decide)) (breakKeeps m.bus _ _ _ _ _ _ (by decide))
    | branch flag set =>
      simp only [Template.admits,beq_iff_eq] at admitted
      subst admitted
      refine (branchTarget flag set cycles _ _).trans ?_
      simp only [Mode.operand,Mode.operandLength,operandBytes,Program.runRead,Program.runDone,lowByteZeroPage]
      rfl
    | _ => contradiction

theorem stepTarget {m : Machine RamBus} (free : m.cpu.executes = true) :
    (m.step RamBus.device).cpu.regs.pc = m.target := by
  have whole := steppedExecute RamBus.device free
  simp only [step,whole]
  exact m.bodyTarget

end Machine
end Emu6502
