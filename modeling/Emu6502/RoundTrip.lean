import Emu6502.StatusByte
import Emu6502.Lib.WrappingStack

/-! Entries and their returns on 64 KB of RAM. Each entry leaves a frame above the stack
pointer; a return that finds the frame again undoes it, whatever ran in between. -/
namespace Emu6502
open Interaction

theorem stackAddressEq {a b : Uint8} : stackAddress a = stackAddress b ↔ a = b := by
  refine ⟨fun same => ?_,congrArg stackAddress⟩
  have val := congrArg BitVec.toNat same
  have := a.isLt
  have := b.isLt
  simp only [stackAddress,BitVec.toNat_add,BitVec.toNat_setWidth] at val
  exact BitVec.eq_of_toNat_eq (by omega)

def pageOne : WrappingStack.Store 8 Uint8 RamBus where
  read bus sp := bus.val.read (stackAddress sp)
  write bus sp v := ⟨bus.val.write (stackAddress sp) v,Bus.ramWrite bus.property (stackAddress sp) v⟩
  readWrite bus sp other v := by
    simp only [Bus.ramReadWrite bus.property,stackAddressEq]

theorem pushStacks {bus : RamBus} {sp : Uint8} {frame : List Uint8} (room : frame.length < 256) (v : Uint8)
    (held : WrappingStack.Holds pageOne bus sp frame) :
    WrappingStack.Holds pageOne (pageOne.write bus sp v) (sp - 1) (v :: frame) :=
  WrappingStack.holdsPush pageOne room v held

theorem wordStacks (bus : RamBus) (sp : Uint8) (address : Uint16) :
    WrappingStack.Holds pageOne (pageOne.write (pageOne.write bus sp (highByte address)) (sp - 1) (lowByte address))
      (sp - 1 - 1) [lowByte address,highByte address] :=
  pushStacks (by simp) _ (pushStacks (by simp) _ trivial)

namespace Machine

def Stacked (m : Machine RamBus) (frame : List Uint8) : Prop :=
  WrappingStack.Holds pageOne m.bus m.cpu.regs.sp frame

section entries
variable {m : Machine RamBus}

theorem jsrStacks (ran : m.served RamBus.device = .executed 0x20) :
    let entered := m.step RamBus.device
    entered.cpu.regs.sp = m.cpu.regs.sp - 1 - 1 ∧
      entered.Stacked [lowByte (m.cpu.regs.pc + 2),highByte (m.cpu.regs.pc + 2)] := by
  intro entered
  obtain ⟨_,regs,bus⟩ := executedLeaves RamBus.device ran
  have sp : entered.cpu.regs.sp = m.cpu.regs.sp - 1 - 1 := congrArg Registers.sp regs
  have back : m.cpu.regs.pc + 1 + 2 - 1 = m.cpu.regs.pc + 2 := by bv_omega
  refine ⟨sp,?_⟩
  rw [Stacked,sp,bus,← back]
  exact wordStacks m.bus m.cpu.regs.sp _

theorem brkStacks (ran : m.served RamBus.device = .executed 0x00) :
    let entered := m.step RamBus.device
    entered.cpu.regs.sp = m.cpu.regs.sp - 1 - 1 - 1 ∧
      entered.Stacked [pushedStatus m.cpu.regs.sr .software,lowByte (m.cpu.regs.pc + 2),
        highByte (m.cpu.regs.pc + 2)] := by
  intro entered
  obtain ⟨_,regs,bus⟩ := executedLeaves RamBus.device ran
  have sp : entered.cpu.regs.sp = m.cpu.regs.sp - 1 - 1 - 1 := congrArg Registers.sp regs
  have back : m.cpu.regs.pc + 1 + 0 + 1 = m.cpu.regs.pc + 2 := by bv_omega
  refine ⟨sp,?_⟩
  rw [Stacked,sp,bus,← back]
  exact pushStacks (by simp) _ (wordStacks m.bus m.cpu.regs.sp _)

theorem serviceStacks (service : m.served RamBus.device = .nmi ∨ m.served RamBus.device = .irq) :
    let entered := m.step RamBus.device
    entered.cpu.regs.sp = m.cpu.regs.sp - 1 - 1 - 1 ∧
      entered.Stacked [pushedStatus m.cpu.regs.sr .hardware,lowByte m.cpu.regs.pc,highByte m.cpu.regs.pc] := by
  intro entered
  obtain ⟨vector,regs,bus⟩ := servicedLeaves RamBus.device service
  have sp : entered.cpu.regs.sp = m.cpu.regs.sp - 1 - 1 - 1 := congrArg Registers.sp regs
  refine ⟨sp,?_⟩
  rw [Stacked,sp,bus]
  exact pushStacks (by simp) _ (wordStacks m.bus m.cpu.regs.sp _)

end entries

section returns
variable {m : Machine RamBus} {lo hi status : Uint8}

theorem rtsUnstacks (ran : m.served RamBus.device = .executed 0x60) (frame : m.Stacked [lo,hi]) :
    let resumed := m.step RamBus.device
    resumed.cpu.regs.sp = m.cpu.regs.sp + 1 + 1 ∧ resumed.cpu.regs.pc = word lo hi + 1 := by
  intro resumed
  obtain ⟨_,regs,_⟩ := executedLeaves RamBus.device ran
  obtain ⟨low,high,_⟩ := frame
  rw [← low,← high]
  exact ⟨congrArg Registers.sp regs,congrArg Registers.pc regs⟩

theorem rtiUnstacks (ran : m.served RamBus.device = .executed 0x40) (frame : m.Stacked [status,lo,hi]) :
    let resumed := m.step RamBus.device
    resumed.cpu.regs.sp = m.cpu.regs.sp + 1 + 1 + 1 ∧ resumed.cpu.regs.pc = word lo hi ∧
      resumed.cpu.regs.sr = pulledStatus status := by
  intro resumed
  obtain ⟨_,regs,_⟩ := executedLeaves RamBus.device ran
  obtain ⟨first,low,high,_⟩ := frame
  rw [← first,← low,← high]
  exact ⟨congrArg Registers.sp regs,congrArg Registers.pc regs,congrArg Registers.sr regs⟩

end returns

/- From an entry to its return: SP is back where the entry left it, and so are the
`pushed` bytes above it. -/
structure Preserved (entered last : Machine RamBus) (pushed : Nat) : Prop where
  sp : last.cpu.regs.sp = entered.cpu.regs.sp
  bytes : ∀ k, 0 < k → k ≤ pushed →
    last.bus.val.read (stackAddress (entered.cpu.regs.sp + BitVec.ofNat 8 k)) =
      entered.bus.val.read (stackAddress (entered.cpu.regs.sp + BitVec.ofNat 8 k))

theorem preservedFrame {entered last : Machine RamBus} {frame : List Uint8}
    (preserved : Preserved entered last frame.length) (stacked : entered.Stacked frame) : last.Stacked frame := by
  rw [Stacked,preserved.sp]
  exact WrappingStack.holdsAgree pageOne preserved.bytes stacked

theorem pulledPushed {regs : Registers} (formed : regs.StatusFormed) (pusher : Pusher) :
    pulledStatus (pushedStatus regs.sr pusher) = regs.sr := by
  have bits : ∀ sr : Uint8, sr &&& unflagged = flagU →
      pulledStatus (pushedStatus sr .software) = sr ∧ pulledStatus (pushedStatus sr .hardware) = sr := by
    decide
  cases pusher with
  | software => exact (bits regs.sr formed).1
  | hardware => exact (bits regs.sr formed).2

/- JSR and RTS, BRK and RTI, an interrupt and RTI: whatever runs in between, if it
preserves the frame, the return resumes where the entry left off. -/
theorem returnsResume (m : Machine RamBus) (formed : m.cpu.regs.StatusFormed) (between : List Event) :
    let entered := m.step RamBus.device
    let last := entered.run RamBus.device between
    let resumed := (last.step RamBus.device).cpu.regs
    (m.served RamBus.device = .executed 0x20 → last.served RamBus.device = .executed 0x60 →
      Preserved entered last 2 → resumed.sp = m.cpu.regs.sp ∧ resumed.pc = m.cpu.regs.pc + 3) ∧
    (m.served RamBus.device = .executed 0x00 → last.served RamBus.device = .executed 0x40 →
      Preserved entered last 3 → resumed.sp = m.cpu.regs.sp ∧ resumed.pc = m.cpu.regs.pc + 2 ∧
        resumed.sr = m.cpu.regs.sr) ∧
    (m.served RamBus.device = .nmi ∨ m.served RamBus.device = .irq →
      last.served RamBus.device = .executed 0x40 →
      Preserved entered last 3 → resumed.sp = m.cpu.regs.sp ∧ resumed.pc = m.cpu.regs.pc ∧
        resumed.sr = m.cpu.regs.sr) := by
  intro entered last resumed
  have twice (sp : Uint8) : sp - 1 - 1 + 1 + 1 = sp := by bv_omega
  have thrice (sp : Uint8) : sp - 1 - 1 - 1 + 1 + 1 + 1 = sp := by bv_omega
  refine ⟨?_,?_,?_⟩
  · intro jsr rts preserved
    obtain ⟨sp,stacked⟩ := jsrStacks jsr
    obtain ⟨spBack,pc⟩ := rtsUnstacks rts (preservedFrame preserved stacked)
    rw [preserved.sp,sp,twice] at spBack
    rw [wordBytes] at pc
    exact ⟨spBack,pc.trans (by bv_omega)⟩
  · intro brk rti preserved
    obtain ⟨sp,stacked⟩ := brkStacks brk
    obtain ⟨spBack,pc,sr⟩ := rtiUnstacks rti (preservedFrame preserved stacked)
    rw [preserved.sp,sp,thrice] at spBack
    rw [wordBytes] at pc
    exact ⟨spBack,pc,sr.trans (pulledPushed formed .software)⟩
  · intro service rti preserved
    obtain ⟨sp,stacked⟩ := serviceStacks service
    obtain ⟨spBack,pc,sr⟩ := rtiUnstacks rti (preservedFrame preserved stacked)
    rw [preserved.sp,sp,thrice] at spBack
    rw [wordBytes] at pc
    exact ⟨spBack,pc,sr.trans (pulledPushed formed .hardware)⟩

/- A subroutine and a BRK handler that push and pull in between, the handler's frame across the wrap of SP. -/
theorem pushedAndPulledReturn :
    let called := ramRig [(0x0400,0x20),(0x0401,0x10),(0x0402,0x04),(0x0410,0x48),(0x0411,0x68),(0x0412,0x60)]
    let rig := ramRig [(0xfffe,0x10),(0xffff,0x04),(0x0410,0x48),(0x0411,0x68),(0x0412,0x40)]
    let broken : Machine RamBus := ⟨{rig.cpu with regs := {rig.cpu.regs with sp := 0x01}},rig.bus⟩
    let back (m : Machine RamBus) := (((m.step RamBus.device).run RamBus.device [.step,.step]).step RamBus.device).cpu.regs
    ((back called).sp = 0xfd ∧ (back called).pc = 0x0403) ∧
      (back broken).sp = 0x01 ∧ (back broken).pc = 0x0402 ∧ (back broken).sr = broken.cpu.regs.sr := by
  intro called rig broken back
  have subroutine := returnsResume called (by unfold Registers.StatusFormed; decide +kernel) [.step,.step]
  have handler := returnsResume broken (by unfold Registers.StatusFormed; decide +kernel) [.step,.step]
  refine ⟨subroutine.1 (by decide +kernel) (by decide +kernel) ⟨by decide +kernel,fun k first last => ?_⟩,
    handler.2.1 (by decide +kernel) (by decide +kernel) ⟨by decide +kernel,fun k first last => ?_⟩⟩
  · obtain rfl | rfl : k = 1 ∨ k = 2 := by omega
    all_goals decide +kernel
  · obtain rfl | rfl | rfl : k = 1 ∨ k = 2 ∨ k = 3 := by omega
    all_goals decide +kernel

end Machine
end Emu6502
