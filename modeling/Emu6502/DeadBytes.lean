import Emu6502.InstructionSet
import Emu6502.Lib.Liveness

/-! Which bytes of memory a program depends on. The processor reads more of them than its instructions
use: what an indexed access finds in the page it has not fixed yet shows in nothing. -/
namespace Emu6502
open Liveness

namespace View
variable (v : View)

def operandCells : List Uint16 :=
  match v.fetched.mode.operandLength with
  | 0 => []
  | 1 => [v.regs.pc + 1]
  | _+2 => [v.regs.pc + 1,v.regs.pc + 1 + 1]

def pointerCells : List Uint16 :=
  match v.fetched.mode with
  | .indirectX => [zeroPageAddress (lowByte v.operand + v.regs.x),zeroPageAddress (lowByte v.operand + v.regs.x + 1)]
  | .indirectY => [zeroPageAddress (lowByte v.operand),zeroPageAddress (lowByte v.operand + 1)]
  | _ => []

def dataCells : List Uint16 :=
  match v.fetched.op.template with
  | .read _ | .readFlat _ => if v.fetched.mode.addressed then [v.address] else []
  | .rmw _ _ _ => if v.fetched.mode = .accumulator then [] else [v.address]
  | .pull _ => [stackAddress (v.regs.sp + 1)]
  | .brk => [0xfffe,0xffff]
  | .jmp =>
      if v.fetched.mode = .indirect then [v.operand,(v.operand &&& 0xff00) ||| ((v.operand + 1) &&& 0x00ff)] else []
  | .rti => [stackAddress (v.regs.sp + 1),stackAddress (v.regs.sp + 2),stackAddress (v.regs.sp + 3)]
  | .rts => [stackAddress (v.regs.sp + 1),stackAddress (v.regs.sp + 2)]
  | _ => []

/- The bytes the next instruction is made of and works on. -/
def uses : List Uint16 := v.regs.pc :: (v.operandCells ++ v.pointerCells ++ v.dataCells)

def writes : List Uint16 :=
  match v.fetched.op.template with
  | .rmw _ _ _ => if v.fetched.mode = .accumulator then [] else [v.address]
  | .store _ | .shx _ => [v.address]
  | t => t.pushes v.regs.sp

structure Agrees (w : View) : Prop where
  regs : w.regs = v.regs
  cycles : w.cycles = v.cycles
  bytes : ∀ a ∈ v.uses, w.memory a = v.memory a

namespace Agrees
variable {v} {w : View} (agrees : Agrees v w)
include agrees

theorem code : w.code = v.code := by
  rw [View.code,agrees.regs]
  exact agrees.bytes _ List.mem_cons_self

theorem fetched : w.fetched = v.fetched := by rw [View.fetched,agrees.code,View.fetched]

theorem operand : w.operand = v.operand := by
  have cells : ∀ a ∈ v.operandCells, w.memory a = v.memory a := fun a member => agrees.bytes a (by simp [uses,member])
  unfold operandCells at cells
  unfold View.operand
  rw [agrees.fetched,agrees.regs]
  generalize v.fetched.mode.operandLength = n at cells ⊢
  match n with
  | 0 => rfl
  | 1 => exact congrArg zeroPageAddress (cells _ List.mem_cons_self)
  | _+2 => exact congrArg₂ word (cells _ List.mem_cons_self) (cells _ (List.mem_cons_of_mem _ List.mem_cons_self))

theorem passed : w.passed = v.passed := by rw [View.passed,agrees.fetched,agrees.regs,View.passed]

theorem pointer : w.pointer = v.pointer := by
  have cells : ∀ a ∈ v.pointerCells, w.memory a = v.memory a := fun a member => agrees.bytes a (by simp [uses,member])
  unfold pointerCells at cells
  unfold View.pointer zeroPageWord
  rw [agrees.fetched,agrees.operand,agrees.regs]
  generalize v.fetched.mode = mode at cells ⊢
  cases mode with
  | indirectX | indirectY =>
    exact congrArg₂ word (cells _ List.mem_cons_self) (cells _ (List.mem_cons_of_mem _ List.mem_cons_self))
  | _ => rfl

theorem address : w.address = v.address := by rw [View.address,agrees.fetched,agrees.regs,agrees.pointer,View.address]

theorem data : ∀ a ∈ v.dataCells, w.memory a = v.memory a := fun a member => agrees.bytes a (by simp [uses,member])

end Agrees

/-! What both write, they write to the same cells. -/

theorem overwritesStore (f g : Uint16 → Uint8) (a : Uint16) (val : Uint8) :
    Overwrites [a] f g (Function.update f a val) (Function.update g a val) := by
  intro b
  constructor
  · intro here
    obtain rfl := List.mem_singleton.mp here
    rw [Function.update_self,Function.update_self]
  · intro apart
    have other : b ≠ a := fun same => apart (List.mem_singleton.mpr same)
    exact ⟨Function.update_of_ne other _ _,Function.update_of_ne other _ _⟩

theorem overwritesPushed (f g : Uint16 → Uint8) (sp : Uint8) (bytes : List Uint8) :
    Overwrites (stackSlots sp bytes.length) f g (pushed f sp bytes) (pushed g sp bytes) := by
  induction bytes generalizing f g sp with
  | nil => exact overwritesNothing f g
  | cons b bytes ih =>
    intro a
    obtain ⟨deeper,aside⟩ := ih (Function.update f (stackAddress sp) b) (Function.update g (stackAddress sp) b) (sp - 1) a
    obtain ⟨here,apart⟩ := overwritesStore f g (stackAddress sp) b a
    simp only [List.length_cons,stackSlots,pushed,List.mem_cons,not_or]
    by_cases later : a ∈ stackSlots (sp - 1) bytes.length
    · exact ⟨fun _ => deeper later,fun outside => absurd later outside.2⟩
    · obtain ⟨first,second⟩ := aside later
      rw [first,second]
      refine ⟨fun written => ?_,fun outside => apart (by simp [outside.1])⟩
      exact here (List.mem_singleton.mpr (written.resolve_right later))

/- Registers, time and what is written come from the bytes the instruction uses. -/
theorem Agrees.next {v w : View} (agrees : Agrees v w) : w.next.regs = v.next.regs ∧ w.next.cycles = v.next.cycles ∧
    Overwrites v.writes v.memory w.memory v.next.memory w.next.memory := by
  have data := agrees.data
  have kept : Overwrites [] v.memory w.memory v.memory w.memory := overwritesNothing _ _
  have stored (val : Uint8) := overwritesStore v.memory w.memory v.address val
  have pushed (bytes : List Uint8) := overwritesPushed v.memory w.memory v.regs.sp bytes
  have value (used : v.fetched.mode.addressed = true → w.memory v.address = v.memory v.address) : w.value = v.value := by
    rw [View.value,View.value,agrees.fetched,agrees.address,agrees.pointer]
    split
    · rename_i memory
      exact used memory
    · rfl
  unfold dataCells at data
  unfold View.next View.vector View.pulled View.store writes
  rw [agrees.fetched,agrees.passed,agrees.pointer,agrees.operand,agrees.address,agrees.regs,agrees.cycles]
  cases template : v.fetched.op.template with
  | read apply | readFlat apply =>
    simp only [template,true_and] at data ⊢
    rw [value fun memory => data _ (by rw [if_pos memory]; exact List.mem_cons_self)]
    exact ⟨rfl,kept⟩
  | rmw result before after =>
    simp only [template] at data ⊢
    by_cases register : v.fetched.mode = .accumulator
    · simp only [if_pos register,true_and]
      exact kept
    · rw [data _ (by rw [if_neg register]; exact List.mem_cons_self)]
      simp only [if_neg register,true_and]
      exact stored _
  | store source | shx reg =>
    simp only [template,true_and]
    exact stored _
  | implied apply | nop =>
    simp only [template,true_and]
    exact kept
  | branch flag set =>
    simp only [template]
    split
    · exact ⟨rfl,rfl,kept⟩
    · exact ⟨rfl,rfl,kept⟩
  | push value =>
    simp only [template,true_and]
    exact pushed [value v.passed]
  | jsr =>
    simp only [template,true_and]
    exact pushed [_,_]
  | pull apply =>
    simp only [template,true_and] at data ⊢
    rw [data _ List.mem_cons_self]
    exact ⟨rfl,kept⟩
  | brk =>
    simp only [template,true_and] at data ⊢
    rw [data _ List.mem_cons_self,data 0xffff (by decide)]
    exact ⟨rfl,pushed [_,_,_]⟩
  | jmp =>
    simp only [template,true_and] at data ⊢
    by_cases indirect : v.fetched.mode = .indirect
    · simp only [if_pos indirect] at data ⊢
      rw [data _ List.mem_cons_self,data _ (List.mem_cons_of_mem _ List.mem_cons_self)]
      exact ⟨rfl,kept⟩
    · simp only [if_neg indirect,true_and]
      exact kept
  | rti =>
    simp only [template,true_and] at data ⊢
    rw [data (stackAddress (v.regs.sp + 1)) (by simp),data (stackAddress (v.regs.sp + 2)) (by simp),
      data (stackAddress (v.regs.sp + 3)) (by simp)]
    exact ⟨rfl,kept⟩
  | rts =>
    simp only [template,true_and] at data ⊢
    rw [data (stackAddress (v.regs.sp + 1)) (by simp),data (stackAddress (v.regs.sp + 2)) (by simp)]
    exact ⟨rfl,kept⟩

theorem interruptedAgrees {v w : View} (regs : w.regs = v.regs) (cycles : w.cycles = v.cycles) {vector : Uint16}
    (bytes : ∀ a ∈ [vector,vector + 1], w.memory a = v.memory a) :
    (w.interrupted vector).regs = (v.interrupted vector).regs ∧ (w.interrupted vector).cycles = (v.interrupted vector).cycles ∧
      Overwrites (stackSlots v.regs.sp 3) v.memory w.memory (v.interrupted vector).memory (w.interrupted vector).memory := by
  simp only [interrupted]
  rw [regs,cycles,bytes _ List.mem_cons_self,bytes _ (List.mem_cons_of_mem _ List.mem_cons_self)]
  exact ⟨rfl,rfl,overwritesPushed v.memory w.memory v.regs.sp [_,_,_]⟩

end View

namespace Core

def uses (c : Core) : Event → List Uint16
  | .step =>
      if c.nmi then [0xfffa,0xfffa + 1]
      else if c.irq && !c.masked then [0xfffe,0xfffe + 1]
      else c.view.uses
  | _ => []

def writes (c : Core) : Event → List Uint16
  | .step => if c.nmi || (c.irq && !c.masked) then stackSlots c.view.regs.sp 3 else c.view.writes
  | _ => []

structure Same (c other : Core) : Prop where
  regs : other.view.regs = c.view.regs
  cycles : other.view.cycles = c.view.cycles
  nmi : other.nmi = c.nmi
  irq : other.irq = c.irq
  masked : other.masked = c.masked

theorem footprint : Footprint react (fun c => c.view.memory) uses writes Same where
  step {c other e} same agree := by
    cases e with
    | nmi => exact ⟨⟨same.regs,same.cycles,rfl,same.irq,same.masked⟩,overwritesNothing _ _⟩
    | irq asserted => exact ⟨⟨same.regs,same.cycles,same.nmi,rfl,same.masked⟩,overwritesNothing _ _⟩
    | step =>
      simp only [uses] at agree
      simp only [react,step,writes,same.nmi,same.irq,same.masked]
      by_cases pending : c.nmi = true
      · rw [if_pos pending] at agree
        obtain ⟨regs,cycles,memory⟩ := View.interruptedAgrees same.regs same.cycles agree
        simp only [pending,if_true,Bool.true_or]
        exact ⟨⟨regs,cycles,rfl,rfl,rfl⟩,memory⟩
      rw [if_neg pending] at agree
      rw [Bool.not_eq_true] at pending
      by_cases taken : (c.irq && !c.masked) = true
      · rw [if_pos taken] at agree
        obtain ⟨regs,cycles,memory⟩ := View.interruptedAgrees same.regs same.cycles agree
        simp only [pending,taken,if_true,Bool.false_or,Bool.false_eq_true,if_false]
        exact ⟨⟨regs,cycles,rfl,rfl,rfl⟩,memory⟩
      · rw [if_neg taken] at agree
        rw [Bool.not_eq_true] at taken
        have agrees : View.Agrees c.view other.view := ⟨same.regs,same.cycles,agree⟩
        obtain ⟨regs,cycles,memory⟩ := agrees.next
        simp only [pending,taken,Bool.false_or,Bool.false_eq_true,if_false]
        refine ⟨⟨regs,cycles,rfl,rfl,?_⟩,memory⟩
        simp only [agrees.code]
        split
        · rw [same.regs]
        · rw [regs]

end Core

namespace Machine

/- Some step to come uses the byte, and none before it writes it. -/
def live (m : Machine RamBus) (a : Uint16) (events : List Event) : Bool :=
  Liveness.live Core.react Core.uses Core.writes a m.core events

/-- Bytes no instruction of the run uses before it writes them make no difference to it, whatever the
processor reads on its way: not to registers or time after any of the events, nor to any other byte. -/
theorem deadUnseen (m n : Machine RamBus) (events : List Event) (cpu : n.cpu = m.cpu)
    (dead : ∀ a, n.memory a ≠ m.memory a → m.live a events = false) :
    (∀ before, before <+: events →
      (n.run RamBus.device before).cpu.regs = (m.run RamBus.device before).cpu.regs ∧
      (n.run RamBus.device before).cpu.cycles = (m.run RamBus.device before).cpu.cycles) ∧
    ∀ a, (n.run RamBus.device events).memory a = (m.run RamBus.device events).memory a ∨
      ((m.run RamBus.device events).memory a = m.memory a ∧ (n.run RamBus.device events).memory a = n.memory a) := by
  have same : Core.Same m.core n.core := by
    constructor <;> simp only [core,view,cpu]
  constructor
  · intro before within
    have last := (deadRun Core.footprint same fun a differs => livePrefix _ _ _ within (dead a differs)).1
    rw [← coreSimulates,← coreSimulates] at last
    exact ⟨last.regs,last.cycles⟩
  · have cells := (deadRun Core.footprint same dead).2
    rw [← coreSimulates,← coreSimulates] at cells
    exact cells

/- LDX #$01, LDA $02FF,X, STA $80, LDA $80 over another $80, and another $0200, which the first LDA reads on its way. -/
theorem dummyReadUnseen :
    let m := ramRig [(0x0400,0xa2),(0x0401,0x01),(0x0402,0xbd),(0x0403,0xff),(0x0404,0x02),(0x0405,0x85),(0x0406,0x80),
      (0x0407,0xa5),(0x0408,0x80)]
    let n : Machine RamBus := ⟨m.cpu,RamBus.device.write (RamBus.device.write m.bus 0x0200 0x55) 0x0080 0x77⟩
    (n.run RamBus.device [.step,.step,.step,.step]).cpu.regs = (m.run RamBus.device [.step,.step,.step,.step]).cpu.regs := by
  intro m n
  refine ((deadUnseen m n [.step,.step,.step,.step] rfl fun a differs => ?_).1 _ List.prefix_rfl).1
  have here : a = 0x0200 ∨ a = 0x0080 := by
    by_contra other
    obtain ⟨first,second⟩ := not_or.mp other
    refine differs ((Bus.ramReadWrite (RamBus.device.write m.bus 0x0200 0x55).property 0x0080 a 0x77).trans ?_)
    rw [if_neg second]
    exact (Bus.ramReadWrite m.bus.property 0x0200 a 0x55).trans (if_neg first)
  rcases here with rfl | rfl <;> decide +kernel

end Machine
end Emu6502
