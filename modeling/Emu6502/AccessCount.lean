import Emu6502.Session
import Emu6502.BusPattern

/-! A host that charges one cycle per bus access never runs out of them: whatever the
state, the opcode and the device, a step is charged at least a cycle for each access. -/
namespace Emu6502
open Interaction

namespace Mode

def pointerLength : Mode → Nat
  | indirectX | indirectY => 2
  | _ => 0

def settleLength (mode : Mode) : Nat := if mode.zeroPageIndexed || mode.wideIndexed then 1 else 0

def loadLength (mode : Mode) : Nat :=
  if mode.addressed then if mode.zeroPageIndexed then 2 else 1 else 0

theorem operandCount (mode : Mode) (pc : Uint16) :
    (mode.operand pc).Every fun log _ => log.length = mode.operandLength := by
  cases mode <;> simp [operand,operandLength]

theorem pointerCount (mode : Mode) (regs : Registers) (data : Uint16) :
    (mode.pointer regs data).Every fun log _ => log.length = mode.pointerLength := by
  cases mode <;> simp [pointer,pointerLength,zeroPageWord]

theorem settleCount (mode : Mode) (regs : Registers) (ptr : Uint16) :
    (mode.settle regs ptr).Every fun log _ => log.length = mode.settleLength := by
  cases mode <;> simp [settle,settleLength,zeroPageIndexed,wideIndexed]

theorem loadCount (mode : Mode) (regs : Registers) (ptr : Uint16) :
    (mode.load regs ptr).Every fun log _ =>
      log.length = mode.loadLength + if mode.crosses regs ptr then 1 else 0 := by
  cases crossing : mode.crosses regs ptr <;>
    cases mode <;> simp_all [load,loadLength,addressed,zeroPageIndexed,crosses,wideIndexed]

end Mode

namespace Template

def accesses (t : Template) (mode : Mode) : Nat :=
  match t with
  | read _ | readFlat _ => mode.pointerLength + mode.loadLength
  | rmw _ _ _ => if mode == .accumulator then 0 else mode.pointerLength + mode.settleLength + 3
  | store _ => mode.pointerLength + mode.settleLength + 1
  | shx _ => mode.pointerLength + 1
  | implied _ | branch _ _ | nop => 0
  | push _ | pull _ => 1
  | jmp => if mode == .indirect then 2 else 0
  | jsr | rts => 2
  | rti => 3
  | brk => 5

theorem flatRead {apply : Registers → Uint8 → Registers} {mode : Mode}
    (admitted : (readFlat apply).admits mode) : mode.wideIndexed = false := by
  cases mode <;> simp_all [admits,Mode.addressed,Mode.wideIndexed]

/- What an action is charged beyond the count it is given is what it accesses beyond
the count of its template: both are the one access of a carry. -/
theorem actionBalance (t : Template) (mode : Mode) (cycles : Nat) (regs : Registers) (data : Uint16)
    (admitted : t.admits mode) (straight : t.branches = false) :
    (t.action mode cycles regs data).Every fun log out =>
      out.1 + t.accesses mode = cycles + log.length := by
  cases t with
  | read apply =>
    simp only [action,Program.everyBind,accesses]
    refine Program.everyMono (mode.pointerCount regs data) fun first ptr pointed => ?_
    refine Program.everyMono (mode.loadCount regs ptr) fun second val loaded => ?_
    simp only [Program.everyDone,List.length_append,List.length_nil]
    omega
  | readFlat apply =>
    simp only [action,Program.everyBind,accesses]
    refine Program.everyMono (mode.pointerCount regs data) fun first ptr pointed => ?_
    refine Program.everyMono (mode.loadCount regs ptr) fun second val loaded => ?_
    rw [Mode.flatNeverCrosses (flatRead admitted)] at loaded
    simp only [Program.everyDone,List.length_append,List.length_nil]
    simp only [Bool.false_eq_true,if_false] at loaded
    omega
  | rmw result before after =>
    simp only [action,accesses]
    split
    · simp
    · simp only [Program.everyBind]
      refine Program.everyMono (mode.pointerCount regs data) fun first ptr pointed => ?_
      refine Program.everyMono (mode.settleCount regs ptr) fun second _ settled => ?_
      simp only [Program.everyRead,Program.everyWrite,Program.everyDone,List.length_append,
        List.length_cons,List.length_nil]
      omega
  | store source =>
    simp only [action,Program.everyBind,accesses]
    refine Program.everyMono (mode.pointerCount regs data) fun first ptr pointed => ?_
    refine Program.everyMono (mode.settleCount regs ptr) fun second _ settled => ?_
    simp only [Program.everyWrite,Program.everyDone,List.length_append,List.length_cons,List.length_nil]
    omega
  | shx reg =>
    simp only [action,Program.everyBind,accesses]
    refine Program.everyMono (mode.pointerCount regs data) fun first ptr pointed => ?_
    simp only [Program.everyWrite,Program.everyDone,List.length_append,List.length_cons,List.length_nil]
    omega
  | jmp =>
    simp only [action,accesses]
    split <;> simp
  | branch flag set => contradiction
  | implied apply => simp [action,accesses]
  | push value => simp [action,accesses]
  | pull apply => simp [action,accesses]
  | nop => simp [action,accesses]
  | brk => simp [action,accesses]
  | jsr => simp [action,accesses]
  | rti => simp [action,accesses]
  | rts => simp [action,accesses]

theorem branchChargesBase (flag : Uint8) (set : Bool) (cycles : Nat) (regs : Registers) (data : Uint8) :
    cycles ≤ (branchOutcome flag set cycles regs data).1 := by
  unfold branchOutcome
  split
  · exact Nat.le_refl _
  · exact Nat.le_add_right _ _

theorem actionAffordable (t : Template) (mode : Mode) (cycles : Nat) (regs : Registers) (data : Uint16)
    (admitted : t.admits mode) :
    (t.action mode cycles regs data).Every fun log out =>
      cycles + log.length ≤ out.1 + t.accesses mode := by
  cases branching : t.branches with
  | false =>
    exact Program.everyMono (actionBalance t mode cycles regs data admitted branching)
      (fun _ _ balance => Nat.le_of_eq balance.symm)
  | true =>
    cases t <;> simp [branches] at branching
    exact branchChargesBase _ _ _ _ _

end Template

theorem tableAffordable : ∀ code,
    1 + (instruction code).mode.operandLength + (instruction code).op.template.accesses (instruction code).mode
      ≤ (instruction code).cycles := by
  decide

theorem instructionAffordable (cpu : Processor) (code : Uint8) :
    (cpu.instructionBody code).Every fun log out => 1 + log.length ≤ out.1 := by
  simp only [Processor.instructionBody,Program.everyBind]
  refine Program.everyMono (Mode.operandCount _ _) fun first data fetched => ?_
  refine Program.everyMono (Template.actionAffordable _ _ _ _ _ (tableAdmits code)) fun second out acted => ?_
  have paid := tableAffordable code
  simp only [List.length_append]
  omega

theorem accessesWithinCycles {σ : Type} (d : Device Uint16 Uint8 σ) (m : Machine σ) :
    m.cpu.cycles + (m.accesses d).length ≤ (m.step d).cpu.cycles := by
  refine m.steppedOfEvery d (Q := fun log out => m.cpu.cycles + log.length ≤ out.2.cycles) ?_
  refine Processor.everyStep ?_ ?_ ?_
  · intro _ lo hi
    simp [serviceLog,Processor.afterService]
  · intro _ _ _ lo hi
    simp [serviceLog,Processor.afterService]
  · intro _ code
    refine Program.everyMono (instructionAffordable m.cpu code) fun log out enough => ?_
    simp only [Processor.afterExecute,List.length_cons]
    omega

/-! Indexed operands. The cycle that adds the index is driven on the bus in every mode but
(zp,X), whose struct has no dummyRead of its own: there one cycle stays idle. -/

def Mode.indexedMemory : Mode → Bool
  | zeroPageX | zeroPageY | absoluteX | absoluteY | indirectX | indirectY => true
  | _ => false

def Op.isShx : Op → Bool
  | .shx _ => true
  | _ => false

def Mode.idleCycles (mode : Mode) : Nat := if mode = indirectX then 1 else 0

theorem tableIdle : ∀ code, (instruction code).mode.indexedMemory = true → (instruction code).op.isShx = false →
    (instruction code).op.template.branches = false ∧
      1 + (instruction code).mode.operandLength +
        (instruction code).op.template.accesses (instruction code).mode + (instruction code).mode.idleCycles =
          (instruction code).cycles := by
  decide

theorem indexedBalance (cpu : Processor) {code : Uint8} (indexed : (instruction code).mode.indexedMemory = true)
    (stable : (instruction code).op.isShx = false) :
    (cpu.instructionBody code).Every fun log out => out.1 = 1 + log.length + (instruction code).mode.idleCycles := by
  obtain ⟨straight,table⟩ := tableIdle code indexed stable
  simp only [Processor.instructionBody,Program.everyBind]
  refine Program.everyMono (Mode.operandCount _ _) fun first data fetched => ?_
  refine Program.everyMono (Template.actionBalance _ _ _ _ _ (tableAdmits code) straight) fun second out balance => ?_
  simp only [List.length_append]
  omega

theorem indexedAccesses {σ : Type} (d : Device Uint16 Uint8 σ) (m : Machine σ) {code : Uint8}
    (ran : m.served d = .executed code) (indexed : (instruction code).mode.indexedMemory = true)
    (stable : (instruction code).op.isShx = false) :
    (m.step d).cpu.cycles = m.cpu.cycles + (m.accesses d).length + (instruction code).mode.idleCycles := by
  have stepped := m.isStepped d
  rw [ran] at stepped
  generalize (m.step d).cpu = next at stepped ⊢
  generalize m.accesses d = whole at stepped ⊢
  cases stepped with
  | executed free code log cost regs path =>
    have charged := path _ (indexedBalance m.cpu indexed stable)
    simp only [Processor.afterExecute,List.length_cons]
    omega

/-- Of the instructions with an indexed operand in memory, SHx and TAS apart, exactly those
not in (zp,X) access the bus on every cycle they are charged. -/
theorem indexedNeverIdle {σ : Type} (d : Device Uint16 Uint8 σ) (m : Machine σ) {code : Uint8}
    (ran : m.served d = .executed code) (indexed : (instruction code).mode.indexedMemory = true)
    (stable : (instruction code).op.isShx = false) :
    m.cpu.cycles + (m.accesses d).length = (m.step d).cpu.cycles ↔ (instruction code).mode ≠ .indirectX := by
  rw [indexedAccesses d m ran indexed stable,Mode.idleCycles]
  split
  · rename_i preindexed
    simp [preindexed]
  · rename_i other
    simp [other]

theorem indexedStoreNeverIdle :
    let m := Machine.rig [(0x0400,0x9d),(0x0401,0xff),(0x0402,0x20)]
    m.cpu.cycles + (m.accesses Bus.device).length = (m.step Bus.device).cpu.cycles := by
  intro m
  have ran : m.served Bus.device = .executed 0x9d := by decide
  exact (indexedNeverIdle Bus.device m ran rfl rfl).mpr (by decide)

theorem preindexedLoadIdles :
    let m := Machine.rig [(0x0400,0xa1),(0x0401,0x10)]
    m.served Bus.device = .executed 0xa1 ∧ (instruction 0xa1).mode = .indirectX ∧
      m.cpu.cycles + (m.accesses Bus.device).length ≠ (m.step Bus.device).cpu.cycles := by
  decide

end Emu6502
