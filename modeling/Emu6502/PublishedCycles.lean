import Emu6502.Session
import Emu6502.BusPattern

/-! The published timing of the NMOS 6502, written down from its opcode chart and not
from the matrix, and the proof that step() charges it. Bases, indices and displacements
are read off the bytes the step itself fetched, so the device behind the bus is arbitrary. -/
namespace Emu6502
open Interaction

/-! The chart. -/

def jamOpcodes : List Uint8 :=
  [0x02, 0x12, 0x22, 0x32, 0x42, 0x52, 0x62, 0x72, 0x92, 0xb2, 0xd2, 0xf2]

/- Base counts by high and low nibble; the KIL encodings have none and are entered as 0. -/
def publishedChart : Vector (Vector Nat 16) 16 := #v[
  #v[7, 6, 0, 8, 3, 3, 5, 5, 3, 2, 2, 2, 4, 4, 6, 6],
  #v[2, 5, 0, 8, 4, 4, 6, 6, 2, 4, 2, 7, 4, 4, 7, 7],
  #v[6, 6, 0, 8, 3, 3, 5, 5, 4, 2, 2, 2, 4, 4, 6, 6],
  #v[2, 5, 0, 8, 4, 4, 6, 6, 2, 4, 2, 7, 4, 4, 7, 7],
  #v[6, 6, 0, 8, 3, 3, 5, 5, 3, 2, 2, 2, 3, 4, 6, 6],
  #v[2, 5, 0, 8, 4, 4, 6, 6, 2, 4, 2, 7, 4, 4, 7, 7],
  #v[6, 6, 0, 8, 3, 3, 5, 5, 4, 2, 2, 2, 5, 4, 6, 6],
  #v[2, 5, 0, 8, 4, 4, 6, 6, 2, 4, 2, 7, 4, 4, 7, 7],
  #v[2, 6, 2, 6, 3, 3, 3, 3, 2, 2, 2, 2, 4, 4, 4, 4],
  #v[2, 6, 0, 6, 4, 4, 4, 4, 2, 5, 2, 5, 5, 5, 5, 5],
  #v[2, 6, 2, 6, 3, 3, 3, 3, 2, 2, 2, 2, 4, 4, 4, 4],
  #v[2, 5, 0, 5, 4, 4, 4, 4, 2, 4, 2, 4, 4, 4, 4, 4],
  #v[2, 6, 2, 8, 3, 3, 5, 5, 2, 2, 2, 2, 4, 4, 6, 6],
  #v[2, 5, 0, 8, 4, 4, 6, 6, 2, 4, 2, 7, 4, 4, 7, 7],
  #v[2, 6, 2, 8, 3, 3, 5, 5, 2, 2, 2, 2, 4, 4, 6, 6],
  #v[2, 5, 0, 8, 4, 4, 6, 6, 2, 4, 2, 7, 4, 4, 7, 7]]

def publishedBase (code : Uint8) : Nat := byNibbles publishedChart code

/- The opcodes the chart marks "add one if a page boundary is crossed", by addressing mode. -/
def publishedCrossing (code : Uint8) : Option Mode :=
  match code.toNat with
  | 0x1c | 0x1d | 0x3c | 0x3d | 0x5c | 0x5d | 0x7c | 0x7d | 0xbc | 0xbd | 0xdc | 0xdd | 0xfc | 0xfd =>
      some .absoluteX
  | 0x19 | 0x39 | 0x59 | 0x79 | 0xb9 | 0xbb | 0xbe | 0xbf | 0xd9 | 0xf9 => some .absoluteY
  | 0x11 | 0x31 | 0x51 | 0x71 | 0xb1 | 0xb3 | 0xd1 | 0xf1 => some .indirectY
  | _ => none

def publishedBranch (code : Uint8) : Option (Uint8 × Bool) :=
  match code.toNat with
  | 0x10 => some (flagN,false)
  | 0x30 => some (flagN,true)
  | 0x50 => some (flagV,false)
  | 0x70 => some (flagV,true)
  | 0x90 => some (flagC,false)
  | 0xb0 => some (flagC,true)
  | 0xd0 => some (flagZ,false)
  | 0xf0 => some (flagZ,true)
  | _ => none

/-! Costs, from the bytes a step fetched: opcode, operand bytes, then pointer bytes. -/

def operandWord : List Uint8 → Uint16
  | _ :: lo :: hi :: _ => word lo hi
  | _ => 0

def pointerWord : List Uint8 → Uint16
  | _ :: _ :: lo :: hi :: _ => word lo hi
  | _ => 0

def displacement : List Uint8 → Uint16
  | _ :: v :: _ => v.signExtend 16
  | _ => 0

def pagePenalty (base : Uint16) (index : Uint8) : Nat :=
  if highByte (base + index.setWidth 16) = highByte base then 0 else 1

def Mode.penalty (mode : Mode) (regs : Registers) (bytes : List Uint8) : Nat :=
  match mode with
  | absoluteX => pagePenalty (operandWord bytes) regs.x
  | absoluteY => pagePenalty (operandWord bytes) regs.y
  | indirectY => pagePenalty (pointerWord bytes) regs.y
  | _ => 0

def indexPenalty (code : Uint8) (regs : Registers) (bytes : List Uint8) : Nat :=
  match publishedCrossing code with
  | some mode => mode.penalty regs bytes
  | none => 0

def branchPenalty (code : Uint8) (regs : Registers) (bytes : List Uint8) : Nat :=
  match publishedBranch code with
  | none => 0
  | some (flag,set) =>
      if regs.getStatus flag = set then
        let next := regs.pc + 2
        if highByte (next + displacement bytes) = highByte next then 1 else 2
      else 0

def publishedCost (served : Served) (regs : Registers) (bytes : List Uint8) : Nat :=
  match served with
  | .nmi | .irq => 7
  | .executed code =>
      publishedBase code + indexPenalty code regs bytes + branchPenalty code regs bytes

/-! The matrix against the chart. -/

def Template.isRead : Template → Bool
  | read _ => true
  | _ => false

def Template.branchTest : Template → Option (Uint8 × Bool)
  | branch flag set => some (flag,set)
  | _ => none

theorem tableBase : ∀ code, code ∉ jamOpcodes → publishedBase code = (instruction code).cycles := by
  decide +kernel

theorem tableCrossing : ∀ code, publishedCrossing code =
    if (instruction code).op.template.isRead && (instruction code).mode.wideIndexed
    then some (instruction code).mode else none := by
  decide

theorem tableBranches : ∀ code, (instruction code).op.template.branchTest = publishedBranch code := by
  decide

/-! Costs of the actions. -/

theorem Mode.crossingPenalty {mode : Mode} (wide : mode.wideIndexed) (regs : Registers) (ptr : Uint16) :
    (if mode.crosses regs ptr then 1 else 0) = pagePenalty ptr (mode.index regs) := by
  have same := samePage (ptr + (mode.index regs).setWidth 16) ptr
  have address : mode.effective regs ptr = ptr + (mode.index regs).setWidth 16 := by
    cases mode <;> first | contradiction | rfl
  simp only [crosses,wide,address,Bool.true_and,bne_iff_ne,ne_eq,same,pagePenalty,ite_not]

theorem readCost (apply : Registers → Uint8 → Registers) (mode : Mode) (cycles : Nat) (code : Uint8)
    (pc : Uint16) (regs : Registers) :
    (mode.operand pc >>= (Template.read apply).action mode cycles regs).Every fun log out =>
      out.1 = cycles + mode.penalty regs (code :: log.map Access.value) := by
  simp only [Program.everyBind,Template.action]
  by_cases wide : mode.wideIndexed
  · simp only [Mode.crossingPenalty wide]
    cases mode <;> first | contradiction | skip
    all_goals
      simp only [Mode.operand,operandBytes,Mode.operandLength,Mode.pointer,Mode.zeroPageWord,Program.everyRead,
        Program.everyDone]
      intros
      refine Program.everyOf fun log val => ?_
      simp [Mode.penalty,operandWord,pointerWord,Access.value,Mode.index]
  · have flat : ∀ bytes, mode.penalty regs bytes = 0 := by
      intro bytes
      cases mode <;> first | rfl | exact absurd rfl wide
    simp only [flat,Mode.flatNeverCrosses (by simpa using wide : mode.wideIndexed = false)]
    exact Program.everyOf fun _ _ => Program.everyOf fun _ _ => Program.everyOf fun _ _ => by simp

theorem signExtended : ∀ v : Uint8,
    (if ((v.setWidth 16 : Uint16) &&& 0x80) != 0 then (v.setWidth 16 : Uint16) ||| 0xff00
      else v.setWidth 16) = v.signExtend 16 := by
  decide

theorem branchOutcomeCost (flag : Uint8) (set : Bool) (cycles : Nat) (regs : Registers) (v : Uint8) :
    (branchOutcome flag set cycles regs v).1 = cycles + if regs.getStatus flag = set then
      if highByte (regs.pc + v.signExtend 16) = highByte regs.pc then 1 else 2 else 0 := by
  simp only [branchOutcome,signExtended v]
  by_cases taken : regs.getStatus flag = set
  · rw [if_neg (by simp [taken]),if_pos taken]
    have page := samePage regs.pc (v.signExtend 16 + regs.pc)
    rw [BitVec.add_comm regs.pc]
    by_cases same : highByte regs.pc = highByte (v.signExtend 16 + regs.pc)
    · simp only [bne_iff_ne,ne_eq,page.mpr same,not_true_eq_false,if_false,if_pos same.symm]
    · simp only [bne_iff_ne,ne_eq,page,same,not_false_eq_true,if_true,if_neg (Ne.symm same)]
  · rw [if_pos (by simp [taken]),if_neg taken]
    rfl

theorem branchCost (flag : Uint8) (set : Bool) (cycles : Nat) (code : Uint8) (regs : Registers) :
    (Mode.relative.operand (regs.pc + 1) >>= (Template.branch flag set).action .relative cycles
        ({regs with pc := regs.pc + 1}.advance .relative)).Every fun log out =>
      out.1 = cycles + if regs.getStatus flag = set then
        if highByte (regs.pc + 2 + displacement (code :: log.map Access.value)) = highByte (regs.pc + 2)
        then 1 else 2 else 0 := by
  have next : regs.pc + 1 + BitVec.ofNat 16 1 = regs.pc + 2 := by rw [BitVec.add_assoc]; rfl
  simp only [Program.everyBind,Mode.operand,operandBytes,Mode.operandLength,Template.action,Program.everyRead,
    Program.everyDone,lowByteZeroPage,branchOutcomeCost,Registers.advance,next]
  intro v
  rfl

theorem flatCost {t : Template} (mode : Mode) (cycles : Nat) (regs : Registers) (data : Uint16)
    (quiet : t.isRead = false) (straight : t.branchTest = none) :
    (t.action mode cycles regs data).Every fun _ out => out.1 = cycles := by
  cases t with
  | read apply => contradiction
  | branch flag set => contradiction
  | readFlat apply => 
    simp only [Template.action,Program.everyBind]
    exact Program.everyOf fun _ _ => Program.everyOf fun _ _ => rfl
  | store source =>
    simp only [Template.action,Program.everyBind]
    exact Program.everyOf fun _ _ => Program.everyOf fun _ _ => rfl
  | shx reg =>
    simp only [Template.action,Program.everyBind]
    exact Program.everyOf fun _ _ => rfl
  | rmw result before after =>
    simp only [Template.action]
    split
    · rfl
    · simp only [Program.everyBind]
      exact Program.everyOf fun _ _ => Program.everyOf fun _ _ _ => rfl
  | jmp =>
    simp only [Template.action]
    split <;> simp
  | implied apply => rfl
  | push value => rfl
  | pull apply => exact fun _ => rfl
  | nop => rfl
  | brk => exact fun _ _ => rfl
  | jsr => rfl
  | rti => exact fun _ _ _ => rfl
  | rts => exact fun _ _ => rfl

theorem instructionCost (cpu : Processor) (code : Uint8) (charted : code ∉ jamOpcodes) :
    (cpu.instructionBody code).Every fun log out =>
      out.1 = publishedCost (.executed code) cpu.regs (code :: log.map Access.value) := by
  have base := tableBase code charted
  have crossing := tableCrossing code
  have branches := tableBranches code
  have admitted := tableAdmits code
  simp only [Processor.instructionBody,publishedCost,base,indexPenalty,branchPenalty,crossing,← branches]
  generalize (instruction code).mode = mode at *
  cases body : (instruction code).op.template with
  | read apply =>
    refine Program.everyMono (readCost apply mode _ code _ _) fun log out cost => ?_
    have sameIndex (bytes) :
        mode.penalty ({cpu.regs with pc := cpu.regs.pc + 1}.advance mode) bytes = mode.penalty cpu.regs bytes := by
      cases mode <;> rfl
    rw [cost,sameIndex]
    cases wide : mode.wideIndexed with
    | true => rfl
    | false => cases mode <;> first | contradiction | rfl
  | branch flag set =>
    rw [body] at admitted
    have relative : mode = .relative := by simpa [Template.admits] using admitted
    subst relative
    exact branchCost flag set _ code cpu.regs
  | _ =>
    simp only [Program.everyBind]
    exact Program.everyOf fun _ data =>
      Program.everyMono (flatCost mode _ _ data rfl rfl) fun _ _ cost => cost

theorem cyclesArePublished {σ : Type} (d : Device Uint16 Uint8 σ) (m : Machine σ)
    (running : ∀ code ∈ jamOpcodes, m.served d ≠ .executed code) :
    (m.step d).cpu.cycles =
      m.cpu.cycles + publishedCost (m.served d) m.cpu.regs ((m.accesses d).map Access.value) := by
  refine m.steppedOfEvery d (Q := fun log out => (∀ code ∈ jamOpcodes, out.1 ≠ .executed code) →
    out.2.cycles = m.cpu.cycles + publishedCost out.1 m.cpu.regs (log.map Access.value)) ?_ running
  refine Processor.everyStep ?_ ?_ ?_
  · intro _ lo hi _
    rfl
  · intro _ _ _ lo hi _
    rfl
  · intro _ code
    by_cases charted : code ∈ jamOpcodes
    · exact Program.everyOf fun _ _ running => absurd rfl (running code charted)
    · refine Program.everyMono (instructionCost m.cpu code charted) fun log out cost _ => ?_
      simp only [Processor.afterExecute,List.map_cons,Access.value,cost]

theorem crossingLoadCost :
    let m := Machine.rig [(0x0400,0xbd), (0x0401,0xff), (0x0402,0x10)]
    let m := {m with cpu := {m.cpu with regs := {m.cpu.regs with x := 1}}}
    (m.step Bus.device).cpu.cycles = m.cpu.cycles + 5 := by
  intro program m
  have charged := cyclesArePublished Bus.device m (by decide)
  exact charged.trans (by decide)

end Emu6502
