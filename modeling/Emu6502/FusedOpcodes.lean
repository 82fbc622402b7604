import Emu6502.MemoryEffect
import Emu6502.LoadAndRun

/-! The undocumented opcodes that do two documented ones in one: on the registers, the flags the
first half sets in passing are set again by the second; on RAM, one step against two. -/
namespace Emu6502
open Interaction WrappingCursor

/- Equal but for pc and for the status bits in `mask`. -/
structure ApartIn (mask : Uint8) (regs other : Registers) : Prop where
  a : regs.a = other.a
  x : regs.x = other.x
  y : regs.y = other.y
  sp : regs.sp = other.sp
  sr : regs.sr &&& ~~~mask = other.sr &&& ~~~mask
  decimalDisabled : regs.decimalDisabled = other.decimalDisabled

namespace ApartIn
variable {mask : Uint8} {regs other : Registers}

theorem refl (mask : Uint8) (regs : Registers) : ApartIn mask regs regs := ⟨rfl,rfl,rfl,rfl,rfl,rfl⟩

theorem symm (apart : ApartIn mask regs other) : ApartIn mask other regs :=
  ⟨apart.a.symm,apart.x.symm,apart.y.symm,apart.sp.symm,apart.sr.symm,apart.decimalDisabled.symm⟩

theorem trans {last : Registers} (first : ApartIn mask regs other) (second : ApartIn mask other last) :
    ApartIn mask regs last :=
  ⟨first.a.trans second.a,first.x.trans second.x,first.y.trans second.y,first.sp.trans second.sp,
    first.sr.trans second.sr,first.decimalDisabled.trans second.decimalDisabled⟩

theorem setStatus (apart : ApartIn mask regs other) (flag : Uint8) (v : Bool) :
    ApartIn (mask &&& ~~~flag) (regs.setStatus flag v) (other.setStatus flag v) := by
  refine ⟨apart.a,apart.x,apart.y,apart.sp,?_,apart.decimalDisabled⟩
  apply BitVec.eq_of_getLsbD_eq
  intro i within
  have bit := congrArg (fun sr => sr.getLsbD i) apart.sr
  simp only [BitVec.getLsbD_and,BitVec.getLsbD_not,within,decide_true,Bool.true_and] at bit
  cases v <;> simp only [Registers.setStatus,if_true,Bool.false_eq_true,if_false,BitVec.getLsbD_and,
    BitVec.getLsbD_or,BitVec.getLsbD_not,within,decide_true,Bool.true_and]
  all_goals cases flag.getLsbD i <;> simp_all

theorem setA (apart : ApartIn mask regs other) (val : Uint8) :
    ApartIn mask {regs with a := val} {other with a := val} :=
  ⟨rfl,apart.x,apart.y,apart.sp,apart.sr,apart.decimalDisabled⟩

theorem setX (apart : ApartIn mask regs other) (val : Uint8) :
    ApartIn mask {regs with x := val} {other with x := val} :=
  ⟨apart.a,rfl,apart.y,apart.sp,apart.sr,apart.decimalDisabled⟩

theorem status (apart : ApartIn mask regs other) (flag : Uint8) (seen : flag &&& mask = 0) :
    regs.getStatus flag = other.getStatus flag := by
  have kept (sr : Uint8) : sr &&& flag = sr &&& ~~~mask &&& flag := by
    apply BitVec.eq_of_getLsbD_eq
    intro i within
    have bit := congrArg (fun b => b.getLsbD i) seen
    simp only [BitVec.getLsbD_and] at bit
    simp only [BitVec.getLsbD_and,BitVec.getLsbD_not,within,decide_true,Bool.true_and]
    cases h : flag.getLsbD i <;> simp_all
  simp only [Registers.getStatus]
  rw [kept regs.sr,kept other.sr,apart.sr]

theorem setNZ (apart : ApartIn (flagN ||| flagZ) regs other) (val : Uint8) :
    ApartIn 0 (Emu6502.setNZ regs val) (Emu6502.setNZ other val) :=
  (apart.setStatus flagZ _).setStatus flagN _

theorem wholeStatus (apart : ApartIn 0 regs other) : regs.sr = other.sr := by
  have same := apart.sr
  rwa [show ~~~(0 : Uint8) = BitVec.allOnes 8 from rfl,BitVec.and_allOnes,BitVec.and_allOnes] at same

theorem weaken (apart : ApartIn 0 regs other) : ApartIn mask regs other :=
  ⟨apart.a,apart.x,apart.y,apart.sp,congrArg (· &&& _) apart.wholeStatus,apart.decimalDisabled⟩

theorem settled (apart : ApartIn 0 regs other) : regs = {other with pc := regs.pc} := by
  have whole := apart.wholeStatus
  obtain ⟨a,x,y,sr,sp,pc,decimalDisabled⟩ := regs
  obtain ⟨rfl,rfl,rfl,rfl,_,rfl⟩ := apart
  obtain rfl := whole
  rfl

end ApartIn

theorem setNZApart (regs : Registers) (val : Uint8) : ApartIn (flagN ||| flagZ) (setNZ regs val) regs :=
  ⟨rfl,rfl,rfl,rfl,setNZKeeps (by decide) (by decide) regs val,rfl⟩

namespace ApartIn
variable {regs other : Registers} (apart : ApartIn (flagN ||| flagZ) regs other)
include apart

theorem decimalMode : regs.decimalMode = other.decimalMode := by
  simp only [Registers.decimalMode,apart.decimalDisabled,apart.status flagD (by decide)]

theorem adcCore (val : Uint8) : ApartIn 0 (Emu6502.adcCore regs val) (Emu6502.adcCore other val) := by
  have carry := apart.status flagC (by decide)
  have sum : adcResult regs val = adcResult other val := by simp only [adcResult,apart.a,carry]
  have middle : adcMiddle regs val = adcMiddle other val := by simp only [adcMiddle,sum,apart.a,carry]
  have adjusted : adcAdjusted regs val = adcAdjusted other val := by simp only [adcAdjusted,sum,apart.a,carry]
  cases mode : regs.decimalMode with
  | true =>
    rw [adcCoreDecimal mode,adcCoreDecimal (apart.decimalMode.symm.trans mode)]
    simp only [sum,middle,adjusted,apart.a]
    exact ((((apart.setStatus flagZ _).setStatus flagN _).setStatus flagV _).setStatus flagC _).setA _
  | false =>
    rw [adcCoreBinary mode,adcCoreBinary (apart.decimalMode.symm.trans mode)]
    simp only [sum,apart.a]
    exact ((((apart.setStatus flagZ _).setStatus flagV _).setStatus flagC _).setStatus flagN _).setA _

theorem sbcCore (val : Uint8) : ApartIn 0 (Emu6502.sbcCore regs val) (Emu6502.sbcCore other val) := by
  have carry := apart.status flagC (by decide)
  have difference : sbcResult regs val = sbcResult other val := by simp only [sbcResult,apart.a,carry]
  have adjusted : sbcAdjusted regs val = sbcAdjusted other val := by simp only [sbcAdjusted,difference,apart.a,carry]
  cases mode : regs.decimalMode with
  | true =>
    rw [sbcCoreDecimal mode,sbcCoreDecimal (apart.decimalMode.symm.trans mode)]
    simp only [difference,adjusted,apart.a]
    exact ((((apart.setStatus flagV _).setStatus flagN _).setStatus flagZ _).setA _).setStatus flagC _
  | false =>
    rw [sbcCoreBinary mode,sbcCoreBinary (apart.decimalMode.symm.trans mode)]
    simp only [difference,apart.a]
    exact ((((apart.setStatus flagV _).setStatus flagN _).setStatus flagZ _).setA _).setStatus flagC _

theorem cmpCoreA (val : Uint8) : ApartIn 0 (cmpCore regs regs.a val) (cmpCore other other.a val) := by
  rw [apart.a]
  exact ((apart.setStatus flagC _).setStatus flagZ _).setStatus flagN _

theorem combine (f : Uint8 → Uint8 → Uint8) (val : Uint8) :
    ApartIn 0 (Emu6502.setNZ {regs with a := f regs.a val} (f regs.a val))
      (Emu6502.setNZ {other with a := f other.a val} (f other.a val)) := by
  rw [apart.a]
  exact (apart.setA _).setNZ _

end ApartIn

/- What makes the first template, on an operand of this mode, the other two in turn: with equal
registers between them, pc apart, the registers at the end are equal. The last mode is the
second half's own: the same operand, X or the accumulator. -/
inductive Template.Fuses (mode : Mode) : Template → Template → Template → Mode → Prop where
  | rewritten {result : Registers → Uint8 → Uint8} {before settle : Registers → Uint8 → Uint8 → Registers}
      {after finish apply : Registers → Uint8 → Registers}
      (agree : ∀ regs orig mid, let val := result regs orig
        ApartIn 0 (finish (settle regs orig val) val) mid →
          ApartIn 0 (after (before regs orig val) val) (apply mid val))
      (index : ∀ regs orig val, (finish (settle regs orig val) val).x = regs.x ∧
        (finish (settle regs orig val) val).y = regs.y) :
      Fuses mode (.rmw result before after) (.rmw result settle finish) (.read apply) mode
  | moved {fused load : Registers → Uint8 → Registers} {move : Registers → Registers}
      (agree : ∀ regs val mid, ApartIn 0 (load regs val) mid → ApartIn 0 (fused regs val) (move mid)) :
      Fuses mode (.read fused) (.read load) (.implied move) .null
  | shifted {fused load finish : Registers → Uint8 → Registers} {result : Registers → Uint8 → Uint8}
      {settle : Registers → Uint8 → Uint8 → Registers}
      (agree : ∀ regs val mid, ApartIn 0 (load regs val) mid → let shifted := result mid mid.a
        ApartIn 0 (fused regs val) (finish {settle mid mid.a shifted with a := shifted} shifted)) :
      Fuses mode (.readFlat fused) (.read load) (.rmw result settle finish) .accumulator

def fusedOps : List (Op × Op × Op) :=
  [(.slo,.asl,.ora),(.rla,.rol,.and),(.sre,.lsr,.eor),(.rra,.ror,.adc),(.dcp,.dec,.cmp),(.isc,.inc,.sbc),
    (.lax,.lda,.tax),(.alr,.and,.lsr)]

def Op.secondMode (fused : Op) (mode : Mode) : Mode :=
  match fused with
  | .lax => .null
  | .alr => .accumulator
  | _ => mode

theorem unsettled {regs mid : Registers} {val : Uint8} (apart : ApartIn 0 (setNZ regs val) mid) :
    ApartIn (flagN ||| flagZ) regs mid :=
  (setNZApart regs val).symm.trans apart.weaken

theorem opsFuse {fused first second : Op} (among : (fused,first,second) ∈ fusedOps) (mode : Mode) :
    Template.Fuses mode fused.template first.template second.template (fused.secondMode mode) := by
  simp only [fusedOps,List.mem_cons,Prod.mk.injEq,List.not_mem_nil,or_false] at among
  rcases among with slo | rla | sre | rra | dcp | isc | lax | alr
  · obtain ⟨rfl,rfl,rfl⟩ := slo
    exact .rewritten (fun regs orig mid apart => (unsettled apart).combine (· ||| ·) _) fun _ _ _ => ⟨rfl,rfl⟩
  · obtain ⟨rfl,rfl,rfl⟩ := rla
    exact .rewritten (fun regs orig mid apart => (unsettled apart).combine (· &&& ·) _) fun _ _ _ => ⟨rfl,rfl⟩
  · obtain ⟨rfl,rfl,rfl⟩ := sre
    exact .rewritten (fun regs orig mid apart => (unsettled apart).combine (· ^^^ ·) _) fun _ _ _ => ⟨rfl,rfl⟩
  · obtain ⟨rfl,rfl,rfl⟩ := rra
    exact .rewritten (fun regs orig mid apart => (unsettled apart).adcCore _) fun _ _ _ => ⟨rfl,rfl⟩
  · obtain ⟨rfl,rfl,rfl⟩ := dcp
    exact .rewritten (fun regs orig mid apart => (unsettled apart).cmpCoreA _) fun _ _ _ => ⟨rfl,rfl⟩
  · obtain ⟨rfl,rfl,rfl⟩ := isc
    exact .rewritten (fun regs orig mid apart => (unsettled apart).sbcCore _) fun _ _ _ => ⟨rfl,rfl⟩
  · obtain ⟨rfl,rfl,rfl⟩ := lax
    refine .moved fun regs val mid apart => ?_
    have halfway := unsettled apart
    obtain ⟨a,x,y,sr,sp,pc,decimalDisabled⟩ := mid
    obtain rfl : val = a := halfway.a
    exact (halfway.setX val).setNZ val
  · obtain ⟨rfl,rfl,rfl⟩ := alr
    refine .shifted fun regs val mid apart => ?_
    intro shifted
    have halfway := unsettled apart
    obtain ⟨a,x,y,sr,sp,pc,decimalDisabled⟩ := mid
    obtain rfl : regs.a &&& val = a := halfway.a
    exact ((halfway.setStatus flagC _).setNZ shifted).setA shifted

theorem passedApart (cpu : Processor) (code : Uint8) : ApartIn 0 cpu.regs (cpu.passed code) :=
  ⟨rfl,rfl,rfl,rfl,rfl,rfl⟩

/- Three opcodes: the fused one, and the pair in its mode. -/
structure Fusion (fused first second : Uint8) : Prop where
  ops : ((instruction fused).op,(instruction first).op,(instruction second).op) ∈ fusedOps
  mode : (instruction first).mode = (instruction fused).mode
  rest : (instruction second).mode = (instruction fused).op.secondMode (instruction fused).mode

def pairBytes (first second : Uint8) (operand : List Uint8) : List Uint8 :=
  first :: operand ++ second :: operand.take (instruction second).mode.operandLength

namespace Machine

def pointerAddresses (m : Machine RamBus) (mode : Mode) : List Uint16 :=
  let cells := mode.pointerCells m.cpu.regs (m.bytes mode).zp
  if mode = .indirectX ∨ mode = .indirectY then [busAddress cells.1,busAddress cells.2] else []

def instructionBytes (n : Machine RamBus) (first second : Uint8) (operand : List Uint8) : List Uint16 :=
  addresses n.cpu.regs.pc (pairBytes first second operand).length

/- One state but for the instruction bytes, the fused opcode in one, the pair in the other, and no
interrupt is taken ahead of an instruction. -/
structure SideBySide (m n : Machine RamBus) (fused first second : Uint8) (operand : List Uint8) : Prop where
  registers : m.cpu.regs = n.cpu.regs
  width : operand.length = (instruction fused).mode.operandLength
  one : Placed m.bus.val m.cpu.regs.pc (fused :: operand)
  two : Placed n.bus.val n.cpu.regs.pc (pairBytes first second operand)
  elsewhere : ∀ address, address ∉ n.instructionBytes first second operand → m.memory address = n.memory address
  free : m.cpu.executes = true
  freeFirst : n.cpu.executes = true
  freeSecond : (n.step RamBus.device).cpu.executes = true

/- The operand is apart from the instruction bytes, and a pointer to it is the same on both machines. -/
structure OperandApart (m n : Machine RamBus) (mode : Mode) (first second : Uint8) (operand : List Uint8) : Prop where
  address : m.effectiveAddress mode ∉ n.instructionBytes first second operand
  pointer : ∀ cell ∈ m.pointerAddresses mode, m.memory cell = n.memory cell

theorem ramServed {m : Machine RamBus} {code : Uint8} {operand : List Uint8} (free : m.cpu.executes = true)
    (placed : Placed m.bus.val m.cpu.regs.pc (code :: operand)) : m.served RamBus.device = .executed code := by
  rw [served,steppedExecute RamBus.device free]
  exact congrArg Served.executed (placedCons placed).1

theorem firstByte (m : Machine RamBus) (mode : Mode) : (m.bytes mode).first = m.bus.val.read (m.cpu.regs.pc + 1) := rfl

theorem secondByte (m : Machine RamBus) (mode : Mode) :
    (m.bytes mode).second = m.bus.val.read (m.cpu.regs.pc + 1 + 1) := by
  rw [show m.cpu.regs.pc + 1 + 1 = m.cpu.regs.pc + 2 from BitVec.add_assoc _ _ _]
  rfl

theorem operandBytesSame {m n : Machine RamBus} {mode : Mode} {code other : Uint8} {operand : List Uint8}
    (width : operand.length = mode.operandLength) (left : Placed m.bus.val m.cpu.regs.pc (code :: operand))
    (right : Placed n.bus.val n.cpu.regs.pc (other :: operand)) :
    (mode.operandLength ≠ 0 → (m.bytes mode).first = (n.bytes mode).first) ∧
      (mode.operandLength = 2 → (m.bytes mode).second = (n.bytes mode).second) := by
  have leftRest := (placedCons left).2
  have rightRest := (placedCons right).2
  rw [← width,firstByte,firstByte,secondByte,secondByte]
  match operand with
  | [] => exact ⟨fun none => absurd rfl none,fun two => absurd two (by decide)⟩
  | v :: rest =>
    obtain ⟨leftFirst,leftMore⟩ := placedCons leftRest
    obtain ⟨rightFirst,rightMore⟩ := placedCons rightRest
    refine ⟨fun _ => leftFirst.trans rightFirst.symm,fun two => ?_⟩
    obtain ⟨w,rfl⟩ := List.length_eq_one_iff.mp (Nat.succ.inj two)
    exact (placedCons leftMore).1.trans (placedCons rightMore).1.symm

theorem pointerBytes (m : Machine RamBus) (mode : Mode) :
    let cells := mode.pointerCells m.cpu.regs (m.bytes mode).zp
    (m.bytes mode).low = m.memory (busAddress cells.1) ∧ (m.bytes mode).high = m.memory (busAddress cells.2) :=
  ⟨rfl,rfl⟩

theorem effectiveSame {m n : Machine RamBus} {mode : Mode} {code other : Uint8} {operand : List Uint8}
    (memory : mode.addressed = true) (width : operand.length = mode.operandLength)
    (left : Placed m.bus.val m.cpu.regs.pc (code :: operand)) (right : Placed n.bus.val n.cpu.regs.pc (other :: operand))
    (x : m.cpu.regs.x = n.cpu.regs.x) (y : m.cpu.regs.y = n.cpu.regs.y)
    (pointers : ∀ cell ∈ m.pointerAddresses mode, m.memory cell = n.memory cell) :
    m.effectiveAddress mode = n.effectiveAddress mode := by
  obtain ⟨first,second⟩ := operandBytesSame width left right
  have pointed (indirect : mode = .indirectX ∨ mode = .indirectY) (one : (m.bytes mode).first = (n.bytes mode).first) :
      (m.bytes mode).low = (n.bytes mode).low ∧ (m.bytes mode).high = (n.bytes mode).high := by
    have cells : mode.pointerCells m.cpu.regs (m.bytes mode).zp = mode.pointerCells n.cpu.regs (n.bytes mode).zp := by
      rcases indirect with rfl | rfl <;> simp only [Mode.pointerCells,Bytes.zp,one,x]
    simp only [pointerAddresses,if_pos indirect,List.forall_mem_cons] at pointers
    obtain ⟨low,high,_⟩ := pointers
    rw [(pointerBytes m mode).1,(pointerBytes m mode).2,low,high,cells]
    exact ⟨rfl,rfl⟩
  unfold effectiveAddress
  refine congrArg busAddress ?_
  cases mode <;> first | contradiction | skip
  case zeroPage => simp only [Mode.reference,Bytes.zp,first (by decide)]
  case zeroPageX => simp only [Mode.reference,Bytes.zp,first (by decide),x]
  case zeroPageY => simp only [Mode.reference,Bytes.zp,first (by decide),y]
  case absolute => simp only [Mode.reference,Bytes.absolute,first (by decide),second (by decide)]
  case absoluteX => simp only [Mode.reference,Bytes.absolute,first (by decide),second (by decide),x]
  case absoluteY => simp only [Mode.reference,Bytes.absolute,first (by decide),second (by decide),y]
  case indirectX =>
    obtain ⟨low,high⟩ := pointed (.inl rfl) (first (by decide))
    simp only [Mode.reference,Bytes.pointer,low,high]
  case indirectY =>
    obtain ⟨low,high⟩ := pointed (.inr rfl) (first (by decide))
    simp only [Mode.reference,Bytes.pointer,low,high,y]

def operandAddress (m : Machine RamBus) (mode : Mode) : Uint16 :=
  if mode.addressed then m.effectiveAddress mode else m.cpu.regs.pc + 1

theorem ramReads {m : Machine RamBus} {code : Uint8} {apply : Registers → Uint8 → Registers}
    (ran : m.served RamBus.device = .executed code)
    (template : (instruction code).op.template = .read apply ∨ (instruction code).op.template = .readFlat apply) :
    (m.step RamBus.device).cpu.regs = apply (m.cpu.passed code) (m.memory (m.operandAddress (instruction code).mode)) ∧
      (m.step RamBus.device).memory = m.memory := by
  unfold operandAddress
  cases memory : (instruction code).mode.addressed with
  | true => exact ramLoads ran memory template
  | false =>
    have immediate : (instruction code).mode = .immediate := by
      have admitted := tableAdmits code
      rcases template with template | template <;> simpa [template,Template.admits,memory] using admitted
    obtain ⟨log,cost,accesses,val,rfl,left⟩ := m.executedEvery RamBus.device ran (immediateSequence immediate template m.cpu)
    have readOnly : ∀ access ∈ m.accesses RamBus.device, access.isRead = true := by simp [accesses,Access.isRead]
    have stands := m.readsStand (List.append_nil _).symm readOnly
    have found : val = m.memory (m.cpu.regs.pc + 1) := stands (.read _ val) (by simp [accesses])
    exact ⟨found ▸ left,readsKeep readOnly⟩

theorem ramMoves {m : Machine RamBus} {code : Uint8} {apply : Registers → Registers}
    (ran : m.served RamBus.device = .executed code) (template : (instruction code).op.template = .implied apply) :
    (m.step RamBus.device).cpu.regs = apply (m.cpu.passed code) ∧ (m.step RamBus.device).memory = m.memory := by
  obtain ⟨log,cost,accesses,rfl,left⟩ := m.executedEvery RamBus.device ran (impliedSequence template m.cpu)
  exact ⟨left,readsKeep (by simp [accesses,Access.isRead])⟩

theorem ramShifts {m : Machine RamBus} {code : Uint8} {result : Registers → Uint8 → Uint8}
    {before : Registers → Uint8 → Uint8 → Registers} {after : Registers → Uint8 → Registers}
    (ran : m.served RamBus.device = .executed code) (mode : (instruction code).mode = .accumulator)
    (template : (instruction code).op.template = .rmw result before after) :
    let regs := m.cpu.passed code
    let val := result regs regs.a
    (m.step RamBus.device).cpu.regs = after {before regs regs.a val with a := val} val ∧
      (m.step RamBus.device).memory = m.memory := by
  obtain ⟨log,cost,accesses,rfl,left⟩ := m.executedEvery RamBus.device ran (accumulatorSequence mode template m.cpu)
  exact ⟨left,readsKeep (by simp [accesses,Access.isRead])⟩

theorem fusedOperands : ∀ code, (instruction code).op ∈ fusedOps.map (·.1) →
    (instruction code).mode.operandLength ≠ 0 ∧
      ((instruction code).op.template.rewrites = true → (instruction code).mode.addressed = true) := by
  decide

theorem firstHalves : ∀ code, (instruction code).op ∈ fusedOps.map (·.2.1) →
    code ∉ jumpOpcodes ∧ (instruction code).op.template.branches = false ∧
      ((instruction code).op.template.rewrites = true →
        (instruction code).mode ≠ .indirectX ∧ (instruction code).mode ≠ .indirectY) := by
  decide

namespace SideBySide
variable {m n : Machine RamBus} {fused first second : Uint8} {operand : List Uint8}
  (side : SideBySide m n fused first second operand) (fusion : Fusion fused first second)
include side

theorem pairSplit : Placed n.bus.val n.cpu.regs.pc (first :: operand) ∧
    Placed n.bus.val (n.cpu.regs.pc + BitVec.ofNat 16 (operand.length + 1))
      (second :: operand.take (instruction second).mode.operandLength) :=
  placedAppend side.two

theorem ranFused : m.served RamBus.device = .executed fused := ramServed side.free side.one

theorem ranFirst : n.served RamBus.device = .executed first := ramServed side.freeFirst side.pairSplit.1

theorem firstAddress (memory : (instruction fused).mode.addressed = true)
    (outside : OperandApart m n (instruction fused).mode first second operand) :
    m.effectiveAddress (instruction fused).mode = n.effectiveAddress (instruction fused).mode :=
  effectiveSame memory side.width side.one side.pairSplit.1 (congrArg _ side.registers) (congrArg _ side.registers)
    outside.pointer

include fusion

theorem passedSame : m.cpu.passed fused = n.cpu.passed first := by
  unfold Processor.passed
  rw [side.registers,fusion.mode]

theorem secondPc : (n.step RamBus.device).cpu.regs.pc = n.cpu.regs.pc + BitVec.ofNat 16 (operand.length + 1) := by
  obtain ⟨onward,plain,_⟩ := firstHalves first (List.mem_map.mpr ⟨_,fusion.ops,rfl⟩)
  have opcode : (RamBus.device.read n.bus n.cpu.regs.pc).1 = first := (placedCons side.pairSplit.1).1
  have straight := straightOf RamBus.device side.freeFirst (opcode ▸ onward) (opcode ▸ plain)
  rw [straightStepPc RamBus.device straight,opcode,fusion.mode,← side.width,nextCell]

theorem secondPlaced (kept : ∀ address ∈ n.instructionBytes first second operand,
    (n.step RamBus.device).memory address = n.memory address) :
    Placed (n.step RamBus.device).bus.val (n.step RamBus.device).cpu.regs.pc
      (second :: operand.take (instruction second).mode.operandLength) := by
  have whole : Placed (n.step RamBus.device).bus.val n.cpu.regs.pc (pairBytes first second operand) := by
    intro k within
    have cell := kept _ (List.mem_map.mpr ⟨k,List.mem_range.mpr within,rfl⟩)
    exact cell.trans (side.two k within)
  rw [side.secondPc fusion]
  exact (placedAppend whole).2

theorem ranSecond (kept : ∀ address ∈ n.instructionBytes first second operand,
    (n.step RamBus.device).memory address = n.memory address) :
    (n.step RamBus.device).served RamBus.device = .executed second :=
  ramServed side.freeSecond (side.secondPlaced fusion kept)

/- The first half works on the fused opcode's operand, and not on an instruction byte. -/
theorem firstRewrites (memory : (instruction fused).mode.addressed = true)
    (outside : OperandApart m n (instruction fused).mode first second operand)
    {result : Registers → Uint8 → Uint8} {settle : Registers → Uint8 → Uint8 → Registers}
    {finish : Registers → Uint8 → Registers} (template : (instruction first).op.template = .rmw result settle finish) :
    let orig := m.memory (m.effectiveAddress (instruction fused).mode)
    let val := result (m.cpu.passed fused) orig
    (n.step RamBus.device).cpu.regs = finish (settle (m.cpu.passed fused) orig val) val ∧
      (∀ address, (n.step RamBus.device).memory address =
        if address = m.effectiveAddress (instruction fused).mode then val else n.memory address) ∧
      ∀ address ∈ n.instructionBytes first second operand,
        (n.step RamBus.device).memory address = n.memory address := by
  have same := side.firstAddress memory outside
  have ea := outside.address
  obtain ⟨middle,written⟩ := ramRewrites side.ranFirst (fusion.mode ▸ memory) template
  rw [fusion.mode,← same,← side.passedSame fusion,← side.elsewhere _ ea] at middle written
  refine ⟨middle,written,fun address among => ?_⟩
  have apart : address ≠ m.effectiveAddress (instruction fused).mode := by
    rintro rfl
    exact ea among
  rw [written,if_neg apart]

theorem secondAddress (memory : (instruction fused).mode.addressed = true)
    (again : (instruction second).mode = (instruction fused).mode)
    (direct : (instruction fused).mode ≠ .indirectX ∧ (instruction fused).mode ≠ .indirectY)
    (kept : ∀ address ∈ n.instructionBytes first second operand,
      (n.step RamBus.device).memory address = n.memory address)
    (x : (n.step RamBus.device).cpu.regs.x = m.cpu.regs.x) (y : (n.step RamBus.device).cpu.regs.y = m.cpu.regs.y) :
    m.effectiveAddress (instruction fused).mode = (n.step RamBus.device).effectiveAddress (instruction fused).mode := by
  have placed := side.secondPlaced fusion kept
  rw [again,← side.width,List.take_length] at placed
  have none : m.pointerAddresses (instruction fused).mode = [] := if_neg (not_or.mpr direct)
  refine effectiveSame memory side.width side.one placed x.symm y.symm ?_
  rw [none]
  exact List.forall_mem_nil _

theorem operandSame (outside : (instruction fused).mode.addressed = true →
      OperandApart m n (instruction fused).mode first second operand) :
    m.memory (m.operandAddress (instruction fused).mode) = n.memory (n.operandAddress (instruction fused).mode) := by
  have bytes := (fusedOperands fused (List.mem_map.mpr ⟨_,fusion.ops,rfl⟩)).1
  unfold operandAddress
  split
  · rename_i memory
    rw [← side.firstAddress memory (outside memory)]
    exact side.elsewhere _ (outside memory).address
  · exact (operandBytesSame side.width side.one side.pairSplit.1).1 bytes

theorem firstLoads (outside : (instruction fused).mode.addressed = true →
      OperandApart m n (instruction fused).mode first second operand)
    {load : Registers → Uint8 → Registers} (template : (instruction first).op.template = .read load) :
    ApartIn 0 (load (m.cpu.passed fused) (m.memory (m.operandAddress (instruction fused).mode)))
        ((n.step RamBus.device).cpu.passed second) ∧
      (n.step RamBus.device).memory = n.memory ∧ (n.step RamBus.device).served RamBus.device = .executed second := by
  obtain ⟨middle,still⟩ := ramReads side.ranFirst (.inl template)
  rw [fusion.mode,← side.operandSame fusion outside,← side.passedSame fusion] at middle
  have halfway := passedApart (n.step RamBus.device).cpu second
  rw [middle] at halfway
  exact ⟨halfway,still,side.ranSecond fusion fun address _ => congrFun still address⟩

end SideBySide

/-- One step of the fused opcode leaves the registers, pc apart, and the memory outside the
instruction bytes as two steps of the pair do, provided that the effective address is not among the
instruction bytes and a pointer is the same on both machines. -/
theorem fusedIsPair (m n : Machine RamBus) (fused first second : Uint8) (operand : List Uint8)
    (fusion : Fusion fused first second) (side : SideBySide m n fused first second operand)
    (outside : (instruction fused).mode.addressed = true →
      OperandApart m n (instruction fused).mode first second operand) :
    let one := m.step RamBus.device
    let two := (n.step RamBus.device).step RamBus.device
    m.served RamBus.device = .executed fused ∧ n.served RamBus.device = .executed first ∧
      (n.step RamBus.device).served RamBus.device = .executed second ∧
      one.cpu.regs = {two.cpu.regs with pc := one.cpu.regs.pc} ∧
      ∀ address, address ∉ n.instructionBytes first second operand → one.memory address = two.memory address := by
  intro one two
  have fuses := opsFuse fusion.ops (instruction fused).mode
  rw [← fusion.rest] at fuses
  generalize templateFused : (instruction fused).op.template = a at fuses
  generalize templateFirst : (instruction first).op.template = b at fuses
  generalize templateSecond : (instruction second).op.template = c at fuses
  generalize modeSecond : (instruction second).mode = rest at fuses
  cases fuses with
  | rewritten agree index =>
    have memory := (fusedOperands fused (List.mem_map.mpr ⟨_,fusion.ops,rfl⟩)).2 (by rw [templateFused]; rfl)
    have direct := (firstHalves first (List.mem_map.mpr ⟨_,fusion.ops,rfl⟩)).2.2 (by rw [templateFirst]; rfl)
    rw [fusion.mode] at direct
    obtain ⟨left,stored⟩ := ramRewrites side.ranFused memory templateFused
    obtain ⟨middle,written,kept⟩ := side.firstRewrites fusion memory (outside memory) templateFirst
    have ran := side.ranSecond fusion kept
    obtain ⟨x,y⟩ := index (m.cpu.passed fused) (m.memory (m.effectiveAddress (instruction fused).mode)) _
    rw [← middle] at x y
    have same := side.secondAddress fusion memory modeSecond direct kept x y
    obtain ⟨right,last⟩ := ramReads ran (.inl templateSecond)
    rw [operandAddress,modeSecond,if_pos memory,← same,written,if_pos rfl] at right
    have halfway := passedApart (n.step RamBus.device).cpu second
    rw [middle] at halfway
    refine ⟨side.ranFused,side.ranFirst,ran,?_,fun address outer => ?_⟩
    · rw [left,right]
      exact (agree _ _ _ halfway).settled
    · rw [stored,last,written,side.elsewhere address outer]
  | moved agree =>
    obtain ⟨left,kept⟩ := ramReads side.ranFused (.inl templateFused)
    obtain ⟨halfway,still,ran⟩ := side.firstLoads fusion outside templateFirst
    obtain ⟨right,last⟩ := ramMoves ran templateSecond
    refine ⟨side.ranFused,side.ranFirst,ran,?_,fun address outer => ?_⟩
    · rw [left,right]
      exact (agree _ _ _ halfway).settled
    · rw [kept,last,still]
      exact side.elsewhere address outer
  | shifted agree =>
    obtain ⟨left,kept⟩ := ramReads side.ranFused (.inr templateFused)
    obtain ⟨halfway,still,ran⟩ := side.firstLoads fusion outside templateFirst
    obtain ⟨right,last⟩ := ramShifts ran modeSecond templateSecond
    refine ⟨side.ranFused,side.ranFirst,ran,?_,fun address outer => ?_⟩
    · rw [left,right]
      exact (agree _ _ _ halfway).settled
    · rw [kept,last,still]
      exact side.elsewhere address outer

def put (bus : RamBus) (start : Uint16) : List Uint8 → RamBus
  | [] => bus
  | v :: vs => put (RamBus.device.write bus start v) (start + 1) vs

theorem putPlaces (bus : RamBus) (start : Uint16) (program : List Uint8) :
    (put bus start program).val.read = place bus.val.read start program := by
  induction program generalizing bus start with
  | nil => rfl
  | cons v vs ih =>
    have first : (RamBus.device.write bus start v).val.read = Function.update bus.val.read start v := by
      funext address
      rw [Function.update_apply]
      exact Bus.ramReadWrite bus.property start address v
    exact (ih _ _).trans (congrArg (place · _ _) first)

def loaded (m : Machine RamBus) (program : List Uint8) : Machine RamBus := {m with bus := put m.bus m.cpu.regs.pc program}

theorem loadedPlaced (m : Machine RamBus) {program : List Uint8} (fits : program.length ≤ 2^16) :
    Placed (m.loaded program).bus.val m.cpu.regs.pc program :=
  fun _ within => (congrFun (putPlaces _ _ _) _).trans (placeInside fits within)

theorem loadedOutside (m : Machine RamBus) (program : List Uint8) {address : Uint16} {n : Nat} (least : program.length ≤ n)
    (outside : address ∉ addresses m.cpu.regs.pc n) : (m.loaded program).memory address = m.memory address := by
  refine (congrFun (putPlaces _ _ _) _).trans (placeOutside fun _ within here => outside ?_)
  exact List.mem_map.mpr ⟨_,List.mem_range.mpr (Nat.lt_of_lt_of_le within least),here⟩

theorem loadedSideBySide (m : Machine RamBus) {fused first second : Uint8} {operand : List Uint8}
    (width : operand.length = (instruction fused).mode.operandLength) (free : m.cpu.executes = true)
    (freeSecond : ((m.loaded (pairBytes first second operand)).step RamBus.device).cpu.executes = true) :
    (m.loaded (fused :: operand)).SideBySide (m.loaded (pairBytes first second operand)) fused first second operand := by
  have short : operand.length ≤ 2 := width ▸ operandShort _
  have longer : (fused :: operand).length ≤ (pairBytes first second operand).length := by
    simp only [pairBytes,List.length_append,List.length_cons]
    omega
  have whole : (pairBytes first second operand).length ≤ 2^16 := by
    simp only [pairBytes,List.length_append,List.length_cons,List.length_take]
    omega
  exact {
    registers := rfl
    width := width
    one := m.loadedPlaced (Nat.le_trans longer whole)
    two := m.loadedPlaced whole
    elsewhere := fun address outside =>
      (m.loadedOutside _ longer outside).trans (m.loadedOutside _ (Nat.le_refl _) outside).symm
    free := free
    freeFirst := free
    freeSecond := freeSecond }

def sloRig : Machine RamBus := ramRig [(0x0010,0x81)]

theorem sloIsAslOra :
    let one := (sloRig.loaded [0x07,0x10]).step RamBus.device
    let two := ((sloRig.loaded (pairBytes 0x06 0x05 [0x10])).step RamBus.device).step RamBus.device
    one.cpu.regs = {two.cpu.regs with pc := one.cpu.regs.pc} := by
  have fusion : Fusion 0x07 0x06 0x05 := ⟨by decide,rfl,rfl⟩
  have side := @loadedSideBySide sloRig 0x07 0x06 0x05 [0x10] (rfl) rfl (rfl)
  have operand : (sloRig.loaded [0x07,0x10]).effectiveAddress (instruction 0x07).mode = 0x0010 := rfl
  have direct : (sloRig.loaded [0x07,0x10]).pointerAddresses (instruction 0x07).mode = [] := rfl
  refine (fusedIsPair _ _ 0x07 0x06 0x05 [0x10] fusion side fun _ => ⟨?_,?_⟩).2.2.2.1
  · rw [operand]
    decide
  · rw [direct]
    exact List.forall_mem_nil _

def laxRig : Machine RamBus :=
  let m := ramRig [(0x10b1,0x77)]
  {m with cpu := {m.cpu with regs := {m.cpu.regs with pc := 0x0010}}}

/- LAX ($10),Y at $0010 beside LDA ($10),Y, TAX: the pointer's low byte is the opcode, $B3 in one
and $B1 in the other. -/
theorem opcodeInThePointer :
    let m := laxRig.loaded [0xb3,0x10]
    let n := laxRig.loaded [0xb1,0x10,0xaa]
    Fusion 0xb3 0xb1 0xaa ∧ m.SideBySide n 0xb3 0xb1 0xaa [0x10] ∧
      m.effectiveAddress .indirectY ∉ n.instructionBytes 0xb1 0xaa [0x10] ∧
      n.effectiveAddress .indirectY ∉ n.instructionBytes 0xb1 0xaa [0x10] ∧
      (m.step RamBus.device).cpu.regs.a ≠ ((n.step RamBus.device).step RamBus.device).cpu.regs.a := by
  intro m n
  have fusion : Fusion 0xb3 0xb1 0xaa := ⟨by decide,rfl,rfl⟩
  have side := @loadedSideBySide laxRig 0xb3 0xb1 0xaa [0x10] (rfl) rfl (rfl)
  exact ⟨fusion,side,by decide,by decide,by decide⟩

end Machine

end Emu6502
