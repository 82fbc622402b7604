import Emu6502.Session
import Emu6502.ByteArithmetic
import Mathlib.Algebra.Group.Nat.Defs

/-! Which addresses an instruction with a memory operand drives, and in what order, in the
6502's own arithmetic on the bytes it was answered: no widths, no masks, no memo flags. -/
namespace Emu6502
open Interaction

/- What the bus answers on the way to the data: two operand bytes, two pointer bytes. -/
structure Bytes where
  first : Uint8
  second : Uint8
  low : Uint8
  high : Uint8
  deriving DecidableEq, Repr

namespace Bytes

def zp (b : Bytes) : Nat := b.first.toNat
def absolute (b : Bytes) : Nat := b.first.toNat + 256 * b.second.toNat
def pointer (b : Bytes) : Nat := b.low.toNat + 256 * b.high.toNat

end Bytes

def busAddress (n : Nat) : Uint16 := BitVec.ofNat 16 n

namespace Mode

def reference (mode : Mode) (regs : Registers) (b : Bytes) : Nat :=
  match mode with
  | zeroPage => b.zp
  | zeroPageX => (b.zp + regs.x.toNat) % 256
  | zeroPageY => (b.zp + regs.y.toNat) % 256
  | absolute => b.absolute
  | absoluteX => (b.absolute + regs.x.toNat) % 65536
  | absoluteY => (b.absolute + regs.y.toNat) % 65536
  | indirectX => b.pointer
  | indirectY => (b.pointer + regs.y.toNat) % 65536
  | _ => 0

/- The address driven before the index, or its carry, is in. -/
def dummyAddress (mode : Mode) (regs : Registers) (b : Bytes) : Nat :=
  match mode with
  | zeroPageX | zeroPageY => b.zp
  | absoluteX => b.absolute / 256 * 256 + (b.absolute + regs.x.toNat) % 256
  | absoluteY => b.absolute / 256 * 256 + (b.absolute + regs.y.toNat) % 256
  | indirectY => b.pointer / 256 * 256 + (b.pointer + regs.y.toNat) % 256
  | _ => 0

/- The index carries into the high byte. -/
def carries (mode : Mode) (regs : Registers) (b : Bytes) : Bool :=
  match mode with
  | absoluteX => 256 ≤ b.first.toNat + regs.x.toNat
  | absoluteY => 256 ≤ b.first.toNat + regs.y.toNat
  | indirectY => 256 ≤ b.low.toNat + regs.y.toNat
  | _ => false

def operandLog (mode : Mode) (pc : Uint16) (b : Bytes) : List (Access Uint16 Uint8) :=
  [.read pc b.first,.read (pc + 1) b.second].take mode.operandLength

def pointerLog (mode : Mode) (regs : Registers) (b : Bytes) : List (Access Uint16 Uint8) :=
  match mode with
  | indirectX =>
      [.read (busAddress ((b.zp + regs.x.toNat) % 256)) b.low,.read (busAddress ((b.zp + regs.x.toNat + 1) % 256)) b.high]
  | indirectY => [.read (busAddress b.zp) b.low,.read (busAddress ((b.zp + 1) % 256)) b.high]
  | _ => []

def dummyLog (mode : Mode) (regs : Registers) (b : Bytes) (taken : Bool) (skipped : Uint8) :
    List (Access Uint16 Uint8) :=
  if taken then [.read (busAddress (mode.dummyAddress regs b)) skipped] else []

/-! The model's addresses are these. -/

def operandData (mode : Mode) (b : Bytes) : Uint16 :=
  match mode.operandLength with
  | 0 => 0
  | 1 => zeroPageAddress b.first
  | _+2 => word b.first b.second

def pointerData (mode : Mode) (b : Bytes) : Uint16 :=
  match mode with
  | indirectX | indirectY => word b.low b.high
  | _ => mode.operandData b

end Mode

theorem busAddressOf {w : Uint16} {n : Nat} (same : w.toNat = n) : w = busAddress n := by
  rw [← same,busAddress,BitVec.ofNat_toNat,BitVec.setWidth_eq]

theorem zeroPageNat (v : Uint8) : (zeroPageAddress v).toNat = v.toNat := by
  have := v.isLt
  simp only [zeroPageAddress,BitVec.toNat_setWidth]
  omega

theorem highByteNat (w : Uint16) : (highByte w).toNat = w.toNat / 256 := by
  have := w.isLt
  simp only [highByte,BitVec.toNat_setWidth,BitVec.toNat_ushiftRight,Nat.shiftRight_eq_div_pow]
  omega

theorem wordNat (lo hi : Uint8) : (word lo hi).toNat = lo.toNat + 256 * hi.toNat := by
  have low := lowByteNat (word lo hi)
  have high := highByteNat (word lo hi)
  rw [wordLow] at low
  rw [wordHigh] at high
  omega

theorem unfixedWord (ptr : Uint16) (index : Uint8) :
    Mode.unfixed ptr index = word (lowByte (ptr + index.setWidth 16)) (highByte ptr) := by
  have offset : ∀ i < 16, (0x00ff : Uint16).getLsbD i = decide (i < 8) := by decide
  apply BitVec.eq_of_getLsbD_eq
  intro i within
  simp only [Mode.unfixed,word,BitVec.getLsbD_or,BitVec.getLsbD_and,pageMask i within,offset i within]
  by_cases low : i < 8
  · simp [lowByte,low,within,show ¬ 8 ≤ i by omega]
  · have back : 8 + (i - 8) = i := by omega
    simp [highByte,lowByte,low,within,back,show 8 ≤ i by omega,show i - 8 < 8 by omega]

namespace Mode

/- The sum of a base and an index, and the same address before its carry is in. -/
theorem indexedAddress (ptr : Uint16) (index : Uint8) :
    ptr + index.setWidth 16 = busAddress ((ptr.toNat + index.toNat) % 65536) := by
  have := index.isLt
  apply busAddressOf
  simp only [BitVec.toNat_add,BitVec.toNat_setWidth]
  omega

theorem unfixedAddress (ptr : Uint16) (index : Uint8) :
    unfixed ptr index = busAddress (ptr.toNat / 256 * 256 + (ptr.toNat + index.toNat) % 256) := by
  have := index.isLt
  apply busAddressOf
  rw [unfixedWord,wordNat,lowByteNat,highByteNat]
  simp only [BitVec.toNat_add,BitVec.toNat_setWidth]
  omega

theorem pageChanges (ptr : Uint16) (index : Uint8) :
    ((ptr + index.setWidth 16 &&& 0xff00) != (ptr &&& 0xff00)) = decide (256 ≤ ptr.toNat % 256 + index.toNat) := by
  have := index.isLt
  have := ptr.isLt
  have sum : (ptr + index.setWidth 16).toNat = (ptr.toNat + index.toNat) % 65536 := by
    simp only [BitVec.toNat_add,BitVec.toNat_setWidth]
    omega
  have same : highByte (ptr + index.setWidth 16) = highByte ptr ↔ ¬ 256 ≤ ptr.toNat % 256 + index.toNat := by
    rw [← BitVec.toNat_inj,highByteNat,highByteNat,sum]
    omega
  rw [Bool.eq_iff_iff,bne_iff_ne,decide_eq_true_iff,Ne,samePage,same,Decidable.not_not]

theorem zeroPageOffset (zp index : Uint8) :
    zeroPageAddress (zp + index) = busAddress ((zp.toNat + index.toNat) % 256) :=
  busAddressOf (by rw [zeroPageNat,BitVec.toNat_add])

theorem effectiveReference {mode : Mode} (memory : mode.addressed = true) (regs : Registers) (b : Bytes) :
    mode.effective regs (mode.pointerData b) = busAddress (mode.reference regs b) := by
  cases mode <;> first | contradiction | skip
  all_goals simp only [effective,pointerData,operandData,operandLength,reference,index,lowByteZeroPage,
    zeroPageOffset,indexedAddress,wordNat,Bytes.absolute,Bytes.pointer,Bytes.zp]
  · exact busAddressOf (zeroPageNat _)
  · exact busAddressOf (wordNat _ _)
  · exact busAddressOf (wordNat _ _)

theorem halfwayDummy {mode : Mode} (indexed : (mode.zeroPageIndexed || mode.wideIndexed) = true) (regs : Registers)
    (b : Bytes) : mode.halfway regs (mode.pointerData b) = busAddress (mode.dummyAddress regs b) := by
  cases mode <;> first | contradiction | skip
  all_goals simp only [halfway,pointerData,operandData,operandLength,dummyAddress,index,unfixedAddress,wordNat,
    Bytes.absolute,Bytes.pointer,Bytes.zp]
  · exact busAddressOf (zeroPageNat _)
  · exact busAddressOf (zeroPageNat _)

theorem crossesCarries (mode : Mode) (regs : Registers) (b : Bytes) :
    mode.crosses regs (mode.pointerData b) = mode.carries regs b := by
  have := b.first.isLt
  have := b.low.isLt
  cases mode <;> simp only [crosses,carries,wideIndexed,Bool.false_and,Bool.true_and]
  all_goals
    simp only [effective,pointerData,operandData,operandLength,index,pageChanges,wordNat]
    congr 1
    rw [eq_iff_iff]
    omega

/-! The stages of an instruction, on whatever they are answered. -/

theorem operandSequence (mode : Mode) (pc : Uint16) :
    (mode.operand pc).Every fun log data => ∃ first second, ∀ low high,
      log = mode.operandLog pc ⟨first,second,low,high⟩ ∧ data = mode.operandData ⟨first,second,low,high⟩ := by
  unfold operand operandLog operandData
  match mode.operandLength with
  | 0 => exact ⟨0,0,fun _ _ => ⟨rfl,rfl⟩⟩
  | 1 => exact fun first => ⟨first,0,fun _ _ => ⟨rfl,rfl⟩⟩
  | n+2 => exact fun first second => ⟨first,second,fun _ _ => ⟨by simp,rfl⟩⟩

theorem pointerSequence (mode : Mode) (regs : Registers) (first second : Uint8) (data : Uint16)
    (operands : ∀ low high, data = mode.operandData ⟨first,second,low,high⟩) :
    (mode.pointer regs data).Every fun log ptr => ∃ low high,
      log = mode.pointerLog regs ⟨first,second,low,high⟩ ∧ ptr = mode.pointerData ⟨first,second,low,high⟩ := by
  have next (n : Nat) : (n % 256 + 1) % 256 = (n + 1) % 256 := by omega
  have operands := operands 0 0
  subst operands
  cases mode
  case indirectX =>
    intro low high
    refine ⟨low,high,?_,rfl⟩
    simp only [operandData,operandLength,lowByteZeroPage,zeroPageOffset,pointerLog,Bytes.zp,BitVec.toNat_add]
    rw [← next]
    rfl
  case indirectY =>
    intro low high
    refine ⟨low,high,?_,rfl⟩
    simp only [operandData,operandLength,lowByteZeroPage,zeroPageOffset,pointerLog,Bytes.zp]
    rw [busAddressOf (zeroPageNat first)]
    rfl
  all_goals exact ⟨0,0,rfl,rfl⟩

theorem loadSequence {mode : Mode} (memory : mode.addressed = true) (regs : Registers) (b : Bytes) :
    (mode.load regs (mode.pointerData b)).Every fun log val => ∃ skipped,
      log = mode.dummyLog regs b (mode.zeroPageIndexed || mode.carries regs b) skipped ++
        [.read (busAddress (mode.reference regs b)) val] := by
  rw [load,if_pos memory,crossesCarries,effectiveReference memory]
  split
  · rename_i taken
    have indexed : (mode.zeroPageIndexed || mode.wideIndexed) = true := by
      cases mode <;> simp_all [zeroPageIndexed,wideIndexed,carries]
    intro skipped val
    refine ⟨skipped,?_⟩
    rw [halfwayDummy indexed,dummyLog,if_pos taken]
    rfl
  · rename_i straight
    intro val
    refine ⟨0,?_⟩
    rw [dummyLog,if_neg straight]
    rfl

theorem settleSequence (mode : Mode) (regs : Registers) (b : Bytes) :
    (mode.settle regs (mode.pointerData b)).Every fun log _ => ∃ skipped,
      log = mode.dummyLog regs b (mode.zeroPageIndexed || mode.wideIndexed) skipped := by
  rw [settle]
  split
  · rename_i indexed
    intro skipped
    refine ⟨skipped,?_⟩
    rw [halfwayDummy indexed,dummyLog,if_pos indexed]
  · rename_i flat
    refine ⟨0,?_⟩
    rw [dummyLog,if_neg flat]

def fetchLog (mode : Mode) (regs : Registers) (code : Uint8) (b : Bytes) : List (Access Uint16 Uint8) :=
  .read regs.pc code :: (mode.operandLog (regs.pc + 1) b ++ mode.pointerLog regs b)

end Mode

/- The accesses to the data itself, all at one address, and the registers they leave. -/
inductive Template.Touches (regs : Registers) (ea : Uint16) :
    Template → List (Access Uint16 Uint8) → Registers → Prop where
  | read (apply : Registers → Uint8 → Registers) (val : Uint8) :
      Touches regs ea (.read apply) [.read ea val] (apply regs val)
  | readFlat (apply : Registers → Uint8 → Registers) (val : Uint8) :
      Touches regs ea (.readFlat apply) [.read ea val] (apply regs val)
  | rmw (result : Registers → Uint8 → Uint8) (before : Registers → Uint8 → Uint8 → Registers)
      (after : Registers → Uint8 → Registers) (orig : Uint8) :
      Touches regs ea (.rmw result before after)
        [.read ea orig,.write ea orig,.write ea (result regs orig)]
        (after (before regs orig (result regs orig)) (result regs orig))
  | store (source : Registers → Uint8) : Touches regs ea (.store source) [.write ea (source regs)] regs
  | shx (reg : Nat) (val : Uint8) :
      Touches regs ea (.shx reg) [.write ea val] (if reg = 3 then {regs with sp := regs.a &&& regs.x} else regs)

namespace Template.Touches
variable {regs out : Registers} {ea : Uint16} {touched : List (Access Uint16 Uint8)}

theorem rewritten {result : Registers → Uint8 → Uint8} {before : Registers → Uint8 → Uint8 → Registers}
    {after : Registers → Uint8 → Registers} (h : Touches regs ea (.rmw result before after) touched out) :
    ∃ orig, touched = [.read ea orig,.write ea orig,.write ea (result regs orig)] ∧
      out = after (before regs orig (result regs orig)) (result regs orig) := by
  cases h with
  | rmw _ _ _ orig => exact ⟨orig,rfl,rfl⟩

theorem stored {source : Registers → Uint8} (h : Touches regs ea (.store source) touched out) :
    touched = [.write ea (source regs)] ∧ out = regs := by
  cases h with
  | store _ => exact ⟨rfl,rfl⟩

theorem loaded {t : Template} {apply : Registers → Uint8 → Registers} (h : Touches regs ea t touched out)
    (reads : t = .read apply ∨ t = .readFlat apply) :
    ∃ val, touched = [.read ea val] ∧ out = apply regs val := by
  cases h <;> simp at reads
  all_goals
    subst reads
    exact ⟨_,rfl,rfl⟩

end Template.Touches

def Template.idles (t : Template) (mode : Mode) (carries : Bool) : Bool :=
  match t with
  | read _ | readFlat _ => mode.zeroPageIndexed || carries
  | rmw _ _ _ | store _ => mode.zeroPageIndexed || mode.wideIndexed
  | _ => false

/- Past the instruction's bytes, where its template takes over. -/
def Processor.passed (cpu : Processor) (code : Uint8) : Registers :=
  {cpu.regs with pc := cpu.regs.pc + 1}.advance (instruction code).mode

theorem actionSequence {t : Template} {mode : Mode} (memory : mode.addressed = true) (admitted : t.admits mode = true)
    (cycles : Nat) (regs : Registers) (first second : Uint8) (data : Uint16)
    (operands : ∀ low high, data = mode.operandData ⟨first,second,low,high⟩) :
    (t.action mode cycles regs data).Every fun log out => ∃ low high skipped touched,
      let b : Bytes := ⟨first,second,low,high⟩
      log = mode.pointerLog regs b ++ mode.dummyLog regs b (t.idles mode (mode.carries regs b)) skipped ++ touched ∧
        t.Touches regs (busAddress (mode.reference regs b)) touched out.2 := by
  have pointed := mode.pointerSequence regs first second data operands
  cases t with
  | read apply =>
    simp only [Template.action,Program.everyBind]
    refine Program.everyMono pointed fun log ptr found => ?_
    obtain ⟨low,high,rfl,rfl⟩ := found
    refine Program.everyMono (Mode.loadSequence memory regs _) fun log val loads => ?_
    obtain ⟨skipped,loaded⟩ := loads
    refine ⟨low,high,skipped,_,?_,.read apply val⟩
    simp [loaded,Template.idles]
  | readFlat apply =>
    simp only [Template.action,Program.everyBind]
    refine Program.everyMono pointed fun log ptr found => ?_
    obtain ⟨low,high,rfl,rfl⟩ := found
    refine Program.everyMono (Mode.loadSequence memory regs _) fun log val loads => ?_
    obtain ⟨skipped,loaded⟩ := loads
    refine ⟨low,high,skipped,_,?_,.readFlat apply val⟩
    simp [loaded,Template.idles]
  | rmw result before after =>
    have inMemory : (mode == .accumulator) = false := by cases mode <;> first | contradiction | rfl
    simp only [Template.action,inMemory,Bool.false_eq_true,if_false,Program.everyBind]
    refine Program.everyMono pointed fun log ptr found => ?_
    obtain ⟨low,high,rfl,rfl⟩ := found
    refine Program.everyMono (Mode.settleSequence mode regs _) fun log val settles => ?_
    obtain ⟨skipped,settled⟩ := settles
    intro orig
    rw [Mode.effectiveReference memory]
    refine ⟨low,high,skipped,_,?_,.rmw result before after orig⟩
    simp [settled,Template.idles]
  | store source =>
    simp only [Template.action,Program.everyBind]
    refine Program.everyMono pointed fun log ptr found => ?_
    obtain ⟨low,high,rfl,rfl⟩ := found
    refine Program.everyMono (Mode.settleSequence mode regs _) fun log val settles => ?_
    obtain ⟨skipped,settled⟩ := settles
    rw [Mode.effectiveReference memory]
    refine ⟨low,high,skipped,_,?_,.store source⟩
    simp [settled,Template.idles]
  | shx reg =>
    simp only [Template.action,Program.everyBind]
    refine Program.everyMono pointed fun log ptr found => ?_
    obtain ⟨low,high,rfl,rfl⟩ := found
    rw [Mode.effectiveReference memory]
    have idle (b : Bytes) : mode.dummyLog regs b ((Template.shx reg).idles mode (mode.carries regs b)) 0 = [] := rfl
    refine ⟨low,high,0,_,?_,.shx reg (shxSource reg regs &&& (highByte (mode.pointerData ⟨first,second,low,high⟩) + 1))⟩
    rw [idle,List.append_nil]
  | implied apply | push value | pull apply | nop | brk | rti | rts | jmp | jsr | branch flag set =>
    cases mode <;> contradiction

theorem memorySequence {code : Uint8} (memory : (instruction code).mode.addressed = true) (cpu : Processor) :
    (cpu.instructionBody code).Every fun log out => ∃ b skipped touched,
      let i := instruction code
      .read cpu.regs.pc code :: log = i.mode.fetchLog cpu.regs code b ++
          i.mode.dummyLog cpu.regs b (i.op.template.idles i.mode (i.mode.carries cpu.regs b)) skipped ++ touched ∧
        i.op.template.Touches (cpu.passed code) (busAddress (i.mode.reference cpu.regs b)) touched out.2 := by
  unfold Processor.instructionBody
  rw [Program.everyBind]
  refine Program.everyMono (Mode.operandSequence _ _) fun fetched data found => ?_
  obtain ⟨first,second,operands⟩ := found
  refine Program.everyMono (actionSequence memory (tableAdmits code) _ _ first second data
    fun low high => (operands low high).2) fun log out acted => ?_
  obtain ⟨low,high,skipped,touched,whole,touches⟩ := acted
  refine ⟨⟨first,second,low,high⟩,skipped,touched,?_,touches⟩
  rw [whole,(operands low high).1]
  simp only [Mode.fetchLog,List.cons_append,List.append_assoc]
  rfl

/- The same of a step, on any device. -/
theorem stepSequence {σ : Type} (d : Device Uint16 Uint8 σ) {m : Machine σ} {code : Uint8}
    (ran : m.served d = .executed code) (memory : (instruction code).mode.addressed = true) :
    ∃ b skipped touched, let i := instruction code
      m.accesses d = i.mode.fetchLog m.cpu.regs code b ++
          i.mode.dummyLog m.cpu.regs b (i.op.template.idles i.mode (i.mode.carries m.cpu.regs b)) skipped ++ touched ∧
        i.op.template.Touches (m.cpu.passed code) (busAddress (i.mode.reference m.cpu.regs b)) touched
          (m.step d).cpu.regs := by
  obtain ⟨log,cost,accesses,body⟩ := m.executedEvery d ran (memorySequence memory m.cpu)
  rw [accesses]
  exact body

/-! Operands that are not in memory. -/

theorem immediateSequence {code : Uint8} {apply : Registers → Uint8 → Registers}
    (mode : (instruction code).mode = .immediate)
    (template : (instruction code).op.template = .read apply ∨ (instruction code).op.template = .readFlat apply)
    (cpu : Processor) : (cpu.instructionBody code).Every fun log out => ∃ val, log = [.read (cpu.regs.pc + 1) val] ∧
      out.2 = apply (cpu.passed code) val := by
  unfold Processor.instructionBody Processor.passed
  dsimp only
  rcases template with template | template
  all_goals
    rw [mode,template]
    intro val
    exact ⟨val,rfl,congrArg (apply _) (lowByteZeroPage val)⟩

theorem impliedSequence {code : Uint8} {apply : Registers → Registers}
    (template : (instruction code).op.template = .implied apply) (cpu : Processor) :
    (cpu.instructionBody code).Every fun log out => log = [] ∧ out.2 = apply (cpu.passed code) := by
  have mode : (instruction code).mode = .null := by
    have admitted := tableAdmits code
    rw [template] at admitted
    exact beq_iff_eq.mp admitted
  unfold Processor.instructionBody Processor.passed
  dsimp only
  rw [mode,template]
  exact ⟨rfl,rfl⟩

theorem accumulatorSequence {code : Uint8} {result : Registers → Uint8 → Uint8}
    {before : Registers → Uint8 → Uint8 → Registers} {after : Registers → Uint8 → Registers}
    (mode : (instruction code).mode = .accumulator)
    (template : (instruction code).op.template = .rmw result before after) (cpu : Processor) :
    (cpu.instructionBody code).Every fun log out =>
      let regs := cpu.passed code
      let val := result regs regs.a
      log = [] ∧ out.2 = after {before regs regs.a val with a := val} val := by
  unfold Processor.instructionBody Processor.passed
  dsimp only
  rw [mode,template]
  exact ⟨rfl,rfl⟩

/-! The operations by class. -/

def rmwOps : List Op := [.asl,.rol,.lsr,.ror,.inc,.dec,.slo,.rla,.sre,.rra,.dcp,.isc]
def storeOps : List Op := [.sta,.stx,.sty,.sax]

def rmwByte (op : Op) (carry : Bool) (orig : Nat) : Nat :=
  match op with
  | .asl | .slo => 2 * orig % 256
  | .rol | .rla => (2 * orig + carry.toNat) % 256
  | .lsr | .sre => orig / 2
  | .ror | .rra => orig / 2 + 128 * carry.toNat
  | .inc | .isc => (orig + 1) % 256
  | .dec | .dcp => (orig + 255) % 256
  | _ => orig

def Template.rewrites : Template → Bool
  | rmw _ _ _ => true
  | _ => false

def Template.stores : Template → Bool
  | store _ => true
  | _ => false

theorem rmwClass (op : Op) : op ∈ rmwOps ↔ op.template.rewrites = true := by
  cases op <;> simp [rmwOps,Template.rewrites,Op.template] <;> rfl

theorem storeClass (op : Op) : op ∈ storeOps ↔ op.template.stores = true := by
  cases op <;> simp [storeOps,Template.stores,Op.template] <;> rfl

theorem rmwTemplate {op : Op} (rmw : op ∈ rmwOps) : ∃ result before after, op.template = .rmw result before after := by
  have rewrites := (rmwClass op).mp rmw
  cases template : op.template with
  | rmw result before after => exact ⟨result,before,after,rfl⟩
  | _ => simp [template,Template.rewrites] at rewrites

theorem storeTemplate {op : Op} (store : op ∈ storeOps) : ∃ source, op.template = .store source := by
  have stores := (storeClass op).mp store
  cases template : op.template with
  | store source => exact ⟨source,rfl⟩
  | _ => simp [template,Template.stores] at stores

theorem shxClass {op : Op} {reg : Nat} (template : op.template = .shx reg) : op = .shx reg := by
  cases op <;> cases template
  rfl

theorem readTemplate {op : Op} {mode : Mode} (memory : mode.addressed = true)
    (admitted : op.template.admits mode = true) (unstable : ∀ reg, op ≠ .shx reg) (rmw : op ∉ rmwOps)
    (store : op ∉ storeOps) : ∃ apply, op.template = .read apply ∨ op.template = .readFlat apply := by
  rw [rmwClass] at rmw
  rw [storeClass] at store
  cases template : op.template with
  | read apply => exact ⟨apply,.inl rfl⟩
  | readFlat apply => exact ⟨apply,.inr rfl⟩
  | rmw result before after => exact absurd (template ▸ rfl) rmw
  | store source => exact absurd (template ▸ rfl) store
  | shx reg => exact absurd (shxClass template) (unstable reg)
  | implied apply | push value | pull apply | nop | brk | rti | rts | jmp | jsr | branch flag set =>
    rw [template] at admitted
    cases mode <;> contradiction

theorem shiftedBytes : ∀ (orig : Uint8),
    (orig <<< 1).toNat = 2 * orig.toNat % 256 ∧ (orig >>> 1).toNat = orig.toNat / 2 ∧
      (orig <<< 1 ||| 1).toNat = (2 * orig.toNat + 1) % 256 ∧ (orig >>> 1 ||| 0x80).toNat = orig.toNat / 2 + 128 := by
  decide

theorem rmwResult {op : Op} {result : Registers → Uint8 → Uint8} {before : Registers → Uint8 → Uint8 → Registers}
    {after : Registers → Uint8 → Registers} (template : op.template = .rmw result before after) (regs : Registers)
    (orig : Uint8) : (result regs orig).toNat = rmwByte op (regs.getStatus flagC) orig.toNat := by
  obtain ⟨left,right,leftIn,rightIn⟩ := shiftedBytes orig
  have rolled : (rotateLeft regs orig).toNat = (2 * orig.toNat + (regs.getStatus flagC).toNat) % 256 := by
    unfold rotateLeft
    cases regs.getStatus flagC with
    | false => simpa using left
    | true => exact leftIn
  have rored : (rotateRight regs orig).toNat = orig.toNat / 2 + 128 * (regs.getStatus flagC).toNat := by
    unfold rotateRight
    cases regs.getStatus flagC with
    | false => simpa using right
    | true => exact rightIn
  cases op <;> cases template
  all_goals first | exact left | exact right | exact rolled | exact rored | skip
  all_goals simp only [increment,decrement,rmwByte]
  all_goals bv_omega

theorem operandLogReads (mode : Mode) (pc : Uint16) (b : Bytes) :
    ∀ access ∈ mode.operandLog pc b, access.isRead = true := by
  intro access made
  have one := List.mem_of_mem_take made
  simp only [List.mem_cons,List.not_mem_nil,or_false] at one
  rcases one with rfl | rfl <;> rfl

theorem fetchReads (mode : Mode) (regs : Registers) (code : Uint8) (b : Bytes) :
    ∀ access ∈ mode.fetchLog regs code b, access.isRead = true := by
  have pointers : ∀ access ∈ mode.pointerLog regs b, access.isRead = true := by
    cases mode <;> simp [Mode.pointerLog,Access.isRead]
  rw [Mode.fetchLog,List.forall_mem_cons,List.forall_mem_append]
  exact ⟨rfl,operandLogReads _ _ _,pointers⟩

theorem dummyReads (mode : Mode) (regs : Registers) (b : Bytes) (taken : Bool) (skipped : Uint8) :
    ∀ access ∈ mode.dummyLog regs b taken skipped, access.isRead = true := by
  cases taken <;> simp [Mode.dummyLog,Access.isRead]

theorem approachReads (mode : Mode) (regs : Registers) (code : Uint8) (b : Bytes) (taken : Bool) (skipped : Uint8) :
    ∀ access ∈ mode.fetchLog regs code b ++ mode.dummyLog regs b taken skipped, access.isRead = true :=
  List.forall_mem_append.mpr ⟨fetchReads _ _ _ _,dummyReads _ _ _ _ _⟩

theorem rmwInMemory : ∀ code, (instruction code).op ∈ rmwOps → (instruction code).mode ≠ .accumulator →
    (instruction code).mode.addressed = true := by
  decide

/- The dummy read as the chip has it: of the 16-bit modes, only a pure read leaves it out. -/
theorem idlesIff {op : Op} {mode : Mode} (admitted : op.template.admits mode = true)
    (indexed : mode ∈ [.zeroPageX,.zeroPageY,.absoluteX,.absoluteY,.indirectY]) (unstable : ∀ reg, op ≠ .shx reg)
    (carries : Bool) :
    op.template.idles mode carries = true ↔
      (mode ∈ [.zeroPageX,.zeroPageY] ∨ op ∈ storeOps ∨ op ∈ rmwOps) ∨ carries = true := by
  have zeroPage : mode ∈ [.zeroPageX,.zeroPageY] ↔ mode.zeroPageIndexed = true := by
    cases mode <;> simp [Mode.zeroPageIndexed]
  have index : (mode.zeroPageIndexed || mode.wideIndexed) = true := by
    revert indexed
    cases mode <;> simp [Mode.zeroPageIndexed,Mode.wideIndexed]
  rw [storeClass,rmwClass,zeroPage]
  cases template : op.template with
  | read apply | readFlat apply => simp [Template.idles,Template.stores,Template.rewrites]
  | rmw result before after => simp [Template.idles,Template.stores,Template.rewrites,index]
  | store source => simp [Template.idles,Template.stores,Template.rewrites,index]
  | shx reg => exact absurd (shxClass template) (unstable reg)
  | implied apply | push value | pull apply | nop | brk | rti | rts | jmp | jsr | branch flag set =>
    rw [template] at admitted
    cases mode <;> contradiction

section
variable {σ : Type} (d : Device Uint16 Uint8 σ) (m : Machine σ) (code : Uint8)

/-- A read-modify-write on memory reads its operand at the effective address of the bytes it was
answered, writes that byte back there, and the result over it; until then it only reads. -/
theorem rmwWritesTwice (ran : m.served d = .executed code) (rmw : (instruction code).op ∈ rmwOps)
    (memory : (instruction code).mode ≠ .accumulator) :
    let i := instruction code
    ∃ b skipped orig val,
      let ea := busAddress (i.mode.reference m.cpu.regs b)
      let approach := i.mode.fetchLog m.cpu.regs code b ++
        i.mode.dummyLog m.cpu.regs b (i.mode.zeroPageIndexed || i.mode.wideIndexed) skipped
      m.accesses d = approach ++ [.read ea orig,.write ea orig,.write ea val] ∧
        (∀ access ∈ approach, access.isRead = true) ∧
        val.toNat = rmwByte i.op (m.cpu.regs.getStatus flagC) orig.toNat := by
  obtain ⟨b,skipped,touched,whole,touches⟩ := stepSequence d ran (rmwInMemory code rmw memory)
  obtain ⟨result,before,after,template⟩ := rmwTemplate rmw
  rw [template] at touches whole
  obtain ⟨orig,rfl,_⟩ := touches.rewritten
  exact ⟨b,skipped,orig,_,whole,approachReads _ _ _ _ _ _,rmwResult template (m.cpu.passed code) orig⟩

/-- An indexed instruction but for the SHx family: its bytes, its pointer if it has one, the dummy
read if there is one, and the data at the effective address. -/
theorem indexedSequence (ran : m.served d = .executed code)
    (indexed : (instruction code).mode ∈ [.zeroPageX,.zeroPageY,.absoluteX,.absoluteY,.indirectY])
    (unstable : ∀ reg, (instruction code).op ≠ .shx reg) :
    let i := instruction code
    let regs := m.cpu.regs
    ∃ b skipped touched,
      let ea := busAddress (i.mode.reference regs b)
      let always := i.mode ∈ [.zeroPageX,.zeroPageY] ∨ i.op ∈ storeOps ∨ i.op ∈ rmwOps
      m.accesses d = .read regs.pc code :: (i.mode.operandLog (regs.pc + 1) b ++ i.mode.pointerLog regs b ++
          (if always ∨ i.mode.carries regs b = true then
            [.read (busAddress (i.mode.dummyAddress regs b)) skipped] else []) ++ touched) ∧
        (i.op ∈ rmwOps → ∃ orig val, touched = [.read ea orig,.write ea orig,.write ea val]) ∧
        (i.op ∈ storeOps → ∃ val, touched = [.write ea val]) ∧
        (i.op ∉ rmwOps → i.op ∉ storeOps → ∃ val, touched = [.read ea val]) := by
  have memory : (instruction code).mode.addressed = true := by
    revert indexed
    cases (instruction code).mode <;> simp [Mode.addressed]
  obtain ⟨b,skipped,touched,whole,touches⟩ := stepSequence d ran memory
  refine ⟨b,skipped,touched,?_,?_,?_,?_⟩
  · rw [whole]
    simp only [Mode.fetchLog,Mode.dummyLog,idlesIff (tableAdmits code) indexed unstable,List.cons_append]
  · intro rmw
    obtain ⟨result,before,after,template⟩ := rmwTemplate rmw
    rw [template] at touches
    obtain ⟨orig,rewritten,_⟩ := touches.rewritten
    exact ⟨orig,_,rewritten⟩
  · intro store
    obtain ⟨source,template⟩ := storeTemplate store
    rw [template] at touches
    exact ⟨_,touches.stored.1⟩
  · intro rmw store
    obtain ⟨apply,reads⟩ := readTemplate memory (tableAdmits code) unstable rmw store
    obtain ⟨val,loaded,_⟩ := touches.loaded reads
    exact ⟨val,loaded⟩

end

/- DCP ($10),Y with Y = 0, where the pointer at $10 points at itself. -/
theorem dcpOnItsPointer :
    let m := Machine.rig [(0x0400,0xd3),(0x0401,0x10),(0x0010,0x10)]
    ∃ before ea orig val, m.accesses Bus.device = before ++ [.read ea orig,.write ea orig,.write ea val] ∧
      ∀ access ∈ before, access.isRead = true := by
  intro m
  obtain ⟨b,skipped,orig,val,whole,reads,_⟩ :=
    rmwWritesTwice Bus.device m 0xd3 (by decide) (by decide) (by decide +kernel)
  exact ⟨_,_,orig,val,whole,reads⟩

theorem storeIndexed :
    let m := Machine.rig [(0x0400,0x95),(0x0401,0x10)]
    ∃ before ea val, m.accesses Bus.device = before ++ [.write ea val] := by
  intro m
  have sta : (instruction 0x95).op = .sta := rfl
  obtain ⟨b,skipped,touched,whole,_,stored,_⟩ :=
    indexedSequence Bus.device m 0x95 (by decide) (by decide)
      (fun reg => by rw [sta]; exact Op.noConfusion)
  obtain ⟨val,rfl⟩ := stored (by rw [sta]; decide)
  exact ⟨_ :: _,_,val,whole⟩

end Emu6502
