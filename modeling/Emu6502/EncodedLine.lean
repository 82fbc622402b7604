import Emu6502.FirstMatch
import Emu6502.CompileImage

/-! What a line of the grammar encodes to: the opcode of its documented instruction and
the bytes of its operand. -/
namespace Emu6502
open Regex

/-! Numbers. -/

theorem hexDigitSmall {c : Char} (hex : isHex c = true) : hexDigit c < 16 := by
  unfold hexDigit
  simp only [isHex,Bool.or_eq_true,Bool.and_eq_true,decide_eq_true_eq] at hex
  split
  · rename_i digit
    simp only [Char.isDigit,Bool.and_eq_true,decide_eq_true_eq] at digit
    have bound : c.toNat ≤ 57 := UInt32.le_iff_toNat_le.mp digit.2
    omega
  · rename_i letter
    have high := (hex.resolve_left letter).2
    have bound : c.toLower.toNat ≤ 102 := UInt32.le_iff_toNat_le.mp high
    omega

theorem hexFold {digits : List Char} (hex : ∀ c ∈ digits, isHex c = true) (v : Nat) :
    digits.foldl (fun v c => 16 * v + hexDigit c) v < (v + 1) * 16 ^ digits.length := by
  induction digits generalizing v with
  | nil => simp
  | cons c digits ih =>
    have first := hexDigitSmall (hex c List.mem_cons_self)
    calc digits.foldl (fun v c => 16 * v + hexDigit c) (16 * v + hexDigit c)
        < (16 * v + hexDigit c + 1) * 16 ^ digits.length := ih (fun d member => hex d (List.mem_cons_of_mem c member)) _
      _ ≤ ((v + 1) * 16) * 16 ^ digits.length := Nat.mul_le_mul_right _ (by omega)
      _ = (v + 1) * 16 ^ (c :: digits).length := by rw [List.length_cons,Nat.pow_succ',Nat.mul_assoc]

theorem hexValueSmall {digits : List Char} (hex : ∀ c ∈ digits, isHex c = true) :
    hexValue digits < 16 ^ digits.length := by
  have bound := hexFold hex 0
  rwa [Nat.zero_add,Nat.one_mul] at bound

theorem lowOfNat (h : Nat) : (BitVec.ofNat 32 h &&& 0xff).setWidth 8 = BitVec.ofNat 8 h := by
  rw [maskByte rfl]
  exact BitVec.setWidth_ofNat_of_le (by decide) h

theorem highOfNat (h : Nat) :
    ((BitVec.ofNat 32 h).sshiftRight 8 &&& 0xff).setWidth 8 = highByte (BitVec.ofNat 16 h) := by
  rw [maskByte rfl,highByte]
  apply BitVec.eq_of_getLsbD_eq
  intro i within
  have inside : 8 + i < 32 := by omega
  have word : 8 + i < 16 := by omega
  rw [BitVec.getLsbD_setWidth,BitVec.getLsbD_setWidth,BitVec.getLsbD_sshiftRight,BitVec.getLsbD_ushiftRight,
    if_pos inside,BitVec.getLsbD_ofNat,BitVec.getLsbD_ofNat]
  simp [inside,word,show ¬ 32 ≤ i by omega]

theorem lowWord (h : Nat) : lowByte (BitVec.ofNat 16 h) = BitVec.ofNat 8 h :=
  BitVec.setWidth_ofNat_of_le (by decide) h

theorem lowOfInt (d : Int) : (BitVec.ofInt 32 d &&& 0xff).setWidth 8 = BitVec.ofInt 8 d := by
  rw [maskByte rfl]
  apply BitVec.eq_of_toNat_eq
  rw [BitVec.toNat_setWidth,BitVec.toNat_ofInt,BitVec.toNat_ofInt]
  omega

/-! Operands. -/

namespace Operand

def bytes : Operand → List Uint8
  | implied | accumulator => []
  | immediate v | zeroPage v | zeroPageX v | zeroPageY v | indirectX v | indirectY v => [v]
  | absolute v | absoluteX v | absoluteY v | indirect v => [lowByte v,highByte v]
  | relative displacement => [BitVec.ofInt 8 displacement]

/- A displacement atoi can return. -/
def Fits : Operand → Prop
  | relative displacement => -2^31 ≤ displacement ∧ displacement < 2^31
  | _ => True

end Operand

section parsed
variable (beyond : List Char → BitVec 32)

theorem parsedHex {m : Captures Char} (pieces : Pieces m) {t : AddressingType}
    (shape : t.shape = some (fields m).shape) {s : Shape} (known : t.shape = some s) (some : s.width ≠ 0)
    (short : s.width ≤ 5) :
    (fields m).parsedVal beyond = BitVec.ofNat 32 (hexValue ((subMatch m 4).drop 1)) := by
  obtain rfl := Option.some.inj (known.symm.trans shape)
  change (subMatch m 4).length ≠ 0 at some
  change (subMatch m 4).length ≤ 5 at short
  rcases pieces.val with empty | ⟨digits,text,hex⟩
  · exact absurd (congrArg List.length empty) some
  · have value : hexValue digits < 2^64 - 1 := by
      have width : digits.length ≤ 4 := by rw [text,List.length_cons] at short; omega
      calc hexValue digits < 16 ^ digits.length := hexValueSmall hex
        _ ≤ 16 ^ 4 := Nat.pow_le_pow_right (by decide) width
        _ ≤ 2^64 - 1 := by decide
    have present : 0 < (fields m).val.length := Nat.pos_of_ne_zero some
    rw [Fields.parsedVal,if_pos present,strtoul,show (fields m).val = subMatch m 4 from rfl,text,List.drop_succ_cons,
      List.drop_zero,Nat.min_eq_left (Nat.le_of_lt value)]

theorem parsedDecimal {m : Captures Char} (pieces : Pieces m)
    (shape : AddressingType.relative.shape = some (fields m).shape)
    (fits : (Operand.relative (signedValue (fields m).rel)).Fits) :
    (fields m).parsedVal beyond = BitVec.ofInt 32 (signedValue (fields m).rel) := by
  have here := present pieces
  rw [← Option.some.inj shape] at here
  obtain ⟨sign,digits,text,_,some,_⟩ := here.rel rfl
  have noVal : (fields m).val = [] := here.noVal rfl
  have rel : 0 < (fields m).rel.length := by
    rw [show (fields m).rel = sign ++ digits from text,List.length_append]
    have := List.length_pos_iff.mpr some
    omega
  rw [Fields.parsedVal,noVal,if_neg (by decide),if_pos rel]
  exact if_pos fits

theorem parsedBytes {m : Captures Char} (pieces : Pieces m) {o : Operand} (read : (fields m).operand = some o)
    (fits : o.Fits) : o.mode.addrT.bytes ((fields m).parsedVal beyond) = o.bytes := by
  have known : (fields m).type ≠ .unkown := by
    intro unknown
    simp [Fields.operand,unknown] at read
  have shape := shapeOfType (registersRead pieces) known
  have mode := operandMode read
  rw [mode] at shape
  rw [Fields.operand,mode] at read
  cases o with
  | implied | accumulator => rfl
  | relative d =>
    cases read
    rw [parsedDecimal beyond pieces shape fits]
    exact congrArg (fun low => [low]) (lowOfInt _)
  | absolute v | absoluteX v | absoluteY v | indirect v =>
    cases read
    rw [parsedHex beyond pieces shape rfl (by decide) (by decide)]
    exact congrArg₂ (fun low high => [low,high]) ((lowOfNat _).trans (lowWord _).symm) (highOfNat _)
  | immediate v | zeroPage v | zeroPageX v | zeroPageY v | indirectX v | indirectY v =>
    cases read
    rw [parsedHex beyond pieces shape rfl (by decide) (by decide)]
    exact congrArg (fun low => [low]) (lowOfNat _)

end parsed

theorem documentedKnown : ∀ d ∈ documentedSet, d.mode ≠ .unkown := by decide +kernel

theorem operandKnown {f : Fields} (known : f.type ≠ .unkown) : ∃ o, f.operand = some o := by
  unfold Fields.operand
  cases type : f.type with
  | unkown => contradiction
  | _ => exact ⟨_,rfl⟩

section select
variable (beyond : List Char → BitVec 32)

theorem selectMatch {line : List Char} {m : Captures Char} (found : lineRegex.fullMatch (ltrim line) = some m) :
    selectInstr beyond line = (findInstr ⟨uppercopy (fields m).instr,(fields m).type⟩).map fun instr =>
      (instr,(fields m).parsedVal beyond) := by
  simp only [selectInstr,found,Option.bind_eq_bind,Option.bind_some,Option.pure_def]
  cases findInstr ⟨uppercopy (fields m).instr,(fields m).type⟩ <;> rfl

theorem selectReads {line : List Char} {instr : AsmInstr} {val : BitVec 32}
    (chosen : selectInstr beyond line = some (instr,val)) :
    ∃ d ∈ documentedSet, ∃ o, d.instr = instr ∧ d.mode = o.mode ∧ LineText line d.name o ∧
      (o.Fits → instr.bytes val = d.opcode :: o.bytes) := by
  cases found : lineRegex.fullMatch (ltrim line) with
  | none => simp [selectInstr,found] at chosen
  | some m =>
    rw [selectMatch beyond found,Option.map_eq_some_iff] at chosen
    obtain ⟨_,entry,same⟩ := chosen
    obtain ⟨rfl,rfl⟩ := Prod.mk.inj same
    obtain ⟨d,documented,key,rfl⟩ := (findDocumented _ _).mp entry
    obtain ⟨name,type⟩ := AsmInstrKey.mk.inj key
    obtain ⟨o,read⟩ := operandKnown (type ▸ documentedKnown d documented)
    have mode : d.mode = o.mode := type.trans (operandMode read)
    refine ⟨d,documented,o,rfl,mode,name ▸ lineSound found read,fun fits => ?_⟩
    have bytes := parsedBytes beyond (matchSplits found).1 read fits
    rw [← mode] at bytes
    exact congrArg (List.cons d.opcode) bytes

theorem selectText {line : List Char} {d : Documented} {o : Operand} (documented : d ∈ documentedSet)
    (mode : d.mode = o.mode) (text : LineText line d.name o) :
    ∃ val, selectInstr beyond line = some (d.instr,val) ∧ (o.Fits → d.instr.bytes val = d.opcode :: o.bytes) := by
  obtain ⟨m,found,name,read⟩ := lineComplete text
  have key : (⟨d.name,d.mode⟩ : AsmInstrKey) = ⟨uppercopy (fields m).instr,(fields m).type⟩ := by
    rw [name,operandMode read,mode]
  refine ⟨(fields m).parsedVal beyond,?_,fun fits => ?_⟩
  · rw [selectMatch beyond found,(findDocumented _ _).mpr ⟨d,documented,key,rfl⟩]
    rfl
  · have bytes := parsedBytes beyond (matchSplits found).1 read fits
    rw [← mode] at bytes
    exact congrArg (List.cons d.opcode) bytes

end select

/- The grammar is unambiguous. -/
theorem lineUnique {line name name' : List Char} {o o' : Operand} (one : LineText line name o)
    (other : LineText line name' o') : name = name' ∧ o = o' := by
  obtain ⟨m,found,upper,read⟩ := lineComplete one
  obtain ⟨m',found',upper',read'⟩ := lineComplete other
  obtain rfl := Option.some.inj (found.symm.trans found')
  exact ⟨upper.symm.trans upper',Option.some.inj (read.symm.trans read')⟩

end Emu6502
