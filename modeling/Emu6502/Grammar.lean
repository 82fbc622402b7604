import Mathlib.Data.List.Nodup
import Emu6502.Assembler

/-! The assembly language the assembler is written for, stated on its own: what a line
may look like, what it denotes, and the documented instructions. It mentions neither the
regular expression nor the sub-matches. -/
namespace Emu6502

inductive Operand where
  | implied
  | accumulator
  | immediate (v : Uint8)
  | zeroPage (v : Uint8)
  | zeroPageX (v : Uint8)
  | zeroPageY (v : Uint8)
  | absolute (v : Uint16)
  | absoluteX (v : Uint16)
  | absoluteY (v : Uint16)
  | indirect (v : Uint16)
  | indirectX (v : Uint8)
  | indirectY (v : Uint8)
  | relative (displacement : Int)
  deriving DecidableEq, Repr

def Operand.mode : Operand → AddressingType
  | implied => .implied
  | accumulator => .accumulator
  | immediate _ => .immediate
  | zeroPage _ => .zeroPage
  | zeroPageX _ => .zeroPageX
  | zeroPageY _ => .zeroPageY
  | absolute _ => .absolute
  | absoluteX _ => .absoluteX
  | absoluteY _ => .absoluteY
  | indirect _ => .indirect
  | indirectX _ => .indirectX
  | indirectY _ => .indirectY
  | relative _ => .relative

/-! Spelling. -/

def Spaces (text : List Char) : Prop := ∀ c ∈ text, isspace c = true

/- Exactly as many hex digits as the value is wide: two for a byte, four for a word. -/
structure HexText {n : Nat} (v : BitVec n) (digits : List Char) : Prop where
  width : 4 * digits.length = n
  hex : ∀ c ∈ digits, isHex c = true
  value : BitVec.ofNat n (hexValue digits) = v

def EitherCase (upper c : Char) : Prop := c = upper ∨ c = upper.toLower

inductive IndexText (register : Char) : List Char → Prop where
  | intro {before after : List Char} {c : Char} (ahead : Spaces before) (behind : Spaces after)
      (letter : EitherCase register c) : IndexText register (before ++ ',' :: (after ++ [c]))

inductive OperandText : Operand → List Char → Prop where
  | implied : OperandText .implied []
  | accumulator {c} (letter : EitherCase 'A' c) : OperandText .accumulator [c]
  | immediate {v digits} (hex : HexText v digits) : OperandText (.immediate v) ('#' :: '$' :: digits)
  | zeroPage {v digits} (hex : HexText v digits) : OperandText (.zeroPage v) ('$' :: digits)
  | zeroPageX {v digits index} (hex : HexText v digits) (x : IndexText 'X' index) :
      OperandText (.zeroPageX v) ('$' :: digits ++ index)
  | zeroPageY {v digits index} (hex : HexText v digits) (y : IndexText 'Y' index) :
      OperandText (.zeroPageY v) ('$' :: digits ++ index)
  | absolute {v digits} (hex : HexText v digits) : OperandText (.absolute v) ('$' :: digits)
  | absoluteX {v digits index} (hex : HexText v digits) (x : IndexText 'X' index) :
      OperandText (.absoluteX v) ('$' :: digits ++ index)
  | absoluteY {v digits index} (hex : HexText v digits) (y : IndexText 'Y' index) :
      OperandText (.absoluteY v) ('$' :: digits ++ index)
  | indirect {v digits} (hex : HexText v digits) : OperandText (.indirect v) ('(' :: '$' :: digits ++ [')'])
  | indirectX {v digits index} (hex : HexText v digits) (x : IndexText 'X' index) :
      OperandText (.indirectX v) ('(' :: '$' :: digits ++ index ++ [')'])
  | indirectY {v digits index} (hex : HexText v digits) (y : IndexText 'Y' index) :
      OperandText (.indirectY v) ('(' :: '$' :: digits ++ ')' :: index)
  | relative {sign digits} (signs : sign = [] ∨ sign = ['+'] ∨ sign = ['-']) (some : digits ≠ [])
      (decimal : ∀ c ∈ digits, c.isDigit = true) :
      OperandText (.relative (signedValue (sign ++ digits))) (sign ++ digits)

def CommentText (text : List Char) : Prop :=
  text = [] ∨ ∃ words, text = ';' :: words ∧ ∀ c ∈ words, c ≠ '\n' ∧ c ≠ '\r'

/-- `name` is the mnemonic in capitals. -/
inductive LineText : List Char → List Char → Operand → Prop where
  | bare {lead mnemonic} (margin : Spaces lead) (some : mnemonic ≠ [])
      (letters : ∀ c ∈ mnemonic, isLetter c = true) :
      LineText (lead ++ mnemonic) (uppercopy mnemonic) .implied
  | full {lead mnemonic gap text trail comment o} (margin : Spaces lead) (some : mnemonic ≠ [])
      (letters : ∀ c ∈ mnemonic, isLetter c = true) (gapped : gap ≠ []) (blank : Spaces gap)
      (operand : OperandText o text) (after : Spaces trail) (remark : CommentText comment) :
      LineText (lead ++ (mnemonic ++ (gap ++ (text ++ (trail ++ comment))))) (uppercopy mnemonic) o

/-! The documented instructions, by addressing mode. -/

structure Documented where
  name : List Char
  mode : AddressingType
  opcode : Uint8
  deriving DecidableEq, Repr

def documentedModes : List (AddressingType × List (String × Uint8)) := [
  (.implied,[
    ("BRK",0x00),("CLC",0x18),("CLD",0xd8),("CLI",0x58),("CLV",0xb8),("DEX",0xca),("DEY",0x88),("INX",0xe8),
    ("INY",0xc8),("NOP",0xea),("PHA",0x48),("PHP",0x08),("PLA",0x68),("PLP",0x28),("RTI",0x40),("RTS",0x60),
    ("SEC",0x38),("SED",0xf8),("SEI",0x78),("TAX",0xaa),("TAY",0xa8),("TSX",0xba),("TXA",0x8a),("TXS",0x9a),
    ("TYA",0x98)]),
  (.accumulator,[
    ("ASL",0x0a),("LSR",0x4a),("ROL",0x2a),("ROR",0x6a)]),
  (.immediate,[
    ("ADC",0x69),("AND",0x29),("CMP",0xc9),("CPX",0xe0),("CPY",0xc0),("EOR",0x49),("LDA",0xa9),("LDX",0xa2),
    ("LDY",0xa0),("ORA",0x09),("SBC",0xe9)]),
  (.zeroPage,[
    ("ADC",0x65),("AND",0x25),("ASL",0x06),("BIT",0x24),("CMP",0xc5),("CPX",0xe4),("CPY",0xc4),("DEC",0xc6),
    ("EOR",0x45),("INC",0xe6),("LDA",0xa5),("LDX",0xa6),("LDY",0xa4),("LSR",0x46),("ORA",0x05),("ROL",0x26),
    ("ROR",0x66),("SBC",0xe5),("STA",0x85),("STX",0x86),("STY",0x84)]),
  (.zeroPageX,[
    ("ADC",0x75),("AND",0x35),("ASL",0x16),("CMP",0xd5),("DEC",0xd6),("EOR",0x55),("INC",0xf6),("LDA",0xb5),
    ("LDY",0xb4),("LSR",0x56),("ORA",0x15),("ROL",0x36),("ROR",0x76),("SBC",0xf5),("STA",0x95),("STY",0x94)]),
  (.zeroPageY,[
    ("LDX",0xb6),("STX",0x96)]),
  (.absolute,[
    ("ADC",0x6d),("AND",0x2d),("ASL",0x0e),("BIT",0x2c),("CMP",0xcd),("CPX",0xec),("CPY",0xcc),("DEC",0xce),
    ("EOR",0x4d),("INC",0xee),("JMP",0x4c),("JSR",0x20),("LDA",0xad),("LDX",0xae),("LDY",0xac),("LSR",0x4e),
    ("ORA",0x0d),("ROL",0x2e),("ROR",0x6e),("SBC",0xed),("STA",0x8d),("STX",0x8e),("STY",0x8c)]),
  (.absoluteX,[
    ("ADC",0x7d),("AND",0x3d),("ASL",0x1e),("CMP",0xdd),("DEC",0xde),("EOR",0x5d),("INC",0xfe),("LDA",0xbd),
    ("LDY",0xbc),("LSR",0x5e),("ORA",0x1d),("ROL",0x3e),("ROR",0x7e),("SBC",0xfd),("STA",0x9d)]),
  (.absoluteY,[
    ("ADC",0x79),("AND",0x39),("CMP",0xd9),("EOR",0x59),("LDA",0xb9),("LDX",0xbe),("ORA",0x19),("SBC",0xf9),
    ("STA",0x99)]),
  (.indirect,[
    ("JMP",0x6c)]),
  (.indirectX,[
    ("ADC",0x61),("AND",0x21),("CMP",0xc1),("EOR",0x41),("LDA",0xa1),("ORA",0x01),("SBC",0xe1),("STA",0x81)]),
  (.indirectY,[
    ("ADC",0x71),("AND",0x31),("CMP",0xd1),("EOR",0x51),("LDA",0xb1),("ORA",0x11),("SBC",0xf1),("STA",0x91)]),
  (.relative,[
    ("BCC",0x90),("BCS",0xb0),("BEQ",0xf0),("BMI",0x30),("BNE",0xd0),("BPL",0x10),("BVC",0x50),("BVS",0x70)])]

def documentedSet : List Documented :=
  documentedModes.flatMap fun group => group.2.map fun row => ⟨row.1.toList,group.1,row.2⟩

example : documentedSet.length = 151 := rfl

/-! The mapper holds exactly these, each with the operand bytes of its mode. -/

def AddressingType.addrT : AddressingType → AddrT
  | absolute | absoluteX | absoluteY | indirect => .addr2Param
  | accumulator | implied | unkown => .addrNoParams
  | _ => .addr1Param

def Documented.instr (d : Documented) : AsmInstr := ⟨⟨d.name,d.mode⟩,d.mode.addrT,d.opcode⟩

def groupInstr (mode : AddressingType) (row : String × Uint8) : AsmInstr := ⟨⟨row.1.toList,mode⟩,mode.addrT,row.2⟩

theorem mapperGroups : ∀ group ∈ documentedModes,
    (instructionMapper.filter fun instr => instr.key.type == group.1) = group.2.map (groupInstr group.1) ∧
      (group.2.map fun row => row.1.toList).Nodup := by
  decide +kernel

theorem mapperModes : ∀ instr ∈ instructionMapper, instr.key.type ∈ documentedModes.map Prod.fst := by
  decide +kernel

theorem mapperRow {instr : AsmInstr} (entry : instr ∈ instructionMapper) {group : AddressingType × List (String × Uint8)}
    (known : group ∈ documentedModes) (same : group.1 = instr.key.type) :
    ∃ row ∈ group.2, groupInstr group.1 row = instr := by
  have sorted : instr ∈ instructionMapper.filter fun instr => instr.key.type == group.1 :=
    List.mem_filter.mpr ⟨entry,by simp [same]⟩
  rw [(mapperGroups group known).1] at sorted
  exact List.mem_map.mp sorted

theorem instrDocumented (instr : AsmInstr) :
    instr ∈ instructionMapper ↔ ∃ d ∈ documentedSet, d.instr = instr := by
  constructor
  · intro entry
    obtain ⟨group,known,mode⟩ := List.mem_map.mp (mapperModes instr entry)
    obtain ⟨row,listed,rfl⟩ := mapperRow entry known mode
    refine ⟨⟨row.1.toList,group.1,row.2⟩,?_,rfl⟩
    exact List.mem_flatMap.mpr ⟨group,known,List.mem_map.mpr ⟨row,listed,rfl⟩⟩
  · rintro ⟨d,member,rfl⟩
    obtain ⟨group,known,inGroup⟩ := List.mem_flatMap.mp member
    obtain ⟨row,listed,rfl⟩ := List.mem_map.mp inGroup
    have sorted := List.mem_map_of_mem (f := groupInstr group.1) listed
    rw [← (mapperGroups group known).1] at sorted
    exact (List.mem_filter.mp sorted).1

/- No key is assigned twice. -/
theorem mapperKeys {one other : AsmInstr} (first : one ∈ instructionMapper) (second : other ∈ instructionMapper)
    (same : one.key = other.key) : one = other := by
  obtain ⟨group,known,mode⟩ := List.mem_map.mp (mapperModes one first)
  obtain ⟨row,listed,rfl⟩ := mapperRow first known mode
  obtain ⟨row',listed',rfl⟩ := mapperRow second known (mode.trans (congrArg AsmInstrKey.type same))
  have names : row.1.toList = row'.1.toList := congrArg AsmInstrKey.name same
  rw [List.inj_on_of_nodup_map (mapperGroups group known).2 listed listed' names]

theorem findInstrIff (key : AsmInstrKey) (instr : AsmInstr) :
    findInstr key = some instr ↔ instr ∈ instructionMapper ∧ instr.key = key := by
  constructor
  · intro found
    exact ⟨List.mem_of_find?_eq_some found,by simpa using List.find?_some found⟩
  · rintro ⟨entry,rfl⟩
    cases found : findInstr instr.key with
    | none =>
      have absent := List.find?_eq_none.mp found instr entry
      simp at absent
    | some other =>
      have same : other.key = instr.key := by simpa using List.find?_some found
      rw [mapperKeys (List.mem_of_find?_eq_some found) entry same]

theorem findDocumented (key : AsmInstrKey) (instr : AsmInstr) :
    findInstr key = some instr ↔ ∃ d ∈ documentedSet, ⟨d.name,d.mode⟩ = key ∧ d.instr = instr := by
  rw [findInstrIff,instrDocumented]
  constructor
  · rintro ⟨⟨d,member,rfl⟩,rfl⟩
    exact ⟨d,member,rfl,rfl⟩
  · rintro ⟨d,member,rfl,rfl⟩
    exact ⟨⟨d,member,rfl⟩,rfl⟩

end Emu6502
