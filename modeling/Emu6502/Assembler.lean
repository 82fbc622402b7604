import Mathlib.Algebra.Group.Nat.Defs
import Mathlib.Algebra.Group.Int.Defs
import Emu6502.Registers
import Emu6502.Lib.Regex

/-! Asm.cpp: Asm::compile on a vector of lines. Text is a list of characters; the
character classes are those of the C locale. -/
namespace Emu6502

def isspace (c : Char) : Bool := c == ' ' || (9 ≤ c.toNat && c.toNat ≤ 13)

def ltrim (s : List Char) : List Char := s.dropWhile isspace

def uppercopy (s : List Char) : List Char := s.map Char.toUpper

/- AsmInstrKey::AddressingType. -/
inductive AddressingType where
  | absolute
  | absoluteX
  | absoluteY
  | accumulator
  | immediate
  | implied
  | indirect
  | indirectX
  | indirectY
  | relative
  | zeroPage
  | zeroPageX
  | zeroPageY
  | unkown
  deriving DecidableEq, Repr

structure AsmInstrKey where
  name : List Char
  type : AddressingType
  deriving DecidableEq, Repr

/-! Emission. The image is the array r[0x10000] and pc the uint16 cursor into it. -/

structure Emission where
  r : Uint16 → Uint8
  pc : Uint16

def Emission.put (e : Emission) (v : Uint8) : Emission :=
  {r := fun a => if a = e.pc then v else e.r a, pc := e.pc + 1}

inductive AddrT where
  | addr2Param
  | addr1Param
  | addrNoParams
  deriving DecidableEq, Repr

def AddrT.emit (addr : AddrT) (val : BitVec 32) (e : Emission) : Emission :=
  match addr with
  | addr2Param => (e.put ((val &&& 0xff).setWidth 8)).put (((val.sshiftRight 8) &&& 0xff).setWidth 8)
  | addr1Param => e.put ((val &&& 0xff).setWidth 8)
  | addrNoParams => e

/- One entry of the mapper: the key and its Asm2Code<AddrT,opcode>. -/
structure AsmInstr where
  key : AsmInstrKey
  addr : AddrT
  opcode : Uint8
  deriving DecidableEq, Repr

def AsmInstr.emit (instr : AsmInstr) (val : BitVec 32) (e : Emission) : Emission :=
  instr.addr.emit val (e.put instr.opcode)

def instructionMapper : List AsmInstr := [
  ⟨⟨"ADC".toList,.immediate⟩,.addr1Param,0x69⟩,
  ⟨⟨"ADC".toList,.zeroPage⟩,.addr1Param,0x65⟩,
  ⟨⟨"ADC".toList,.zeroPageX⟩,.addr1Param,0x75⟩,
  ⟨⟨"ADC".toList,.absolute⟩,.addr2Param,0x6d⟩,
  ⟨⟨"ADC".toList,.absoluteX⟩,.addr2Param,0x7d⟩,
  ⟨⟨"ADC".toList,.absoluteY⟩,.addr2Param,0x79⟩,
  ⟨⟨"ADC".toList,.indirectX⟩,.addr1Param,0x61⟩,
  ⟨⟨"ADC".toList,.indirectY⟩,.addr1Param,0x71⟩,
  ⟨⟨"AND".toList,.immediate⟩,.addr1Param,0x29⟩,
  ⟨⟨"AND".toList,.zeroPage⟩,.addr1Param,0x25⟩,
  ⟨⟨"AND".toList,.zeroPageX⟩,.addr1Param,0x35⟩,
  ⟨⟨"AND".toList,.absolute⟩,.addr2Param,0x2d⟩,
  ⟨⟨"AND".toList,.absoluteX⟩,.addr2Param,0x3d⟩,
  ⟨⟨"AND".toList,.absoluteY⟩,.addr2Param,0x39⟩,
  ⟨⟨"AND".toList,.indirectX⟩,.addr1Param,0x21⟩,
  ⟨⟨"AND".toList,.indirectY⟩,.addr1Param,0x31⟩,
  ⟨⟨"ASL".toList,.accumulator⟩,.addrNoParams,0x0a⟩,
  ⟨⟨"ASL".toList,.zeroPage⟩,.addr1Param,0x06⟩,
  ⟨⟨"ASL".toList,.zeroPageX⟩,.addr1Param,0x16⟩,
  ⟨⟨"ASL".toList,.absolute⟩,.addr2Param,0x0e⟩,
  ⟨⟨"ASL".toList,.absoluteX⟩,.addr2Param,0x1e⟩,
  ⟨⟨"BCC".toList,.relative⟩,.addr1Param,0x90⟩,
  ⟨⟨"BCS".toList,.relative⟩,.addr1Param,0xb0⟩,
  ⟨⟨"BEQ".toList,.relative⟩,.addr1Param,0xf0⟩,
  ⟨⟨"BIT".toList,.zeroPage⟩,.addr1Param,0x24⟩,
  ⟨⟨"BIT".toList,.absolute⟩,.addr2Param,0x2c⟩,
  ⟨⟨"BMI".toList,.relative⟩,.addr1Param,0x30⟩,
  ⟨⟨"BNE".toList,.relative⟩,.addr1Param,0xd0⟩,
  ⟨⟨"BPL".toList,.relative⟩,.addr1Param,0x10⟩,
  ⟨⟨"BRK".toList,.implied⟩,.addrNoParams,0x00⟩,
  ⟨⟨"BVC".toList,.relative⟩,.addr1Param,0x50⟩,
  ⟨⟨"BVS".toList,.relative⟩,.addr1Param,0x70⟩,
  ⟨⟨"CLC".toList,.implied⟩,.addrNoParams,0x18⟩,
  ⟨⟨"CLD".toList,.implied⟩,.addrNoParams,0xd8⟩,
  ⟨⟨"CLI".toList,.implied⟩,.addrNoParams,0x58⟩,
  ⟨⟨"CLV".toList,.implied⟩,.addrNoParams,0xb8⟩,
  ⟨⟨"CMP".toList,.immediate⟩,.addr1Param,0xc9⟩,
  ⟨⟨"CMP".toList,.zeroPage⟩,.addr1Param,0xc5⟩,
  ⟨⟨"CMP".toList,.zeroPageX⟩,.addr1Param,0xd5⟩,
  ⟨⟨"CMP".toList,.absolute⟩,.addr2Param,0xcd⟩,
  ⟨⟨"CMP".toList,.absoluteX⟩,.addr2Param,0xdd⟩,
  ⟨⟨"CMP".toList,.absoluteY⟩,.addr2Param,0xd9⟩,
  ⟨⟨"CMP".toList,.indirectX⟩,.addr1Param,0xc1⟩,
  ⟨⟨"CMP".toList,.indirectY⟩,.addr1Param,0xd1⟩,
  ⟨⟨"CPX".toList,.immediate⟩,.addr1Param,0xe0⟩,
  ⟨⟨"CPX".toList,.zeroPage⟩,.addr1Param,0xe4⟩,
  ⟨⟨"CPX".toList,.absolute⟩,.addr2Param,0xec⟩,
  ⟨⟨"CPY".toList,.immediate⟩,.addr1Param,0xc0⟩,
  ⟨⟨"CPY".toList,.zeroPage⟩,.addr1Param,0xc4⟩,
  ⟨⟨"CPY".toList,.absolute⟩,.addr2Param,0xcc⟩,
  ⟨⟨"DEC".toList,.zeroPage⟩,.addr1Param,0xc6⟩,
  ⟨⟨"DEC".toList,.zeroPageX⟩,.addr1Param,0xd6⟩,
  ⟨⟨"DEC".toList,.absolute⟩,.addr2Param,0xce⟩,
  ⟨⟨"DEC".toList,.absoluteX⟩,.addr2Param,0xde⟩,
  ⟨⟨"DEX".toList,.implied⟩,.addrNoParams,0xca⟩,
  ⟨⟨"DEY".toList,.implied⟩,.addrNoParams,0x88⟩,
  ⟨⟨"EOR".toList,.immediate⟩,.addr1Param,0x49⟩,
  ⟨⟨"EOR".toList,.zeroPage⟩,.addr1Param,0x45⟩,
  ⟨⟨"EOR".toList,.zeroPageX⟩,.addr1Param,0x55⟩,
  ⟨⟨"EOR".toList,.absolute⟩,.addr2Param,0x4d⟩,
  ⟨⟨"EOR".toList,.absoluteX⟩,.addr2Param,0x5d⟩,
  ⟨⟨"EOR".toList,.absoluteY⟩,.addr2Param,0x59⟩,
  ⟨⟨"EOR".toList,.indirectX⟩,.addr1Param,0x41⟩,
  ⟨⟨"EOR".toList,.indirectY⟩,.addr1Param,0x51⟩,
  ⟨⟨"INC".toList,.zeroPage⟩,.addr1Param,0xe6⟩,
  ⟨⟨"INC".toList,.zeroPageX⟩,.addr1Param,0xf6⟩,
  ⟨⟨"INC".toList,.absolute⟩,.addr2Param,0xee⟩,
  ⟨⟨"INC".toList,.absoluteX⟩,.addr2Param,0xfe⟩,
  ⟨⟨"INX".toList,.implied⟩,.addrNoParams,0xe8⟩,
  ⟨⟨"INY".toList,.implied⟩,.addrNoParams,0xc8⟩,
  ⟨⟨"JMP".toList,.absolute⟩,.addr2Param,0x4c⟩,
  ⟨⟨"JMP".toList,.indirect⟩,.addr2Param,0x6c⟩,
  ⟨⟨"JSR".toList,.absolute⟩,.addr2Param,0x20⟩,
  ⟨⟨"LDA".toList,.immediate⟩,.addr1Param,0xa9⟩,
  ⟨⟨"LDA".toList,.zeroPage⟩,.addr1Param,0xa5⟩,
  ⟨⟨"LDA".toList,.zeroPageX⟩,.addr1Param,0xb5⟩,
  ⟨⟨"LDA".toList,.absolute⟩,.addr2Param,0xad⟩,
  ⟨⟨"LDA".toList,.absoluteX⟩,.addr2Param,0xbd⟩,
  ⟨⟨"LDA".toList,.absoluteY⟩,.addr2Param,0xb9⟩,
  ⟨⟨"LDA".toList,.indirectX⟩,.addr1Param,0xa1⟩,
  ⟨⟨"LDA".toList,.indirectY⟩,.addr1Param,0xb1⟩,
  ⟨⟨"LDX".toList,.immediate⟩,.addr1Param,0xa2⟩,
  ⟨⟨"LDX".toList,.zeroPage⟩,.addr1Param,0xa6⟩,
  ⟨⟨"LDX".toList,.zeroPageY⟩,.addr1Param,0xb6⟩,
  ⟨⟨"LDX".toList,.absolute⟩,.addr2Param,0xae⟩,
  ⟨⟨"LDX".toList,.absoluteY⟩,.addr2Param,0xbe⟩,
  ⟨⟨"LDY".toList,.immediate⟩,.addr1Param,0xa0⟩,
  ⟨⟨"LDY".toList,.zeroPage⟩,.addr1Param,0xa4⟩,
  ⟨⟨"LDY".toList,.zeroPageX⟩,.addr1Param,0xb4⟩,
  ⟨⟨"LDY".toList,.absolute⟩,.addr2Param,0xac⟩,
  ⟨⟨"LDY".toList,.absoluteX⟩,.addr2Param,0xbc⟩,
  ⟨⟨"LSR".toList,.accumulator⟩,.addrNoParams,0x4a⟩,
  ⟨⟨"LSR".toList,.zeroPage⟩,.addr1Param,0x46⟩,
  ⟨⟨"LSR".toList,.zeroPageX⟩,.addr1Param,0x56⟩,
  ⟨⟨"LSR".toList,.absolute⟩,.addr2Param,0x4e⟩,
  ⟨⟨"LSR".toList,.absoluteX⟩,.addr2Param,0x5e⟩,
  ⟨⟨"NOP".toList,.implied⟩,.addrNoParams,0xea⟩,
  ⟨⟨"ORA".toList,.immediate⟩,.addr1Param,0x09⟩,
  ⟨⟨"ORA".toList,.zeroPage⟩,.addr1Param,0x05⟩,
  ⟨⟨"ORA".toList,.zeroPageX⟩,.addr1Param,0x15⟩,
  ⟨⟨"ORA".toList,.absolute⟩,.addr2Param,0x0d⟩,
  ⟨⟨"ORA".toList,.absoluteX⟩,.addr2Param,0x1d⟩,
  ⟨⟨"ORA".toList,.absoluteY⟩,.addr2Param,0x19⟩,
  ⟨⟨"ORA".toList,.indirectX⟩,.addr1Param,0x01⟩,
  ⟨⟨"ORA".toList,.indirectY⟩,.addr1Param,0x11⟩,
  ⟨⟨"PHA".toList,.implied⟩,.addrNoParams,0x48⟩,
  ⟨⟨"PHP".toList,.implied⟩,.addrNoParams,0x08⟩,
  ⟨⟨"PLA".toList,.implied⟩,.addrNoParams,0x68⟩,
  ⟨⟨"PLP".toList,.implied⟩,.addrNoParams,0x28⟩,
  ⟨⟨"ROL".toList,.accumulator⟩,.addrNoParams,0x2a⟩,
  ⟨⟨"ROL".toList,.zeroPage⟩,.addr1Param,0x26⟩,
  ⟨⟨"ROL".toList,.zeroPageX⟩,.addr1Param,0x36⟩,
  ⟨⟨"ROL".toList,.absolute⟩,.addr2Param,0x2e⟩,
  ⟨⟨"ROL".toList,.absoluteX⟩,.addr2Param,0x3e⟩,
  ⟨⟨"ROR".toList,.accumulator⟩,.addrNoParams,0x6a⟩,
  ⟨⟨"ROR".toList,.zeroPage⟩,.addr1Param,0x66⟩,
  ⟨⟨"ROR".toList,.zeroPageX⟩,.addr1Param,0x76⟩,
  ⟨⟨"ROR".toList,.absolute⟩,.addr2Param,0x6e⟩,
  ⟨⟨"ROR".toList,.absoluteX⟩,.addr2Param,0x7e⟩,
  ⟨⟨"RTI".toList,.implied⟩,.addrNoParams,0x40⟩,
  ⟨⟨"RTS".toList,.implied⟩,.addrNoParams,0x60⟩,
  ⟨⟨"SBC".toList,.immediate⟩,.addr1Param,0xe9⟩,
  ⟨⟨"SBC".toList,.zeroPage⟩,.addr1Param,0xe5⟩,
  ⟨⟨"SBC".toList,.zeroPageX⟩,.addr1Param,0xf5⟩,
  ⟨⟨"SBC".toList,.absolute⟩,.addr2Param,0xed⟩,
  ⟨⟨"SBC".toList,.absoluteX⟩,.addr2Param,0xfd⟩,
  ⟨⟨"SBC".toList,.absoluteY⟩,.addr2Param,0xf9⟩,
  ⟨⟨"SBC".toList,.indirectX⟩,.addr1Param,0xe1⟩,
  ⟨⟨"SBC".toList,.indirectY⟩,.addr1Param,0xf1⟩,
  ⟨⟨"SEC".toList,.implied⟩,.addrNoParams,0x38⟩,
  ⟨⟨"SED".toList,.implied⟩,.addrNoParams,0xf8⟩,
  ⟨⟨"SEI".toList,.implied⟩,.addrNoParams,0x78⟩,
  ⟨⟨"STA".toList,.zeroPage⟩,.addr1Param,0x85⟩,
  ⟨⟨"STA".toList,.zeroPageX⟩,.addr1Param,0x95⟩,
  ⟨⟨"STA".toList,.absolute⟩,.addr2Param,0x8d⟩,
  ⟨⟨"STA".toList,.absoluteX⟩,.addr2Param,0x9d⟩,
  ⟨⟨"STA".toList,.absoluteY⟩,.addr2Param,0x99⟩,
  ⟨⟨"STA".toList,.indirectX⟩,.addr1Param,0x81⟩,
  ⟨⟨"STA".toList,.indirectY⟩,.addr1Param,0x91⟩,
  ⟨⟨"STX".toList,.zeroPage⟩,.addr1Param,0x86⟩,
  ⟨⟨"STX".toList,.zeroPageY⟩,.addr1Param,0x96⟩,
  ⟨⟨"STX".toList,.absolute⟩,.addr2Param,0x8e⟩,
  ⟨⟨"STY".toList,.zeroPage⟩,.addr1Param,0x84⟩,
  ⟨⟨"STY".toList,.zeroPageX⟩,.addr1Param,0x94⟩,
  ⟨⟨"STY".toList,.absolute⟩,.addr2Param,0x8c⟩,
  ⟨⟨"TAX".toList,.implied⟩,.addrNoParams,0xaa⟩,
  ⟨⟨"TAY".toList,.implied⟩,.addrNoParams,0xa8⟩,
  ⟨⟨"TSX".toList,.implied⟩,.addrNoParams,0xba⟩,
  ⟨⟨"TXA".toList,.implied⟩,.addrNoParams,0x8a⟩,
  ⟨⟨"TXS".toList,.implied⟩,.addrNoParams,0x9a⟩,
  ⟨⟨"TYA".toList,.implied⟩,.addrNoParams,0x98⟩]

def findInstr (key : AsmInstrKey) : Option AsmInstr := instructionMapper.find? fun instr => instr.key == key

/-! The operand grammar, with std::regex::icase. -/

def isLetter (c : Char) : Bool := 'a' ≤ c.toLower && c.toLower ≤ 'z'
def isHex (c : Char) : Bool := c.isDigit || ('a' ≤ c.toLower && c.toLower ≤ 'f')
def isIndexLetter (c : Char) : Bool := c.toLower == 'x' || c.toLower == 'y'

namespace LineRegex
open Regex

def lit (c : Char) : Regex Char := .set (· == c)
def spaces : Regex Char := .star (.set isspace)
def dot : Regex Char := .set fun c => c != '\n' && c != '\r'

def index (whole letter : Nat) : Regex Char :=
  .opt (.group whole (.seq spaces (.seq (lit ',') (.seq spaces (.group letter (.set isIndexLetter))))))

end LineRegex

open LineRegex Regex in
/- "(\\()?(\\#)?(\\$[0-9a-f]+)?(\\s*,\\s*([xy]))?(\\))?(\\s*,\\s*([xy]))?((?:\\+|-)?\\d+)?(a)?\\s*(;.*)?$" -/
def operandRegex : Regex Char := List.foldr .seq .eol [
  .opt (.group 2 (lit '(')),
  .opt (.group 3 (lit '#')),
  .opt (.group 4 (.seq (lit '$') (plus (.set isHex)))),
  index 5 6,
  .opt (.group 7 (lit ')')),
  index 8 9,
  .opt (.group 10 (.seq (.opt (.alt (lit '+') (lit '-'))) (plus (.set Char.isDigit)))),
  .opt (.group 11 (.set fun c => c.toLower == 'a')),
  spaces,
  .opt (.group 12 (.seq (lit ';') (.star dot)))]

open LineRegex Regex in
/- "^\\s*([a-z]+)(?:\\s+|$)", then the operand. -/
def lineRegex : Regex Char := List.foldr .seq operandRegex [
  .bol,
  spaces,
  .group 1 (plus (.set isLetter)),
  .alt (plus (.set isspace)) .eol]

/- The sub-matches as compile() reads them. -/
structure Fields where
  instr : List Char
  opar : Bool
  imm : Bool
  val : List Char
  inner : List Char
  cpar : Bool
  outer : List Char
  rel : List Char
  rega : Bool
  deriving DecidableEq, Repr

def subMatch (m : Regex.Captures Char) (n : Nat) : List Char := (m n).getD []

def fields (m : Regex.Captures Char) : Fields where
  instr := subMatch m 1
  opar := 0 < (subMatch m 2).length
  imm := 0 < (subMatch m 3).length
  val := subMatch m 4
  inner := uppercopy (subMatch m 6)
  cpar := 0 < (subMatch m 7).length
  outer := uppercopy (subMatch m 9)
  rel := subMatch m 10
  rega := 0 < (subMatch m 11).length

namespace Fields

def zp (f : Fields) : Bool := f.val.length == 3
def abs (f : Fields) : Bool := f.val.length == 5
def noVal (f : Fields) : Bool := f.val.length == 0
def noIdx (f : Fields) : Bool := f.inner.isEmpty && f.outer.isEmpty
def noRel (f : Fields) : Bool := f.rel.length == 0

def type (f : Fields) : AddressingType :=
  if f.opar != f.cpar then .unkown
  else if f.opar then
    if f.imm || f.rega || !f.noRel then .unkown
    else if f.abs && f.noIdx then .indirect
    else if f.zp && f.inner == ['X'] && f.outer.isEmpty then .indirectX
    else if f.zp && f.inner.isEmpty && f.outer == ['Y'] then .indirectY
    else .unkown
  else if f.imm then
    if f.zp && f.noIdx && f.noRel && !f.rega then .immediate else .unkown
  else if f.rega then
    if f.noVal && f.noIdx && f.noRel then .accumulator else .unkown
  else if !f.noRel then
    if f.noVal && f.noIdx then .relative else .unkown
  else if f.noVal && f.noIdx then .implied
  else if f.outer.isEmpty then
    if f.abs then
      if f.inner.isEmpty then .absolute
      else if f.inner == ['X'] then .absoluteX
      else .absoluteY
    else if f.zp then
      if f.inner.isEmpty then .zeroPage
      else if f.inner == ['X'] then .zeroPageX
      else .zeroPageY
    else .unkown
  else .unkown

end Fields

/-! Numbers as the C library reads them. -/

def hexDigit (c : Char) : Nat := if c.isDigit then c.toNat - 48 else c.toLower.toNat - 87

def hexValue (digits : List Char) : Nat := digits.foldl (fun v c => 16 * v + hexDigit c) 0

/- strtoul(_, nullptr, 16) where unsigned long has 64 bits; it stops at its largest value. -/
def strtoul (digits : List Char) : Nat := min (hexValue digits) (2^64 - 1)

def decimalValue (digits : List Char) : Nat := digits.foldl (fun v c => 10 * v + (c.toNat - 48)) 0

def signedValue : List Char → Int
  | '-' :: digits => -decimalValue digits
  | '+' :: digits => decimalValue digits
  | digits => decimalValue digits

section compile

/- What atoi returns on a number that is no int: the standard leaves it undefined. -/
variable (beyond : List Char → BitVec 32)

def atoi (text : List Char) : BitVec 32 :=
  if -2^31 ≤ signedValue text ∧ signedValue text < 2^31 then BitVec.ofInt 32 (signedValue text) else beyond text

def Fields.parsedVal (f : Fields) : BitVec 32 :=
  if 0 < f.val.length then BitVec.ofNat 32 (strtoul (f.val.drop 1))
  else if 0 < f.rel.length then atoi beyond f.rel
  else 0

/- asm_syntax_exception, whose constructor takes an int. -/
structure AsmSyntaxException where
  line : BitVec 32
  deriving DecidableEq, Repr

def skipped (line : List Char) : Bool := (ltrim line).isEmpty || (ltrim line).head? == some ';'

/- The entry a line that is not skipped selects, and the value it is called with. -/
def selectInstr (line : List Char) : Option (AsmInstr × BitVec 32) := do
  let m ← lineRegex.fullMatch (ltrim line)
  let f := fields m
  let found ← findInstr ⟨uppercopy f.instr,f.type⟩
  pure (found,f.parsedVal beyond)

/- The loop over the lines from the one at index, and the image so far. -/
def compileFrom : Nat → List (List Char) → Emission → Except AsmSyntaxException Emission
  | _, [], e => .ok e
  | index, line :: lines, e =>
      if skipped line then compileFrom (index+1) lines e
      else match selectInstr beyond line with
        | none => .error ⟨BitVec.ofNat 32 (index+1)⟩
        | some (instr,val) => compileFrom (index+1) lines (instr.emit val e)

/- r before the loop: 0xff throughout, then the reset vector. -/
def freshImage (base : Uint16) : Uint16 → Uint8 := fun a =>
  if a = 0xfffd then ((base >>> 8) &&& 0xff).setWidth 8
  else if a = 0xfffc then (base &&& 0xff).setWidth 8
  else 0xff

def compile (base : Uint16) (lines : List (List Char)) : Except AsmSyntaxException (List Uint8) :=
  (compileFrom beyond 0 lines ⟨freshImage base,base⟩).map fun e => List.ofFn fun i : Fin 65536 => e.r (BitVec.ofFin i)

end compile

/-! what() of the exception. -/

def formatError (line : BitVec 32) : String := "Syntax error at line: " ++ toString line.toInt

def AsmSyntaxException.what (e : AsmSyntaxException) : String := formatError e.line

end Emu6502
