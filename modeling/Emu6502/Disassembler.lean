import Emu6502.BusPattern

/-! unasm.cpp: one line of disassembly, decoded from the aaabbbcc bit fields. Text is a
list of characters. -/
namespace Emu6502
open Interaction

/- _instruction_names. No entry is null, so the bare `$xx` line is never written. -/
def instructionNames : Vector (Vector String 16) 16 := #v[
  #v["BRK","ORA","KIL","SLO","NOP","ORA","ASL","SLO","PHP","ORA","ASL","ANC","NOP","ORA","ASL","SLO"],
  #v["BPL","ORA","KIL","SLO","NOP","ORA","ASL","SLO","CLC","ORA","NOP","SLO","NOP","ORA","ASL","SLO"],
  #v["JSR","AND","KIL","RLA","BIT","AND","ROL","RLA","PLP","AND","ROL","ANC","BIT","AND","ROL","RLA"],
  #v["BMI","AND","KIL","RLA","NOP","AND","ROL","RLA","SEC","AND","NOP","RLA","NOP","AND","ROL","RLA"],
  #v["RTI","EOR","KIL","SRE","NOP","EOR","LSR","SRE","PHA","EOR","LSR","ALR","JMP","EOR","LSR","SRE"],
  #v["BVC","EOR","KIL","SRE","NOP","EOR","LSR","SRE","CLI","EOR","NOP","SRE","NOP","EOR","LSR","SRE"],
  #v["RTS","ADC","KIL","RRA","NOP","ADC","ROR","RRA","PLA","ADC","ROR","ARR","JMP","ADC","ROR","RRA"],
  #v["BVS","ADC","KIL","RRA","NOP","ADC","ROR","RRA","SEI","ADC","NOP","RRA","NOP","ADC","ROR","RRA"],
  #v["NOP","STA","NOP","SAX","STY","STA","STX","SAX","DEY","NOP","TXA","XAA","STY","STA","STX","SAX"],
  #v["BCC","STA","KIL","SHA","STY","STA","STX","SAX","TYA","STA","TXS","TAS","SHY","STA","SHX","SHA"],
  #v["LDY","LDA","LDX","LAX","LDY","LDA","LDX","LAX","TAY","LDA","TAX","LXA","LDY","LDA","LDX","LAX"],
  #v["BCS","LDA","KIL","LAX","LDY","LDA","LDX","LAX","CLV","LDA","TSX","LAS","LDY","LDA","LDX","LAX"],
  #v["CPY","CMP","NOP","DCP","CPY","CMP","DEC","DCP","INY","CMP","DEX","SBX","CPY","CMP","DEC","DCP"],
  #v["BNE","CMP","KIL","DCP","NOP","CMP","DEC","DCP","CLD","CMP","NOP","DCP","NOP","CMP","DEC","DCP"],
  #v["CPX","SBC","NOP","ISC","CPX","SBC","INC","ISC","INX","SBC","NOP","SBC","CPX","SBC","INC","ISC"],
  #v["BEQ","SBC","KIL","ISC","NOP","SBC","INC","ISC","SED","SBC","NOP","ISC","NOP","SBC","INC","ISC"]
]

def instructionName (code : Uint8) : List Char := (byNibbles instructionNames code).toList

/-! What the streams print: hex is lower case, filled with zeros; decimal is plain. -/

def hex2 (v : Uint8) : List Char := [Nat.digitChar (v >>> 4).toNat,Nat.digitChar (v &&& 0xf).toNat]

def hex4 (v : Uint16) : List Char := hex2 (highByte v) ++ hex2 (lowByte v)

def decimal (v : Int) : List Char :=
  if v < 0 then '-' :: Nat.toDigits 10 v.natAbs else Nat.toDigits 10 v.natAbs

/-! The get*Params helpers, which read at pc and move it on. -/

def byteParams (render : Uint8 → List Char) : Exec (List Char) := do
  let regs ← get
  let data ← busRead regs.pc
  modify fun r => {r with pc := r.pc+1}
  pure (render data)

def wordParams (render : Uint16 → List Char) : Exec (List Char) := do
  let regs ← get
  let lo ← busRead regs.pc
  let hi ← busRead (regs.pc+1)
  modify fun r => {r with pc := r.pc+1}
  modify fun r => {r with pc := r.pc+1}
  pure (render (word lo hi))

def indXText (data : Uint8) : List Char := "($".toList ++ hex2 data ++ ",X)".toList
def indYText (data : Uint8) : List Char := "($".toList ++ hex2 data ++ "),Y".toList
def ind2Text (data : Uint16) : List Char := "($".toList ++ hex4 data ++ ")".toList
def zPgText (data : Uint8) : List Char := "$".toList ++ hex2 data
def immText (data : Uint8) : List Char := "#$".toList ++ hex2 data
def relText (data : Uint8) : List Char := decimal data.toInt
def absText (data : Uint16) : List Char := "$".toList ++ hex4 data

def getIndXParams : Exec (List Char) := byteParams indXText
def getIndYParams : Exec (List Char) := byteParams indYText
def getInd2Params : Exec (List Char) := wordParams ind2Text
def getZPgParams : Exec (List Char) := byteParams zPgText
def getImmParams : Exec (List Char) := byteParams immText
def getRelParams : Exec (List Char) := byteParams relText
def getAbsParams : Exec (List Char) := wordParams absText

inductive LineParams where
  | indX
  | indY
  | ind2
  | zPg
  | imm
  | rel
  | abs
  deriving DecidableEq, Repr

def LineParams.get : LineParams → Exec (List Char)
  | .indX => getIndXParams
  | .indY => getIndYParams
  | .ind2 => getInd2Params
  | .zPg => getZPgParams
  | .imm => getImmParams
  | .rel => getRelParams
  | .abs => getAbsParams

/- What follows the name: `bare suffix` is `res + suffix`, `params p suffix` is
`res + " " + p + suffix`. -/
inductive LineForm where
  | bare (suffix : String)
  | params (p : LineParams) (suffix : String)
  deriving DecidableEq, Repr

open LineForm LineParams in
def lineForm (c b a : Nat) : Option LineForm :=
  match c with
  | 0 =>
    match b with
    | 0 => if a = 1 then some (params abs "") else if a < 4 then some (bare "") else some (params imm "")
    | 1 => some (params zPg "")
    | 2 => some (bare "")
    | 3 => if a = 3 then some (params ind2 "") else some (params abs "")
    | 4 => some (params rel "")
    | 5 => some (params zPg ", X")
    | 6 => some (bare "")
    | 7 => some (params abs ", X")
    | _ => none
  | 1 =>
    match b with
    | 0 => some (params indX "")
    | 1 => some (params zPg "")
    | 2 => some (params imm "")
    | 3 => some (params abs "")
    | 4 => some (params indY "")
    | 5 => some (params zPg ", X")
    | 6 => some (params abs ", Y")
    | 7 => some (params abs ", X")
    | _ => none
  | 2 =>
    match b with
    | 0 => if a < 4 then some (bare "") else some (params imm "")
    | 1 => some (params zPg "")
    | 2 => if a < 4 then some (bare " A") else some (bare "")
    | 3 => some (params abs "")
    | 4 => some (bare "")
    | 5 => some (params zPg (if a = 4 ∨ a = 5 then ",Y" else ",X"))
    | 6 => some (bare "")
    | 7 => some (params abs (if a = 4 ∨ a = 5 then ",Y" else ",X"))
    | _ => none
  | 3 =>
    match b with
    | 0 => some (params indX "")
    | 1 => some (params zPg "")
    | 2 => some (params imm "")
    | 3 => some (params abs "")
    | 4 => some (params indY "")
    | 5 => some (params zPg (if a = 4 ∨ a = 5 then ",Y" else ",X"))
    | 6 => some (params abs ",Y")
    | 7 => some (params abs (if a = 4 ∨ a = 5 then ",Y" else ",X"))
    | _ => none
  | _ => none

def opcodeForm (code : Uint8) : Option LineForm :=
  lineForm (code &&& 0x03).toNat ((code &&& 0x1c) >>> 2).toNat ((code &&& 0xe0) >>> 5).toNat

def unasmLine : Exec (List Char) := do
  let regs ← get
  let instr ← busRead regs.pc
  modify fun r => {r with pc := r.pc+1}
  let res := instructionName instr
  match opcodeForm instr with
  | some (.bare suffix) => pure (res ++ suffix.toList)
  | some (.params p suffix) => do
      let text ← p.get
      pure (res ++ " ".toList ++ text ++ suffix.toList)
  | none => pure []

/-! The line as a function of the bytes it reads. -/

def LineParams.length : LineParams → Nat
  | .ind2 | .abs => 2
  | _ => 1

def LineParams.text (p : LineParams) (data : Uint16) : List Char :=
  match p with
  | .indX => indXText (lowByte data)
  | .indY => indYText (lowByte data)
  | .ind2 => ind2Text data
  | .zPg => zPgText (lowByte data)
  | .imm => immText (lowByte data)
  | .rel => relText (lowByte data)
  | .abs => absText data

def lineLength (code : Uint8) : Nat :=
  match opcodeForm code with
  | some (.params p _) => p.length
  | _ => 0

def lineText (code : Uint8) (data : Uint16) : List Char :=
  match opcodeForm code with
  | some (.bare suffix) => instructionName code ++ suffix.toList
  | some (.params p suffix) => instructionName code ++ " ".toList ++ p.text data ++ suffix.toList
  | none => []

theorem getPattern (p : LineParams) (regs : Registers) :
    p.get.run regs = operandBytes p.length regs.pc >>= fun data =>
      .done (p.text data,{regs with pc := regs.pc + BitVec.ofNat 16 p.length}) := by
  have twice : regs.pc + 1#16 + 1#16 = regs.pc + 2#16 := by bv_omega
  cases p <;>
    simp [LineParams.get,getIndXParams,getIndYParams,getInd2Params,getZPgParams,getImmParams,getRelParams,
      getAbsParams,byteParams,wordParams,LineParams.length,LineParams.text,twice]

theorem unasmPattern (regs : Registers) :
    unasmLine.run regs = .read regs.pc fun code =>
      operandBytes (lineLength code) (regs.pc + 1) >>= fun data =>
        .done (lineText code data,{regs with pc := regs.pc + 1 + BitVec.ofNat 16 (lineLength code)}) := by
  simp only [unasmLine,execRunBind,execRunGet,execRunModify,busReadRun,Program.doneBind,Program.readBind]
  refine congrArg (Program.read _) (funext fun code => ?_)
  cases form : opcodeForm code with
  | none => simp [lineLength,lineText,form]
  | some f =>
    cases f with
    | bare suffix => simp [lineLength,lineText,form]
    | params p suffix => simp [lineLength,lineText,form,getPattern]

end Emu6502
