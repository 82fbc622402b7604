import Emu6502.EncodedLine
import Emu6502.LineSync

/-! The assembler and the disassembler undo each other. What the disassembler prints for a
documented instruction is a line of the grammar, for the same mnemonic and operand; so
the assembler's own grammar says what becomes of it. -/
namespace Emu6502
open Interaction WrappingCursor

/-! Blank lines, and lines that are not. -/

def BlankText (line : List Char) : Prop :=
  ∃ margin rest, line = margin ++ rest ∧ Spaces margin ∧ (rest = [] ∨ ∃ words, rest = ';' :: words)

theorem skippedIff (line : List Char) : skipped line = true ↔ BlankText line := by
  constructor
  · intro skip
    obtain ⟨margin,spaces,split⟩ := ltrimSplit line
    refine ⟨margin,ltrim line,split,spaces,?_⟩
    simp only [skipped,Bool.or_eq_true,List.isEmpty_iff,beq_iff_eq] at skip
    refine skip.imp id fun first => ?_
    cases trimmed : ltrim line with
    | nil => rw [trimmed] at first; contradiction
    | cons c words =>
      rw [trimmed] at first
      exact ⟨words,congrArg (· :: words) (Option.some.inj first)⟩
  · rintro ⟨margin,rest,rfl,spaces,shape⟩
    have trimmed : ltrim (margin ++ rest) = rest.dropWhile isspace := List.dropWhile_append_of_pos spaces
    rw [skipped,trimmed]
    rcases shape with rfl | ⟨words,rfl⟩ <;> rfl

theorem textLive {line name : List Char} {o : Operand} (text : LineText line name o) : skipped line = false := by
  have starts : ∀ lead mnemonic rest, Spaces lead → mnemonic ≠ [] → (∀ c ∈ mnemonic, isLetter c = true) →
      skipped (lead ++ (mnemonic ++ rest)) = false := by
    intro lead mnemonic rest margin named letters
    rw [skipped,ltrimLine margin named letters]
    cases mnemonic with
    | nil => contradiction
    | cons c mnemonic =>
      have letter := letters c List.mem_cons_self
      have apart : c ≠ ';' := by rintro rfl; contradiction
      simp [apart]
  cases text with
  | @bare lead mnemonic margin named letters => simpa using starts lead mnemonic [] margin named letters
  | full margin named letters => exact starts _ _ _ margin named letters

section lines
variable (beyond : List Char → BitVec 32)

theorem textBytes {line : List Char} {d : Documented} {o : Operand} (documented : d ∈ documentedSet)
    (mode : d.mode = o.mode) (text : LineText line d.name o) (fits : o.Fits) :
    lineBytes beyond line = some (d.opcode :: o.bytes) := by
  obtain ⟨val,chosen,bytes⟩ := selectText beyond documented mode text
  rw [lineBytes,textLive text,if_neg Bool.false_ne_true,chosen]
  exact congrArg some (bytes fits)

theorem programSingle (line : List Char) : program beyond [line] = lineBytes beyond line := by
  cases encoded : lineBytes beyond line <;> simp [program,encoded]

end lines

/-! What the disassembler prints. -/

theorem hex2Text : ∀ v : Uint8, HexText v (hex2 v) := by
  have each : ∀ v : Uint8, 4 * (hex2 v).length = 8 ∧ (hex2 v).all isHex = true ∧
      BitVec.ofNat 8 (hexValue (hex2 v)) = v := by
    decide
  exact fun v => ⟨(each v).1,List.all_eq_true.mp (each v).2.1,(each v).2.2⟩

theorem hex4Value (hi lo : Uint8) : hexValue (hex2 hi ++ hex2 lo) = 256 * hi.toNat + lo.toNat := by
  have each : ∀ v : Uint8, hexValue (hex2 v) = v.toNat := by decide
  have low := each lo
  have whole : hexValue (hex2 hi ++ hex2 lo) = (hex2 lo).foldl (fun v c => 16 * v + hexDigit c) (hexValue (hex2 hi)) :=
    List.foldl_append
  rw [whole,each hi]
  simp only [hexValue,hex2,List.foldl_cons,List.foldl_nil] at low ⊢
  omega

theorem hex4Text (w : Uint16) : HexText w (hex4 w) := by
  have high := hex2Text (highByte w)
  have low := hex2Text (lowByte w)
  refine ⟨by simp [hex4,hex2],?_,?_⟩
  · intro c member
    rcases List.mem_append.mp member with h | h
    · exact high.hex c h
    · exact low.hex c h
  · apply BitVec.eq_of_toNat_eq
    rw [hex4,hex4Value,BitVec.toNat_ofNat,highByte,lowByte,BitVec.toNat_setWidth,BitVec.toNat_setWidth,
      BitVec.toNat_ushiftRight,Nat.shiftRight_eq_div_pow]
    have := w.isLt
    omega

theorem decimalText (v : Uint8) : OperandText (.relative v.toInt) (relText v) := by
  have each : ∀ v : Uint8, signedValue (relText v) = v.toInt ∧ Nat.toDigits 10 v.toInt.natAbs ≠ [] ∧
      (Nat.toDigits 10 v.toInt.natAbs).all Char.isDigit = true := by
    decide
  obtain ⟨value,some,digits⟩ := each v
  have decimal := List.all_eq_true.mp digits
  rw [← value]
  unfold relText Emu6502.decimal
  split
  · exact .relative (Or.inr (Or.inr rfl)) some decimal
  · exact .relative (Or.inl rfl) some decimal

def LineForm.text (form : LineForm) (data : Uint16) : List Char :=
  match form with
  | bare suffix => suffix.toList
  | params p suffix => " ".toList ++ p.text data ++ suffix.toList

theorem lineTextForm {code : Uint8} {form : LineForm} (decoded : opcodeForm code = some form) (data : Uint16) :
    lineText code data = instructionName code ++ form.text data := by
  rw [lineText,decoded]
  cases form <;> simp [LineForm.text]

/- The forms the decoder uses for each mode; two modes are spaced in two ways. -/
open LineForm LineParams in
def AddressingType.forms : AddressingType → List LineForm
  | implied => [bare ""]
  | accumulator => [bare " A"]
  | immediate => [params imm ""]
  | zeroPage => [params zPg ""]
  | zeroPageX => [params zPg ", X",params zPg ",X"]
  | zeroPageY => [params zPg ",Y"]
  | absolute => [params abs ""]
  | absoluteX => [params abs ", X",params abs ",X"]
  | absoluteY => [params abs ", Y",params abs ",Y"]
  | indirect => [params ind2 ""]
  | indirectX => [params indX ""]
  | indirectY => [params indY ""]
  | relative => [params rel ""]
  | unkown => []

def AddressingType.operand (mode : AddressingType) (data : Uint16) : Operand :=
  match mode with
  | implied | unkown => .implied
  | accumulator => .accumulator
  | immediate => .immediate (lowByte data)
  | zeroPage => .zeroPage (lowByte data)
  | zeroPageX => .zeroPageX (lowByte data)
  | zeroPageY => .zeroPageY (lowByte data)
  | absolute => .absolute data
  | absoluteX => .absoluteX data
  | absoluteY => .absoluteY data
  | indirect => .indirect data
  | indirectX => .indirectX (lowByte data)
  | indirectY => .indirectY (lowByte data)
  | relative => .relative (lowByte data).toInt

theorem documentedForms : ∀ d ∈ documentedSet, instructionName d.opcode = d.name ∧
    (∃ form ∈ d.mode.forms, opcodeForm d.opcode = some form) ∧ d.name ≠ [] ∧
      d.name.all (fun c => isLetter c && c.toUpper == c) = true := by
  decide +kernel

theorem spacesNil : Spaces [] := fun _ member => absurd member List.not_mem_nil

theorem closeIndex (register : Char) : IndexText register [',',register] :=
  @IndexText.intro register [] [] register spacesNil spacesNil (Or.inl rfl)

theorem spacedIndex (register : Char) : IndexText register [',',' ',register] :=
  @IndexText.intro register [] [' '] register spacesNil (by simp [Spaces,isspace]) (Or.inl rfl)

theorem formSpells {mode : AddressingType} {form : LineForm} (listed : form ∈ mode.forms) (data : Uint16) :
    form.text data = [] ∧ mode.operand data = .implied ∨
      ∃ text, form.text data = ' ' :: text ∧ OperandText (mode.operand data) text := by
  have byte := hex2Text (lowByte data)
  have word := hex4Text data
  cases mode with
  | implied =>
    obtain rfl := List.mem_singleton.mp listed
    exact Or.inl ⟨rfl,rfl⟩
  | accumulator =>
    obtain rfl := List.mem_singleton.mp listed
    exact Or.inr ⟨['A'],rfl,.accumulator (Or.inl rfl)⟩
  | immediate =>
    obtain rfl := List.mem_singleton.mp listed
    exact Or.inr ⟨_,rfl,.immediate byte⟩
  | zeroPage =>
    obtain rfl := List.mem_singleton.mp listed
    exact Or.inr ⟨_,rfl,.zeroPage byte⟩
  | zeroPageX =>
    rcases listed with _ | ⟨_,_ | ⟨_,⟨⟩⟩⟩
    · exact Or.inr ⟨_,rfl,.zeroPageX byte (spacedIndex 'X')⟩
    · exact Or.inr ⟨_,rfl,.zeroPageX byte (closeIndex 'X')⟩
  | zeroPageY =>
    obtain rfl := List.mem_singleton.mp listed
    exact Or.inr ⟨_,rfl,.zeroPageY byte (closeIndex 'Y')⟩
  | absolute =>
    obtain rfl := List.mem_singleton.mp listed
    exact Or.inr ⟨_,rfl,.absolute word⟩
  | absoluteX =>
    rcases listed with _ | ⟨_,_ | ⟨_,⟨⟩⟩⟩
    · exact Or.inr ⟨_,rfl,.absoluteX word (spacedIndex 'X')⟩
    · exact Or.inr ⟨_,rfl,.absoluteX word (closeIndex 'X')⟩
  | absoluteY =>
    rcases listed with _ | ⟨_,_ | ⟨_,⟨⟩⟩⟩
    · exact Or.inr ⟨_,rfl,.absoluteY word (spacedIndex 'Y')⟩
    · exact Or.inr ⟨_,rfl,.absoluteY word (closeIndex 'Y')⟩
  | indirect =>
    obtain rfl := List.mem_singleton.mp listed
    exact Or.inr ⟨_,rfl,.indirect word⟩
  | indirectX =>
    obtain rfl := List.mem_singleton.mp listed
    exact Or.inr ⟨_,rfl,.indirectX byte (closeIndex 'X')⟩
  | indirectY =>
    obtain rfl := List.mem_singleton.mp listed
    exact Or.inr ⟨_,rfl,.indirectY byte (closeIndex 'Y')⟩
  | relative =>
    obtain rfl := List.mem_singleton.mp listed
    exact Or.inr ⟨_,by simp [LineForm.text,LineParams.text],decimalText (lowByte data)⟩
  | unkown => contradiction

theorem lineSpells {d : Documented} (documented : d ∈ documentedSet) (data : Uint16) :
    LineText (lineText d.opcode data) d.name (d.mode.operand data) := by
  obtain ⟨name,⟨form,listed,decoded⟩,named,checked⟩ := documentedForms d documented
  have capitals : ∀ c ∈ d.name, isLetter c = true ∧ c.toUpper = c := by simpa using checked
  have letters : ∀ c ∈ d.name, isLetter c = true := fun c member => (capitals c member).1
  have upper : uppercopy d.name = d.name :=
    (List.map_congr_left fun c member => (capitals c member).2).trans (List.map_id _)
  rw [lineTextForm decoded,name]
  rcases formSpells listed data with ⟨bare,implied⟩ | ⟨text,full,operand⟩
  · rw [bare,implied,List.append_nil]
    have line := LineText.bare spacesNil named letters
    rwa [upper] at line
  · have blank : Spaces [' '] := by simp [Spaces,isspace]
    have line := LineText.full spacesNil named letters (List.cons_ne_nil _ _) blank operand spacesNil (Or.inl rfl)
    rw [upper] at line
    simpa [full] using line

/-! Instructions as bytes in memory. -/

def AddrT.length : AddrT → Nat
  | addr2Param => 2
  | addr1Param => 1
  | addrNoParams => 0

theorem documentedLength : ∀ d ∈ documentedSet, lineLength d.opcode = d.mode.addrT.length := by decide +kernel

def operandData : List Uint8 → Uint16
  | [] => 0
  | [v] => zeroPageAddress v
  | lo :: hi :: _ => word lo hi

/- The operand the decoder makes of a documented instruction has the instruction's bytes. -/
theorem operandRead {mode : AddressingType} (known : mode ≠ .unkown) {operand : List Uint8}
    (width : operand.length = mode.addrT.length) :
    (mode.operand (operandData operand)).mode = mode ∧ (mode.operand (operandData operand)).bytes = operand ∧
      (mode.operand (operandData operand)).Fits := by
  cases mode with
  | unkown => contradiction
  | implied | accumulator =>
    obtain rfl := List.eq_nil_of_length_eq_zero width
    exact ⟨rfl,rfl,trivial⟩
  | immediate | zeroPage | zeroPageX | zeroPageY | indirectX | indirectY =>
    obtain ⟨v,rfl⟩ := List.length_eq_one_iff.mp width
    exact ⟨rfl,congrArg (fun v => [v]) (lowByteZeroPage v),trivial⟩
  | absolute | absoluteX | absoluteY | indirect =>
    obtain ⟨lo,hi,rfl⟩ := List.length_eq_two.mp width
    exact ⟨rfl,congrArg₂ (fun lo hi => [lo,hi]) (wordLow lo hi) (wordHigh lo hi),trivial⟩
  | relative =>
    obtain ⟨v,rfl⟩ := List.length_eq_one_iff.mp width
    have low := v.le_toInt
    have high := v.toInt_lt
    refine ⟨rfl,?_,?_⟩
    · simp only [operandData,AddressingType.operand,Operand.bytes,lowByteZeroPage,BitVec.ofInt_toInt]
    · simp only [operandData,AddressingType.operand,Operand.Fits,lowByteZeroPage]
      omega

def Placed (bus : Bus) (start : Uint16) (bytes : List Uint8) : Prop :=
  ∀ k (within : k < bytes.length), bus.read (start + BitVec.ofNat 16 k) = bytes[k]

theorem placedCons {bus : Bus} {start : Uint16} {v : Uint8} {bytes : List Uint8} (placed : Placed bus start (v :: bytes)) :
    bus.read start = v ∧ Placed bus (start + 1) bytes := by
  refine ⟨?_,fun k within => ?_⟩
  · have first := placed 0 (Nat.succ_pos _)
    rwa [firstCell] at first
  · rw [nextCell]
    exact placed (k+1) (Nat.succ_lt_succ within)

theorem placedAppend {bus : Bus} {start : Uint16} {first last : List Uint8} (placed : Placed bus start (first ++ last)) :
    Placed bus start first ∧ Placed bus (start + BitVec.ofNat 16 first.length) last := by
  induction first generalizing start with
  | nil =>
    rw [List.length_nil,firstCell]
    exact ⟨fun k within => absurd within (Nat.not_lt_zero k),placed⟩
  | cons v first ih =>
    obtain ⟨here,rest⟩ := placedCons placed
    obtain ⟨one,other⟩ := ih rest
    rw [nextCell] at other
    refine ⟨fun k within => ?_,other⟩
    cases k with
    | zero => rw [firstCell]; exact here
    | succ k => rw [← nextCell]; exact one k (Nat.lt_of_succ_lt_succ within)

theorem operandPlaced {bus : Bus} {pc : Uint16} {operand : List Uint8} (placed : Placed bus pc operand)
    (short : operand.length ≤ 2) :
    ((operandBytes operand.length pc).run Bus.device bus).result = operandData operand ∧
      ((operandBytes operand.length pc).run Bus.device bus).state = bus := by
  match operand with
  | [] => exact ⟨rfl,rfl⟩
  | [v] =>
    have first := (placedCons placed).1
    exact ⟨congrArg zeroPageAddress first,rfl⟩
  | [lo,hi] =>
    obtain ⟨first,rest⟩ := placedCons placed
    exact ⟨congrArg₂ word first (placedCons rest).1,rfl⟩
  | _ :: _ :: _ :: _ => simp at short

/- One line over an instruction: its text, the registers after it, and the bus as it was. -/
theorem linePlaced {bus : Bus} {regs : Registers} {d : Documented} (documented : d ∈ documentedSet) {operand : List Uint8}
    (width : operand.length = d.mode.addrT.length) (placed : Placed bus regs.pc (d.opcode :: operand)) :
    (unasmLine.run regs).run Bus.device bus =
      {result := (lineText d.opcode (operandData operand),{regs with pc := regs.pc + BitVec.ofNat 16 (operand.length+1)})
       state := bus
       log := ((unasmLine.run regs).run Bus.device bus).log} := by
  obtain ⟨first,rest⟩ := placedCons placed
  have short : operand.length ≤ 2 := by rw [width]; cases d.mode.addrT <;> decide
  obtain ⟨data,same⟩ := operandPlaced rest short
  have opcode : (Bus.device.read bus regs.pc) = (d.opcode,bus) := congrArg (·,bus) first
  have next : regs.pc + 1 + BitVec.ofNat 16 operand.length = regs.pc + BitVec.ofNat 16 (operand.length+1) := nextCell _ _
  simp only [unasmPattern,Program.runRead,Program.runBind,Program.runDone,opcode,documentedLength d documented,← width,data,
    same,next]

/-! Decoding undoes encoding. -/

/- A displacement a branch can hold. -/
def Operand.Near : Operand → Prop
  | relative displacement => -128 ≤ displacement ∧ displacement < 128
  | _ => True

theorem nearFits {o : Operand} (near : o.Near) : o.Fits := by
  cases o with
  | relative d => exact ⟨by have := near.1; omega,by have := near.2; omega⟩
  | _ => trivial

theorem operandBack {o : Operand} (near : o.Near) :
    o.bytes.length = o.mode.addrT.length ∧ o.mode.operand (operandData o.bytes) = o := by
  cases o with
  | implied | accumulator => exact ⟨rfl,rfl⟩
  | immediate v | zeroPage v | zeroPageX v | zeroPageY v | indirectX v | indirectY v =>
    exact ⟨rfl,congrArg _ (lowByteZeroPage v)⟩
  | absolute w | absoluteX w | absoluteY w | indirect w => exact ⟨rfl,congrArg _ (wordBytes w)⟩
  | relative d =>
    obtain ⟨low,high⟩ := near
    refine ⟨rfl,congrArg Operand.relative ?_⟩
    simp only [Operand.bytes,operandData,lowByteZeroPage]
    exact BitVec.toInt_ofInt_eq_self (by decide) low high

section roundTrip
variable (beyond : List Char → BitVec 32)

theorem lineAccepted (line : List Char) (live : skipped line = false) :
    lineBytes beyond line ≠ none ↔ ∃ d ∈ documentedSet, ∃ o, d.mode = o.mode ∧ LineText line d.name o := by
  rw [lineBytes,live,if_neg Bool.false_ne_true,Ne,Option.map_eq_none_iff]
  constructor
  · intro chosen
    obtain ⟨⟨instr,val⟩,chosen⟩ := Option.ne_none_iff_exists'.mp chosen
    obtain ⟨d,documented,o,_,mode,text,_⟩ := selectReads beyond chosen
    exact ⟨d,documented,o,mode,text⟩
  · rintro ⟨d,documented,o,mode,text⟩
    obtain ⟨val,chosen,_⟩ := selectText beyond documented mode text
    rw [chosen]
    exact Option.some_ne_none _

theorem compileSingle (base : Uint16) (line : List Char) :
    (∃ image, compile beyond base [line] = .ok image) ↔ lineBytes beyond line ≠ none := by
  constructor
  · rintro ⟨image,returned⟩ rejected
    have first : FirstRejected beyond [line] 0 := ⟨[],line,[],rfl,rfl,by simp,rejected⟩
    rw [compileError beyond first base] at returned
    contradiction
  · intro accepted
    obtain ⟨bytes,encoded⟩ := Option.ne_none_iff_exists'.mp accepted
    exact ⟨_,compileImage beyond ((programSingle beyond line).trans encoded) base⟩

theorem grammarDecides (line : List Char) (live : ¬ BlankText line) :
    (∀ base, (∃ image, compile beyond base [line] = .ok image) ↔
      ∃ d ∈ documentedSet, ∃ o, d.mode = o.mode ∧ LineText line d.name o) ∧
    ∀ d ∈ documentedSet, ∀ o, d.mode = o.mode → LineText line d.name o → o.Near →
      ∃ bytes, (∀ base, compile beyond base [line] = .ok (imageOf base bytes)) ∧
        ∀ (bus : Bus) (regs : Registers), Placed bus regs.pc bytes → ∀ name o',
          LineText ((unasmLine.run regs).run Bus.device bus).result.1 name o' ↔ name = d.name ∧ o' = o := by
  have notSkipped : skipped line = false := by
    by_contra skip
    exact live ((skippedIff line).mp (by simpa using skip))
  refine ⟨fun base => (compileSingle beyond base line).trans (lineAccepted beyond line notSkipped),?_⟩
  intro d documented o mode text near
  have encoded := textBytes beyond documented mode text (nearFits near)
  refine ⟨d.opcode :: o.bytes,fun base => compileImage beyond ((programSingle beyond line).trans encoded) base,?_⟩
  intro bus regs placed name o'
  obtain ⟨width,back⟩ := operandBack near
  rw [← mode] at width back
  rw [linePlaced documented width placed]
  have spelled := lineSpells documented (operandData o.bytes)
  rw [back] at spelled
  constructor
  · intro other
    obtain ⟨rfl,rfl⟩ := lineUnique other spelled
    exact ⟨rfl,rfl⟩
  · rintro ⟨rfl,rfl⟩
    exact spelled

end roundTrip

theorem bracketedLoad :
    (∃ image, compile (fun _ => 0) 0x0400 ["lda ($51,x)".toList] = .ok image) ∧
    ∃ bytes, compile (fun _ => 0) 0x0400 ["lda ($51,x)".toList] = .ok (imageOf 0x0400 bytes) ∧
      ∀ (bus : Bus) (regs : Registers), Placed bus regs.pc bytes →
        LineText ((unasmLine.run regs).run Bus.device bus).result.1 "LDA".toList (.indirectX 0x51) := by
  have live : ¬ BlankText "lda ($51,x)".toList := fun blank => absurd ((skippedIff _).mpr blank) (by decide)
  have hex : HexText (0x51 : Uint8) ['5','1'] := ⟨rfl,List.all_eq_true.mp rfl,rfl⟩
  have index : IndexText 'X' [',','x'] := @IndexText.intro 'X' [] [] 'x' spacesNil spacesNil (Or.inr rfl)
  have letters : ∀ c ∈ ['l','d','a'], isLetter c = true := List.all_eq_true.mp rfl
  have blank : Spaces [' '] := by simp [Spaces,isspace]
  have text : LineText "lda ($51,x)".toList "LDA".toList (.indirectX 0x51) :=
    LineText.full spacesNil (List.cons_ne_nil 'l' _) letters (List.cons_ne_nil ' ' []) blank (.indirectX hex index) spacesNil
      (Or.inl rfl)
  have documented : ⟨"LDA".toList,.indirectX,0xa1⟩ ∈ documentedSet := by decide
  obtain ⟨accepted,decoded⟩ := grammarDecides (fun _ => 0) "lda ($51,x)".toList live
  obtain ⟨bytes,image,back⟩ := decoded _ documented _ rfl text trivial
  exact ⟨(accepted 0x0400).mpr ⟨_,documented,_,rfl,text⟩,bytes,image 0x0400,fun bus regs placed =>
    (back bus regs placed _ _).mpr ⟨rfl,rfl⟩⟩

/-! Encoding undoes decoding: a listing of a run of documented instructions assembles to
the run. -/

def DocumentedBytes (bytes : List Uint8) : Prop :=
  ∃ d ∈ documentedSet, ∃ operand, operand.length = d.mode.addrT.length ∧ bytes = d.opcode :: operand

/- The lines of a walk that follows the scratch registers. -/
def listing : Nat → Bus → Registers → List (List Char)
  | 0, _, _ => []
  | n+1, bus, regs =>
      let out := (unasmLine.run regs).run Bus.device bus
      out.result.1 :: listing n out.state out.result.2

section listing
variable (beyond : List Char → BitVec 32)

theorem listingProgram {instrs : List (List Uint8)} (documented : ∀ bytes ∈ instrs, DocumentedBytes bytes) {bus : Bus}
    {regs : Registers} (placed : Placed bus regs.pc instrs.flatten) :
    program beyond (listing instrs.length bus regs) = some instrs.flatten := by
  induction instrs generalizing regs with
  | nil => rfl
  | cons bytes instrs ih =>
    obtain ⟨d,member,operand,width,rfl⟩ := documented _ List.mem_cons_self
    rw [List.flatten_cons] at placed ⊢
    obtain ⟨here,later⟩ := placedAppend placed
    obtain ⟨mode,encoded,fits⟩ := operandRead (documentedKnown d member) width
    have line := textBytes beyond member mode.symm (lineSpells member (operandData operand)) fits
    rw [encoded] at line
    have next : Placed bus (regs.pc + BitVec.ofNat 16 (operand.length+1)) instrs.flatten := later
    have rest : program beyond (listing instrs.length bus {regs with pc := regs.pc + BitVec.ofNat 16 (operand.length+1)}) =
        some instrs.flatten := ih (fun bytes later => documented bytes (List.mem_cons_of_mem _ later)) next
    rw [List.length_cons,listing,linePlaced member width here]
    simp only [program,line,rest,Option.bind_eq_bind,Option.bind_some,Option.pure_def]

theorem listingAssembles (bus : Bus) (regs : Registers) (instrs : List (List Uint8))
    (documented : ∀ bytes ∈ instrs, DocumentedBytes bytes) (placed : Placed bus regs.pc instrs.flatten)
    (fits : regs.pc.toNat + instrs.flatten.length ≤ 0xfffc) :
    program beyond (listing instrs.length bus regs) = some instrs.flatten ∧
    ∃ image, compile beyond regs.pc (listing instrs.length bus regs) = .ok image ∧
      ∀ k (within : k < instrs.flatten.length), image[regs.pc.toNat + k]? = some instrs.flatten[k] := by
  have whole := listingProgram beyond documented placed
  refine ⟨whole,imageOf regs.pc instrs.flatten,compileImage beyond whole regs.pc,fun k within => ?_⟩
  have spec : ImageSpec regs.pc instrs.flatten (imageOf regs.pc instrs.flatten) := imageSpec (by omega)
  have cell := spec.code k within
  rwa [Nat.mod_eq_of_lt (by omega)] at cell

end listing

theorem branchListing :
    let m := Machine.rig [(0x0400,0xa1),(0x0401,0x51),(0x0402,0xd0),(0x0403,0xfc)]
    program (fun _ => 0) (listing 2 m.bus m.cpu.regs) = some [0xa1,0x51,0xd0,0xfc] ∧
    ∃ image, compile (fun _ => 0) 0x0400 (listing 2 m.bus m.cpu.regs) = .ok image ∧
      image[0x0403]? = some 0xfc := by
  intro m
  have load : DocumentedBytes [0xa1,0x51] := ⟨⟨"LDA".toList,.indirectX,0xa1⟩,by decide,[0x51],rfl,rfl⟩
  have loop : DocumentedBytes [0xd0,0xfc] := ⟨⟨"BNE".toList,.relative,0xd0⟩,by decide,[0xfc],rfl,rfl⟩
  have documented : ∀ bytes ∈ [[0xa1,0x51],[0xd0,0xfc]], DocumentedBytes bytes := by
    intro bytes member
    rcases List.mem_pair.mp member with rfl | rfl
    · exact load
    · exact loop
  have cells : ∀ k : Fin 4, m.bus.read (0x0400 + BitVec.ofNat 16 k) = [0xa1,0x51,0xd0,0xfc].get k := by decide
  have placed : Placed m.bus 0x0400 [0xa1,0x51,0xd0,0xfc] := fun k within => cells ⟨k,within⟩
  obtain ⟨whole,image,returned,bytes⟩ :=
    listingAssembles (fun _ => 0) m.bus m.cpu.regs [[0xa1,0x51],[0xd0,0xfc]] documented placed (by decide)
  exact ⟨whole,image,returned,bytes 3 (by decide)⟩

end Emu6502
