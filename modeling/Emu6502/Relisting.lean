import Emu6502.LoadAndRun

/-! Listings of any memory. A walk may meet opcodes the assembler has no entry for; it may also
meet one whose line is spelled as a documented instruction's. Which of these a line is, the
mnemonic and the mode of its text decide. -/
namespace Emu6502
open Interaction WrappingCursor

/-! What the line of an opcode spells. -/

def LineForm.mode : LineForm → AddressingType
  | bare suffix => if suffix = " A" then .accumulator else .implied
  | params .imm _ => .immediate
  | params .zPg suffix => if suffix = "" then .zeroPage else if suffix = ",Y" then .zeroPageY else .zeroPageX
  | params .abs suffix =>
      if suffix = "" then .absolute else if suffix = ", X" ∨ suffix = ",X" then .absoluteX else .absoluteY
  | params .ind2 _ => .indirect
  | params .indX _ => .indirectX
  | params .indY _ => .indirectY
  | params .rel _ => .relative

def lineMode (code : Uint8) : AddressingType := ((opcodeForm code).map LineForm.mode).getD .unkown

/- Undocumented opcodes whose line is a documented instruction's, and that instruction's opcode. -/
def aliases : List (Uint8 × Uint8) :=
  [(0x1a,0xea),(0x3a,0xea),(0x5a,0xea),(0x7a,0xea),(0xda,0xea),(0xfa,0xea),(0xeb,0xe9)]

/- The opcode the assembler gives for the line of an opcode. -/
def listedAs (code : Uint8) : Option Uint8 :=
  if (documentedSet.map Documented.opcode).contains code then some code else aliases.lookup code

theorem codeForms : ∀ code, (∃ form ∈ (lineMode code).forms, opcodeForm code = some form) ∧
    lineLength code = (lineMode code).addrT.length ∧ instructionName code ≠ [] ∧
      (instructionName code).all (fun c => isLetter c && c.toUpper == c) = true := by
  decide +kernel

def lineInstr (code : Uint8) : Option AsmInstr := findInstr ⟨instructionName code,lineMode code⟩

theorem lineRows : ∀ code, ∀ group ∈ documentedModes, group.1 = lineMode code → ∀ row ∈ group.2,
    row.1 = byNibbles instructionNames code → row.2 = code ∨ (code,row.2) ∈ aliases := by
  decide +kernel

theorem lineOpcode {code : Uint8} {instr : AsmInstr} (found : lineInstr code = some instr) :
    instr.opcode = code ∨ (code,instr.opcode) ∈ aliases := by
  obtain ⟨entry,key⟩ := (findInstrIff _ _).mp found
  obtain ⟨group,known,mode⟩ := List.mem_map.mp (mapperModes instr entry)
  obtain ⟨row,listed,rfl⟩ := mapperRow entry known mode
  exact lineRows code group known (congrArg AsmInstrKey.type key) row listed
    (String.toList_injective (congrArg AsmInstrKey.name key))

theorem aliasPairs : ∀ pair ∈ aliases, aliases.lookup pair.1 = some pair.2 ∧
    (lineInstr pair.1).map AsmInstr.opcode = some pair.2 ∧ opcodeForm pair.2 = opcodeForm pair.1 ∧
      instructionName pair.2 = instructionName pair.1 ∧ instruction pair.2 = instruction pair.1 := by
  simp only [aliases,List.forall_mem_cons,List.not_mem_nil,false_implies,implies_true,and_true]
  decide +kernel

theorem formMode {mode : AddressingType} {form : LineForm} (listed : form ∈ mode.forms) : form.mode = mode := by
  have each : ∀ form ∈ mode.forms, form.mode = mode := by cases mode <;> decide
  exact each form listed

theorem lookupPair {code c : Uint8} (found : aliases.lookup code = some c) : (code,c) ∈ aliases := by
  have each : ∀ code, (aliases.lookup code).all (fun c => (code,c) ∈ aliases) = true := by decide
  have member := each code
  rw [found] at member
  simpa using member

theorem documentedLine {d : Documented} (documented : d ∈ documentedSet) : lineInstr d.opcode = some d.instr := by
  obtain ⟨name,⟨form,listed,decodes⟩,_⟩ := documentedForms d documented
  have mode : lineMode d.opcode = d.mode := by
    rw [lineMode,decodes]
    exact formMode listed
  rw [lineInstr,name,mode]
  exact (findDocumented _ _).mpr ⟨d,documented,rfl,rfl⟩

theorem lineListed (code : Uint8) : (lineInstr code).map AsmInstr.opcode = listedAs code := by
  unfold listedAs
  split
  · rename_i member
    obtain ⟨d,documented,rfl⟩ := List.mem_map.mp (List.contains_iff_mem.mp member)
    rw [documentedLine documented]
    rfl
  · rename_i undocumented
    cases other : aliases.lookup code with
    | some c => exact (aliasPairs _ (lookupPair other)).2.1
    | none =>
      rw [Option.map_eq_none_iff]
      by_contra some
      obtain ⟨instr,found⟩ := Option.ne_none_iff_exists'.mp some
      rcases lineOpcode found with same | pair
      · obtain ⟨d,documented,_,rfl⟩ := (findDocumented _ _).mp found
        exact undocumented (List.contains_iff_mem.mpr (List.mem_map.mpr ⟨d,documented,same⟩))
      · rw [(aliasPairs _ pair).1] at other
        contradiction

/- An opcode and the one its line gives are one instruction, and are listed alike. -/
theorem listedSame {code c : Uint8} (listed : listedAs code = some c) :
    opcodeForm c = opcodeForm code ∧ instructionName c = instructionName code ∧ instruction c = instruction code := by
  unfold listedAs at listed
  split at listed
  · cases listed
    exact ⟨rfl,rfl,rfl⟩
  · exact (aliasPairs _ (lookupPair listed)).2.2

/-! Instructions as a walk meets them. -/

structure ListedInstr where
  code : Uint8
  operand : List Uint8
  width : operand.length = lineLength code

namespace ListedInstr

def bytes (i : ListedInstr) : List Uint8 := i.code :: i.operand

def text (i : ListedInstr) : List Char := lineText i.code (operandData i.operand)

def Listed (i : ListedInstr) : Prop := listedAs i.code ≠ none

def canonicalCode (code : Uint8) : Uint8 := (listedAs code).getD code

theorem canonicalSame (code : Uint8) : opcodeForm (canonicalCode code) = opcodeForm code ∧
    instructionName (canonicalCode code) = instructionName code ∧ instruction (canonicalCode code) = instruction code := by
  unfold canonicalCode
  cases listed : listedAs code with
  | none => exact ⟨rfl,rfl,rfl⟩
  | some c => exact listedSame listed

theorem canonicalAlias (code : Uint8) : canonicalCode code = code ∨ (code,canonicalCode code) ∈ aliases := by
  unfold canonicalCode
  cases listed : listedAs code with
  | none => exact Or.inl rfl
  | some c =>
    unfold listedAs at listed
    split at listed
    · exact Or.inl (Option.some.inj listed).symm
    · exact Or.inr (lookupPair listed)

theorem lengthOfForm {code code' : Uint8} (same : opcodeForm code' = opcodeForm code) : lineLength code' = lineLength code := by
  rw [lineLength,lineLength,same]

def canonical (i : ListedInstr) : ListedInstr where
  code := canonicalCode i.code
  operand := i.operand
  width := i.width.trans (lengthOfForm (canonicalSame i.code).1).symm

theorem canonicalPlain {i : ListedInstr} (plain : listedAs i.code = some i.code) : i.canonical = i := by
  obtain ⟨code,operand,width⟩ := i
  simp only [canonical,canonicalCode,plain,Option.getD_some]

theorem canonicalText (i : ListedInstr) : i.canonical.text = i.text := by
  obtain ⟨form,name,_⟩ := canonicalSame i.code
  simp only [text,canonical,lineText,form,name]

theorem short (i : ListedInstr) : i.operand.length ≤ 2 := by
  rw [i.width,(codeForms i.code).2.1]
  cases (lineMode i.code).addrT <;> decide

def read (bus : Bus) (pc : Uint16) : ListedInstr where
  code := bus.read pc
  operand := (List.range (lineLength (bus.read pc))).map fun k => bus.read (pc + 1 + BitVec.ofNat 16 k)
  width := by rw [List.length_map,List.length_range]

theorem readPlaced (bus : Bus) (pc : Uint16) : Placed bus pc (read bus pc).bytes := by
  intro k within
  cases k with
  | zero => rw [firstCell]; rfl
  | succ k =>
    rw [← nextCell]
    simp [bytes,read]

theorem placedRead {bus : Bus} {pc : Uint16} (i : ListedInstr) (placed : Placed bus pc i.bytes) : read bus pc = i := by
  obtain ⟨code,operand,width⟩ := i
  obtain ⟨first,rest⟩ := placedCons placed
  subst first
  have cells : (List.range (lineLength (bus.read pc))).map (fun k => bus.read (pc + 1 + BitVec.ofNat 16 k)) = operand := by
    refine List.ext_getElem (by simp [width]) fun k _ within => ?_
    rw [List.getElem_map,List.getElem_range]
    exact rest k within
  simp only [read,cells]

end ListedInstr

/- The instructions n lines of a walk go over. -/
def decoded (bus : Bus) : Nat → Uint16 → List ListedInstr
  | 0, _ => []
  | n+1, pc => ListedInstr.read bus pc :: decoded bus n (pc + BitVec.ofNat 16 (ListedInstr.read bus pc).bytes.length)

def codeBytes (instrs : List ListedInstr) : List Uint8 := instrs.flatMap ListedInstr.bytes

theorem placedBoth {bus : Bus} {start : Uint16} {first last : List Uint8} (one : Placed bus start first)
    (other : Placed bus (start + BitVec.ofNat 16 first.length) last) : Placed bus start (first ++ last) := by
  intro k within
  rw [List.getElem_append]
  split
  · rename_i before
    exact one k before
  · rename_i after
    have cell := other (k - first.length) (by rw [List.length_append] at within; omega)
    rwa [BitVec.add_assoc,← BitVec.ofNat_add,Nat.add_sub_cancel' (Nat.le_of_not_lt after)] at cell

theorem decodedPlaced (bus : Bus) (n : Nat) (pc : Uint16) : Placed bus pc (codeBytes (decoded bus n pc)) := by
  induction n generalizing pc with
  | zero => exact fun k within => absurd within (Nat.not_lt_zero k)
  | succ n ih =>
    rw [decoded,codeBytes,List.flatMap_cons]
    exact placedBoth (ListedInstr.readPlaced bus pc) (ih _)

theorem decodedLength (bus : Bus) (n : Nat) (pc : Uint16) : (decoded bus n pc).length = n := by
  induction n generalizing pc with
  | zero => rfl
  | succ n ih => rw [decoded,List.length_cons,ih]

theorem placedDecoded {bus : Bus} {instrs : List ListedInstr} {pc : Uint16} (placed : Placed bus pc (codeBytes instrs)) :
    decoded bus instrs.length pc = instrs := by
  induction instrs generalizing pc with
  | nil => rfl
  | cons i instrs ih =>
    rw [codeBytes,List.flatMap_cons] at placed
    obtain ⟨here,later⟩ := placedAppend placed
    rw [List.length_cons,decoded,ListedInstr.placedRead i here,ih later]

/- A listing spells the instructions of its walk. -/
theorem lineDecoded (bus : Bus) (regs : Registers) :
    (unasmLine.run regs).run Bus.device bus =
      {result := ((ListedInstr.read bus regs.pc).text,
         {regs with pc := regs.pc + BitVec.ofNat 16 (ListedInstr.read bus regs.pc).bytes.length})
       state := bus
       log := ((unasmLine.run regs).run Bus.device bus).log} := by
  have placed := ListedInstr.readPlaced bus regs.pc
  generalize ListedInstr.read bus regs.pc = i at placed ⊢
  obtain ⟨first,rest⟩ := placedCons placed
  obtain ⟨data,same⟩ := operandPlaced rest i.short
  have opcode : Bus.device.read bus regs.pc = (i.code,bus) := congrArg (·,bus) first
  have next : regs.pc + 1 + BitVec.ofNat 16 i.operand.length = regs.pc + BitVec.ofNat 16 i.bytes.length := nextCell _ _
  simp only [unasmPattern,Program.runRead,Program.runBind,Program.runDone,opcode,← i.width,data,same,next,ListedInstr.text]

theorem listingDecoded (n : Nat) (bus : Bus) (regs : Registers) :
    listing n bus regs = (decoded bus n regs.pc).map ListedInstr.text := by
  induction n generalizing regs with
  | zero => rfl
  | succ n ih => rw [listing,lineDecoded,decoded,List.map_cons,ih]

/-! What becomes of the line of any opcode, and of a list of them. -/

theorem capitalsSpell {name text : List Char} {o : Operand} (named : name ≠ [])
    (capitals : name.all (fun c => isLetter c && c.toUpper == c) = true)
    (spelled : text = [] ∧ o = .implied ∨ ∃ words, text = ' ' :: words ∧ OperandText o words) :
    LineText (name ++ text) name o := by
  have each : ∀ c ∈ name, isLetter c = true ∧ c.toUpper = c := by simpa using capitals
  have letters : ∀ c ∈ name, isLetter c = true := fun c member => (each c member).1
  have upper : uppercopy name = name :=
    (List.map_congr_left fun c member => (each c member).2).trans (List.map_id _)
  rcases spelled with ⟨rfl,rfl⟩ | ⟨words,rfl,operand⟩
  · have line := LineText.bare spacesNil named letters
    rwa [upper,← List.append_nil ([] ++ name)] at line
  · have blank : Spaces [' '] := by simp [Spaces,isspace]
    have line := LineText.full spacesNil named letters (List.cons_ne_nil _ _) blank operand spacesNil (Or.inl rfl)
    rw [upper] at line
    simpa using line

theorem anySpells (i : ListedInstr) :
    LineText i.text (instructionName i.code) ((lineMode i.code).operand (operandData i.operand)) := by
  obtain ⟨⟨form,listed,decodes⟩,_,named,checked⟩ := codeForms i.code
  rw [ListedInstr.text,lineTextForm decodes]
  exact capitalsSpell named checked (formSpells listed _)

section lines
variable (beyond : List Char → BitVec 32)

theorem textDecides {line name : List Char} {o : Operand} (text : LineText line name o) (fits : o.Fits) :
    lineBytes beyond line = (findInstr ⟨name,o.mode⟩).map fun instr => instr.opcode :: o.bytes := by
  obtain ⟨m,found,upper,read⟩ := lineComplete text
  rw [lineBytes,textLive text,if_neg Bool.false_ne_true,selectMatch beyond found,upper,operandMode read]
  cases entry : findInstr ⟨name,o.mode⟩ with
  | none => rfl
  | some instr =>
    obtain ⟨d,_,key,rfl⟩ := (findDocumented _ _).mp entry
    have mode : d.mode = o.mode := congrArg AsmInstrKey.type key
    have bytes := parsedBytes beyond (matchSplits found).1 read fits
    rw [← mode] at bytes
    exact congrArg (fun bytes => some (d.opcode :: bytes)) bytes

theorem lineRelisted (i : ListedInstr) : lineBytes beyond i.text = (listedAs i.code).map (· :: i.operand) := by
  obtain ⟨⟨form,listed,_⟩,length,_⟩ := codeForms i.code
  have known : lineMode i.code ≠ .unkown := fun unknown => by rw [unknown] at listed; contradiction
  obtain ⟨mode,bytes,fits⟩ := operandRead known (i.width.trans length)
  rw [textDecides beyond (anySpells i) fits,mode,bytes,← lineListed,Option.map_map]
  rfl

theorem listedBytes {i : ListedInstr} (listed : i.Listed) : lineBytes beyond i.text = some i.canonical.bytes := by
  obtain ⟨c,code⟩ := Option.ne_none_iff_exists'.mp listed
  simp only [lineRelisted,ListedInstr.bytes,ListedInstr.canonical,ListedInstr.canonicalCode,code,Option.map_some,
    Option.getD_some]

theorem listedProgram {instrs : List ListedInstr} (listed : ∀ i ∈ instrs, i.Listed) :
    program beyond (instrs.map ListedInstr.text) = some (codeBytes (instrs.map ListedInstr.canonical)) := by
  induction instrs with
  | nil => rfl
  | cons i instrs ih =>
    have first := listedBytes beyond (listed i List.mem_cons_self)
    have rest := ih fun j member => listed j (List.mem_cons_of_mem i member)
    simp only [List.map_cons,program,first,rest,Option.bind_eq_bind,Option.bind_some,Option.pure_def,codeBytes,List.flatMap_cons]

/- Instruction number k is the first whose line is no documented instruction's. -/
def FirstUnlisted (instrs : List ListedInstr) (k : Nat) : Prop :=
  ∃ before i after, instrs = before ++ i :: after ∧ before.length = k ∧ (∀ j ∈ before, j.Listed) ∧ ¬ i.Listed

theorem unlistedRejected {instrs : List ListedInstr} {k : Nat} (first : FirstUnlisted instrs k) :
    FirstRejected beyond (instrs.map ListedInstr.text) k := by
  obtain ⟨before,i,after,rfl,rfl,listed,unlisted⟩ := first
  refine ⟨before.map ListedInstr.text,i.text,after.map ListedInstr.text,List.map_append,List.length_map _,?_,?_⟩
  · intro line member
    obtain ⟨j,inside,rfl⟩ := List.mem_map.mp member
    rw [listedBytes beyond (listed j inside)]
    exact Option.some_ne_none _
  · rw [lineRelisted,not_not.mp unlisted]
    rfl

theorem listedOrNot (instrs : List ListedInstr) : (∀ i ∈ instrs, i.Listed) ∨ ∃ k, FirstUnlisted instrs k := by
  induction instrs with
  | nil => exact Or.inl fun i member => absurd member List.not_mem_nil
  | cons i instrs ih =>
    by_cases listed : i.Listed
    · rcases ih with all | ⟨k,before,j,after,rfl,rfl,earlier,unlisted⟩
      · exact Or.inl (List.forall_mem_cons.mpr ⟨listed,all⟩)
      · exact Or.inr ⟨_,i :: before,j,after,rfl,rfl,List.forall_mem_cons.mpr ⟨listed,earlier⟩,unlisted⟩
    · exact Or.inr ⟨0,[],i,instrs,rfl,rfl,fun j member => absurd member List.not_mem_nil,listed⟩

theorem firstNotAll {instrs : List ListedInstr} {k : Nat} (first : FirstUnlisted instrs k) : ¬ ∀ i ∈ instrs, i.Listed := by
  obtain ⟨before,i,after,rfl,_,_,unlisted⟩ := first
  exact fun all => unlisted (all i (by simp))

/-! The image, loaded over a full Memory. -/

def loadedBus (mem : Memory) (image : {block : List Uint8 // (65536 : Int) ≤ block.length}) : Bus :=
  ⟨some (mem.writeBulk (some image) 0)⟩

theorem loadedPlaced {mem : Memory} (full : mem.pages = 256) {base : Uint16} {bytes image : List Uint8}
    (spec : ImageSpec base bytes image) (whole : (65536 : Int) ≤ image.length) :
    Placed (loadedBus mem ⟨image,whole⟩) base bytes := by
  intro k within
  have cell := spec.code k within
  rw [← cellNat,← Memory.bulkWhole full ⟨image,whole⟩] at cell
  exact Option.some.inj cell

theorem loadedListing {mem : Memory} (full : mem.pages = 256) {base : Uint16} {instrs : List ListedInstr} {image : List Uint8}
    (spec : ImageSpec base (codeBytes instrs) image) (whole : (65536 : Int) ≤ image.length) {regs : Registers}
    (start : regs.pc = base) :
    listing instrs.length (loadedBus mem ⟨image,whole⟩) regs = instrs.map ListedInstr.text := by
  subst start
  rw [listingDecoded,placedDecoded (loadedPlaced full spec whole)]

/- A listing of any memory assembles exactly when every line is a documented instruction's; what
it gives then is the code walked over, each opcode replaced by the documented one that is
the same instruction, and this lists as the same text. -/
theorem listingReassembles (base : Uint16) (bus : Bus) (regs : Registers) (n : Nat) :
    let instrs := decoded bus n regs.pc
    let code := codeBytes (instrs.map ListedInstr.canonical)
    Placed bus regs.pc (codeBytes instrs) ∧
    (∀ e, compile beyond base (listing n bus regs) = .error e ↔
      ∃ k, FirstUnlisted instrs k ∧ e = ⟨BitVec.ofNat 32 (k+1)⟩) ∧
    (∀ image, compile beyond base (listing n bus regs) = .ok image ↔
      (∀ i ∈ instrs, i.Listed) ∧ image = imageOf base code) ∧
    (∀ i : ListedInstr, instruction i.canonical.code = instruction i.code ∧ i.canonical.operand = i.operand ∧
      (i.canonical.code = i.code ∨ (i.code,i.canonical.code) ∈ aliases)) ∧
    ∀ image (returned : compile beyond base (listing n bus regs) = .ok image), code.length ≤ 65536 →
      ∀ mem : Memory, mem.pages = 256 → ∀ start : Registers, start.pc = base →
        listing n (loadedBus mem ⟨image,compileSize beyond returned⟩) start = listing n bus regs := by
  intro instrs code
  have lines : listing n bus regs = instrs.map ListedInstr.text := listingDecoded n bus regs
  have count : (instrs.map ListedInstr.canonical).length = n := (List.length_map _).trans (decodedLength bus n regs.pc)
  have assembled (image : List Uint8) : compile beyond base (listing n bus regs) = .ok image ↔
      (∀ i ∈ instrs, i.Listed) ∧ image = imageOf base code := by
    rw [lines]
    rcases listedOrNot instrs with all | ⟨k,first⟩
    · rw [compileImage beyond (listedProgram beyond all)]
      exact ⟨fun same => ⟨all,(Except.ok.inj same).symm⟩,fun ⟨_,same⟩ => congrArg Except.ok same.symm⟩
    · rw [compileError beyond (unlistedRejected beyond first)]
      exact ⟨fun returned => by contradiction,fun ⟨all,_⟩ => absurd all (firstNotAll first)⟩
  refine ⟨decodedPlaced bus n regs.pc,fun e => ?_,assembled,fun i => ?_,
    fun image returned fits mem full start atBase => ?_⟩
  · rw [lines]
    rcases listedOrNot instrs with all | ⟨k,first⟩
    · rw [compileImage beyond (listedProgram beyond all)]
      exact ⟨fun thrown => by contradiction,fun ⟨k,first,_⟩ => absurd all (firstNotAll first)⟩
    · have thrown := compileError beyond (unlistedRejected beyond first) base
      rw [thrown]
      refine ⟨fun same => ⟨k,first,(Except.error.inj same).symm⟩,fun ⟨j,other,number⟩ => ?_⟩
      rw [number,rejectedUnique beyond (unlistedRejected beyond first) (unlistedRejected beyond other)]
  · exact ⟨(ListedInstr.canonicalSame i.code).2.2,rfl,ListedInstr.canonicalAlias i.code⟩
  · have spec : ImageSpec base code image := by
      rw [((assembled image).mp returned).2]
      exact imageSpec fits
    have same := loadedListing full spec (compileSize beyond returned) atBase
    rw [count] at same
    rw [same,lines,List.map_map]
    exact List.map_congr_left fun i _ => i.canonicalText

/-! A listing of an assembled program. -/

theorem documentedAs {code : Uint8} (documented : code ∈ documentedSet.map Documented.opcode) : listedAs code = some code := by
  rw [listedAs,if_pos (List.contains_iff_mem.mpr documented)]

theorem encodedInstr {line : List Char} {bytes : List Uint8} (live : skipped line = false) (encoded : lineBytes beyond line = some bytes) :
    ∃ i : ListedInstr, i.bytes = bytes ∧ i.code ∈ documentedSet.map Documented.opcode := by
  rw [lineBytes,live,if_neg Bool.false_ne_true,Option.map_eq_some_iff] at encoded
  obtain ⟨⟨instr,val⟩,chosen,rfl⟩ := encoded
  obtain ⟨d,documented,_,rfl,_⟩ := selectReads beyond chosen
  have width : (d.mode.addrT.bytes val).length = lineLength d.opcode :=
    (operandWidth _ _).trans (documentedLength d documented).symm
  exact ⟨⟨d.opcode,d.mode.addrT.bytes val,width⟩,rfl,List.mem_map_of_mem documented⟩

theorem encodedInstrs {lines : List (List Char)} (live : ∀ line ∈ lines, skipped line = false) {codes : List (List Uint8)}
    (each : lines.map (lineBytes beyond) = codes.map some) :
    ∃ instrs : List ListedInstr, instrs.map ListedInstr.bytes = codes ∧
      ∀ i ∈ instrs, i.code ∈ documentedSet.map Documented.opcode := by
  induction lines generalizing codes with
  | nil => exact ⟨[],(List.map_eq_nil_iff.mp each.symm).symm,fun i member => absurd member List.not_mem_nil⟩
  | cons line lines ih =>
    cases codes with
    | nil => contradiction
    | cons bytes codes =>
      obtain ⟨first,rest⟩ := List.cons.inj each
      obtain ⟨i,rfl,documented⟩ := encodedInstr beyond (live line List.mem_cons_self) first
      obtain ⟨instrs,rfl,others⟩ := ih (fun l member => live l (List.mem_cons_of_mem line member)) rest
      exact ⟨i :: instrs,rfl,List.forall_mem_cons.mpr ⟨documented,others⟩⟩

/- Whatever the source was spelled like, the listing of its image assembles to that image, and
its lines mean what the source's do. -/
theorem sourceNormalForm (base : Uint16) (lines : List (List Char)) (image : List Uint8)
    (returned : compile beyond base lines = .ok image) (fits : (encodings beyond lines).flatten.length ≤ 65536)
    (mem : Memory) (full : mem.pages = 256) (regs : Registers) (start : regs.pc = base) :
    let n := (instructionLines lines).length
    let relisted := listing n (loadedBus mem ⟨image,compileSize beyond returned⟩) regs
    compile beyond base relisted = .ok image ∧ relisted.length = n ∧
    ∀ k (source : k < n) (target : k < relisted.length), ∀ d ∈ documentedSet, ∀ o, d.mode = o.mode → o.Near →
      LineText (instructionLines lines)[k] d.name o → LineText relisted[k] d.name o := by
  intro n relisted
  obtain ⟨bytes,accepted⟩ : ∃ bytes, program beyond lines = some bytes := by
    refine (acceptedOrRejected beyond lines).resolve_right fun ⟨k,rejected⟩ => ?_
    rw [compileError beyond rejected] at returned
    contradiction
  obtain ⟨each,rfl⟩ := programEncodings beyond accepted
  have live : ∀ line ∈ instructionLines lines, skipped line = false := fun line among => by
    simpa [instructionLines] using (List.mem_filter.mp among).2
  obtain ⟨instrs,codes,documented⟩ := encodedInstrs beyond live each
  have count : instrs.length = n := by
    have lengths := congrArg List.length each
    rwa [List.length_map,List.length_map,← codes,List.length_map,eq_comm] at lengths
  have whole : codeBytes instrs = (encodings beyond lines).flatten := by
    rw [← codes]
    rfl
  have same : compile beyond base lines = .ok (imageOf base (codeBytes instrs)) := by
    rw [whole]
    exact compileImage beyond accepted base
  have spec : ImageSpec base (codeBytes instrs) image := by
    rw [← Except.ok.inj (same.symm.trans returned)]
    exact imageSpec (whole ▸ fits)
  have texts : relisted = instrs.map ListedInstr.text := by
    have loaded := loadedListing full spec (compileSize beyond returned) start
    rwa [count] at loaded
  have plain : instrs.map ListedInstr.canonical = instrs := by
    refine (List.map_congr_left fun i member => ?_).trans (List.map_id instrs)
    exact ListedInstr.canonicalPlain (documentedAs (documented i member))
  refine ⟨?_,by rw [texts,List.length_map,count],fun k source target d known o mode near text => ?_⟩
  · have listed : ∀ i ∈ instrs, i.Listed := fun i member => by
      rw [ListedInstr.Listed,documentedAs (documented i member)]
      exact Option.some_ne_none _
    rw [texts,compileImage beyond (listedProgram beyond listed),plain,← same,returned]
  · have inside : k < instrs.length := by rwa [count]
    have encoded := textBytes beyond known mode text (nearFits near)
    have row := congrArg (·[k]?) each
    simp only [← codes,List.getElem?_map,List.getElem?_eq_getElem source,List.getElem?_eq_getElem inside,Option.map_some,
      Option.some.injEq] at row
    obtain ⟨code,operand⟩ := List.cons.inj (Option.some.inj (encoded.symm.trans row))
    have spelled := lineSpells known (operandData o.bytes)
    rw [mode,(operandBack near).2,code,operand] at spelled
    have row : relisted[k] = instrs[k].text := by simp only [texts,List.getElem_map]
    rw [row]
    exact spelled

end lines

theorem storeRelisted :
    ∃ image, ∃ returned :
        compile (fun _ => 0) 0x0400 ["; below".toList," Sta $0A ; here".toList,"bne -4".toList] = .ok image,
      let bus := loadedBus (Memory.ofPages 256) ⟨image,compileSize _ returned⟩
      compile (fun _ => 0) 0x0400 (listing 2 bus {Host.resetRegs with pc := 0x0400}) = .ok image := by
  have accepted : program (fun _ => 0) ["; below".toList," Sta $0A ; here".toList,"bne -4".toList] =
      some [0x85,0x0a,0xd0,0xfc] := rfl
  have two : (instructionLines ["; below".toList," Sta $0A ; here".toList,"bne -4".toList]).length = 2 := by decide
  have code := (programEncodings _ accepted).2
  have returned := compileImage _ accepted 0x0400
  have again := (sourceNormalForm (fun _ => 0) 0x0400 _ _ returned (by rw [code]; decide) (Memory.ofPages 256) rfl
    {Host.resetRegs with pc := 0x0400} rfl).1
  rw [two] at again
  exact ⟨_,returned,again⟩

end Emu6502
