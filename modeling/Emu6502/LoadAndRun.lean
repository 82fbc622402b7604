import Emu6502.SourceRoundTrip
import Emu6502.HostSession

/-! From source to execution: the lines are assembled, the image is loaded over a full
Memory and start(false) resets into it. One step() per instruction line fetches that line's
bytes, as long as the program neither jumps nor writes over itself. -/
namespace Emu6502
open Interaction WrappingCursor

/-! The lines that are instructions, and their encodings. -/

def instructionLines (lines : List (List Char)) : List (List Char) := lines.filter fun line => !skipped line

def flowNames : List (List Char) :=
  ["BCC","BCS","BEQ","BMI","BNE","BPL","BVC","BVS","JMP","JSR","RTS","RTI","BRK"].map String.toList

section lines
variable (beyond : List Char → BitVec 32)

def encodings (lines : List (List Char)) : List (List Uint8) := (instructionLines lines).filterMap (lineBytes beyond)

/- No line is a branch, JMP, JSR, RTS, RTI or BRK. -/
def StraightLines (lines : List (List Char)) : Prop :=
  ∀ line ∈ instructionLines lines, ∀ instr val, selectInstr beyond line = some (instr,val) →
    instr.key.name ∉ flowNames

theorem programEncodings {lines : List (List Char)} {bytes : List Uint8} (accepted : program beyond lines = some bytes) :
    (instructionLines lines).map (lineBytes beyond) = (encodings beyond lines).map some ∧
      (encodings beyond lines).flatten = bytes := by
  induction lines generalizing bytes with
  | nil => exact ⟨rfl,Option.some.inj accepted⟩
  | cons line lines ih =>
    simp only [program,Option.bind_eq_bind,Option.bind_eq_some_iff,Option.pure_def,Option.some.injEq] at accepted
    obtain ⟨first,encoded,rest,more,rfl⟩ := accepted
    obtain ⟨each,whole⟩ := ih more
    cases skip : skipped line with
    | true =>
      rw [lineBytes,if_pos skip,Option.some.injEq] at encoded
      subst encoded
      simpa [instructionLines,encodings,skip] using ⟨each,whole⟩
    | false =>
      have kept : instructionLines (line :: lines) = line :: instructionLines lines := by simp [instructionLines,skip]
      rw [encodings,kept,List.filterMap_cons_some encoded,List.map_cons,List.map_cons,List.flatten_cons,encoded,each]
      exact ⟨rfl,congrArg (first ++ ·) whole⟩

theorem compileSize {base : Uint16} {lines : List (List Char)} {image : List Uint8}
    (returned : compile beyond base lines = .ok image) : (65536 : Int) ≤ image.length := by
  rcases acceptedOrRejected beyond lines with ⟨bytes,accepted⟩ | ⟨k,rejected⟩
  · rw [compileImage beyond accepted] at returned
    rw [← Except.ok.inj returned,imageLength]
    decide
  · rw [compileError beyond rejected] at returned
    contradiction

end lines

/-! The three tables agree: what the assembler emits for a mnemonic that does not jump, the
processor executes as an instruction of that length that does not jump. -/

structure StraightCode (code : Uint8) (operand : List Uint8) : Prop where
  width : operand.length = (instruction code).mode.operandLength
  onward : code ∉ jumpOpcodes
  plain : (instruction code).op.template.branches = false

theorem documentedStraight : ∀ d ∈ documentedSet, d.name ∉ flowNames →
    d.opcode ∉ jumpOpcodes ∧ (instruction d.opcode).op.template.branches = false := by
  decide +kernel

theorem operandWidth (addr : AddrT) (val : BitVec 32) : (addr.bytes val).length = addr.length := by
  cases addr <;> rfl

section lines
variable (beyond : List Char → BitVec 32)

theorem lineStraight {line : List Char} {bytes : List Uint8} (live : skipped line = false)
    (straight : ∀ instr val, selectInstr beyond line = some (instr,val) → instr.key.name ∉ flowNames)
    (encoded : lineBytes beyond line = some bytes) :
    ∃ code operand, bytes = code :: operand ∧ StraightCode code operand := by
  rw [lineBytes,live,if_neg Bool.false_ne_true,Option.map_eq_some_iff] at encoded
  obtain ⟨⟨instr,val⟩,chosen,rfl⟩ := encoded
  obtain ⟨d,documented,_,rfl,_⟩ := selectReads beyond chosen
  obtain ⟨onward,plain⟩ := documentedStraight d documented (straight _ _ chosen)
  refine ⟨d.opcode,d.mode.addrT.bytes val,rfl,?_,onward,plain⟩
  rw [operandWidth,← lengthsAgree,documentedLength d documented]

end lines

/-! The fetch. -/

def fetchLog (pc : Uint16) : List Uint8 → List (Access Uint16 Uint8)
  | [] => []
  | v :: bytes => .read pc v :: fetchLog (pc + 1) bytes

/- step() executes the instruction these bytes are, having read them first, each once. -/
structure Machine.Fetches (m : Machine Bus) (bytes : List Uint8) : Prop where
  whole : (m.fetched Bus.device).log = fetchLog m.cpu.regs.pc bytes
  first : (m.fetched Bus.device).log <+: m.accesses Bus.device
  opcode : ∀ code, bytes.head? = some code → m.served Bus.device = .executed code

theorem operandFetched {bus : Bus} {pc : Uint16} {operand : List Uint8} (placed : Placed bus pc operand)
    (short : operand.length ≤ 2) : ((operandBytes operand.length pc).run Bus.device bus).log = fetchLog pc operand := by
  match operand with
  | [] => rfl
  | [v] =>
    have first := (placedCons placed).1
    exact congrArg (fun v => [Access.read pc v]) first
  | [lo,hi] =>
    obtain ⟨first,rest⟩ := placedCons placed
    exact congrArg₂ (fun lo hi => [Access.read pc lo,Access.read (pc + 1) hi]) first (placedCons rest).1
  | _ :: _ :: _ :: _ => simp at short

theorem operandShort (mode : Mode) : mode.operandLength ≤ 2 := by
  cases mode <;> decide

theorem placedFetches {m : Machine Bus} {code : Uint8} {operand : List Uint8} (free : m.cpu.executes = true)
    (placed : Placed m.bus m.cpu.regs.pc (code :: operand))
    (width : operand.length = (instruction code).mode.operandLength) :
    m.Fetches (code :: operand) := by
  obtain ⟨first,rest⟩ := placedCons placed
  have opcode : Bus.device.read m.bus m.cpu.regs.pc = (code,m.bus) := congrArg (·,m.bus) first
  have body := operandFetched rest (width ▸ operandShort _)
  rw [width] at body
  refine ⟨?_,Machine.fetchedPrefix Bus.device free,fun other head => ?_⟩
  · simp only [Machine.fetched,fetchPattern,Program.runRead,Program.runBind,Program.runDone,opcode,Mode.operand,body,
      List.append_nil,fetchLog]
  · obtain rfl := Option.some.inj head
    simp only [Machine.served,Machine.steppedExecute Bus.device free,opcode]

/-! The run. -/

structure Reached (base : Uint16) (code : List Uint8) (offset : Nat) (m : Machine Bus) : Prop where
  quiet : m.cpu.nmiPending = false
  line : m.cpu.irqLine = false
  ram : m.bus.Ram
  placed : Placed m.bus base code
  pc : m.cpu.regs.pc = base + BitVec.ofNat 16 offset

theorem placedWrite {bus : Bus} {base : Uint16} {code : List Uint8} (ram : bus.Ram) (placed : Placed bus base code)
    {address : Uint16} (outside : address ∉ addresses base code.length) (value : Uint8) :
    Placed (bus.write address value) base code := by
  intro k within
  have apart : base + BitVec.ofNat 16 k ≠ address := by
    rintro rfl
    exact outside (List.mem_map.mpr ⟨k,List.mem_range.mpr within,rfl⟩)
  rw [Bus.ramReadWrite ram,if_neg apart]
  exact placed k within

def Unwritten (base : Uint16) (code : List Uint8) (m : Machine Bus) : Prop :=
  ∀ access ∈ m.accesses Bus.device, access.isRead = false → access.address ∉ addresses base code.length

namespace Reached
variable {base : Uint16} {m : Machine Bus}

theorem executes {code : List Uint8} {offset : Nat} (reached : Reached base code offset m) : m.cpu.executes = true := by
  simp [Processor.executes,reached.quiet,reached.line]

theorem kept {code : List Uint8} {offset : Nat} (reached : Reached base code offset m) (unwritten : Unwritten base code m) :
    (m.step Bus.device).bus.Ram ∧ Placed (m.step Bus.device).bus base code := by
  refine Program.runKeeps (d := Bus.device) (I := fun bus => bus.Ram ∧ Placed bus base code) (fun _ _ holds => holds)
    ⟨reached.ram,reached.placed⟩ fun address value made bus holds => ?_
  exact ⟨Bus.ramWrite holds.1 address value,placedWrite holds.1 holds.2 (unwritten _ made rfl) value⟩

theorem step {before after operand : List Uint8} {code : Uint8}
    (reached : Reached base (before ++ (code :: operand ++ after)) before.length m) (straight : StraightCode code operand)
    (unwritten : Unwritten base (before ++ (code :: operand ++ after)) m) :
    m.Fetches (code :: operand) ∧
      Reached base (before ++ (code :: operand ++ after)) (before.length + (code :: operand).length)
        (m.step Bus.device) := by
  have here : Placed m.bus m.cpu.regs.pc (code :: operand) := by
    rw [reached.pc]
    exact (placedAppend (placedAppend reached.placed).2).1
  have opcode : (Bus.device.read m.bus m.cpu.regs.pc).1 = code := (placedCons here).1
  have onward : m.Straight Bus.device :=
    Machine.straightOf Bus.device reached.executes (opcode ▸ straight.onward) (opcode ▸ straight.plain)
  obtain ⟨ram,placed⟩ := reached.kept unwritten
  refine ⟨placedFetches reached.executes here straight.width,?_,?_,ram,placed,?_⟩
  · exact (m.isStepped Bus.device).nmiTaken
  · exact (m.isStepped Bus.device).lineKept.trans reached.line
  · rw [Machine.straightStepPc Bus.device onward,opcode,← straight.width,reached.pc,nextCell,BitVec.add_assoc,
      ← BitVec.ofNat_add]
    rfl

theorem run {instrs : List (List Uint8)} (reached : Reached base instrs.flatten 0 m)
    (straight : ∀ bytes ∈ instrs, ∃ code operand, bytes = code :: operand ∧ StraightCode code operand)
    (unwritten : ∀ i < instrs.length, Unwritten base instrs.flatten (m.after i)) :
    ∀ i ≤ instrs.length, Reached base instrs.flatten (instrs.take i).flatten.length (m.after i) ∧
      ∀ k, k < i → ∀ within : k < instrs.length, (m.after k).Fetches instrs[k] := by
  intro i
  induction i with
  | zero => exact fun _ => ⟨reached,fun k before => absurd before (Nat.not_lt_zero k)⟩
  | succ i ih =>
    intro within
    obtain ⟨here,earlier⟩ := ih (by omega)
    obtain ⟨code,operand,shape,instr⟩ := straight _ (List.getElem_mem within)
    have split : instrs.flatten = (instrs.take i).flatten ++ (code :: operand ++ (instrs.drop (i+1)).flatten) := by
      rw [← shape,← List.flatten_cons,← List.drop_eq_getElem_cons within,← List.flatten_append,List.take_append_drop]
    have avoided := unwritten i within
    rw [split] at here avoided
    obtain ⟨fetches,next⟩ := here.step instr avoided
    rw [List.take_succ_eq_append_getElem within,List.flatten_append,List.flatten_singleton,List.length_append,shape,
      Machine.afterSucc,split]
    refine ⟨next,fun k before inside => ?_⟩
    rcases Nat.lt_succ_iff_lt_or_eq.mp before with less | rfl
    · exact earlier k less inside
    · rw [shape]
      exact fetches

end Reached

/-! Loading and reset. -/

def loadAndStart (mem : Memory) (image : {block : List Uint8 // (65536 : Int) ≤ block.length}) (cpu : Processor) :
    Machine Bus :=
  Machine.start Bus.device ⟨cpu,⟨some (mem.writeBulk (some image) 0)⟩⟩

theorem startReached {mem : Memory} (full : mem.pages = 256) {base : Uint16} {bytes image : List Uint8}
    (spec : ImageSpec base bytes image) (whole : (65536 : Int) ≤ image.length)
    (fits : base.toNat + bytes.length ≤ 0xfffc) (cpu : Processor) : Reached base bytes 0 (loadAndStart mem ⟨image,whole⟩ cpu) where
  quiet := rfl
  line := rfl
  ram := ⟨_,rfl,(mem.bulkPages _ _).trans full⟩
  placed k within := by
    have cell := spec.code k within
    rw [← cellNat,← Memory.bulkWhole full ⟨image,whole⟩] at cell
    exact Option.some.inj cell
  pc := by
    have low := spec.vectorLow fun k within => by omega
    have high := spec.vectorHigh fun k within => by omega
    have first : (mem.writeBulk (some ⟨image,whole⟩) 0).read 0xfffc = lowByte base :=
      Option.some.inj ((Memory.bulkWhole full ⟨image,whole⟩ 0xfffc).trans low)
    have second : (mem.writeBulk (some ⟨image,whole⟩) 0).read 0xfffd = highByte base :=
      Option.some.inj ((Memory.bulkWhole full ⟨image,whole⟩ 0xfffd).trans high)
    have vector : (loadAndStart mem ⟨image,whole⟩ cpu).cpu.regs.pc = word (lowByte base) (highByte base) :=
      congrArg₂ word first second
    rw [vector,wordBytes,firstCell]

section loaded
variable (beyond : List Char → BitVec 32)

/-- Assembler, loader, reset and processor. No interrupt is asserted and no write of the run
lands on an emitted byte; then step() number `i` fetches what line number `i` encodes to. -/
theorem loadedLinesRun {base : Uint16} {lines : List (List Char)} {image : List Uint8}
    (returned : compile beyond base lines = .ok image) (straight : StraightLines beyond lines)
    (fits : base.toNat + (encodings beyond lines).flatten.length ≤ 0xfffc) {mem : Memory} (full : mem.pages = 256)
    (cpu : Processor) :
    let started := loadAndStart mem ⟨image,compileSize beyond returned⟩ cpu
    (∀ i < (instructionLines lines).length, Unwritten base (encodings beyond lines).flatten (started.after i)) →
    (∀ i (within : i < (instructionLines lines).length), ∃ bytes,
      lineBytes beyond (instructionLines lines)[i] = some bytes ∧ (started.after i).Fetches bytes ∧
        (started.after i).cpu.regs.pc = base + BitVec.ofNat 16 ((encodings beyond lines).take i).flatten.length) ∧
    (started.after (instructionLines lines).length).cpu.regs.pc =
      base + BitVec.ofNat 16 (encodings beyond lines).flatten.length := by
  intro started unwritten
  obtain ⟨bytes,accepted⟩ : ∃ bytes, program beyond lines = some bytes := by
    refine (acceptedOrRejected beyond lines).resolve_right ?_
    rintro ⟨k,rejected⟩
    rw [compileError beyond rejected] at returned
    contradiction
  obtain ⟨each,rfl⟩ := programEncodings beyond accepted
  have count : (instructionLines lines).length = (encodings beyond lines).length := by
    simpa using congrArg List.length each
  obtain rfl := Except.ok.inj ((compileImage beyond accepted base).symm.trans returned)
  have reset : Reached base (encodings beyond lines).flatten 0 started :=
    startReached full (imageSpec (by omega)) _ fits cpu
  have instrs : ∀ bytes ∈ encodings beyond lines,
      ∃ code operand, bytes = code :: operand ∧ StraightCode code operand := by
    intro bytes member
    obtain ⟨line,among,encoded⟩ := List.mem_filterMap.mp member
    have live : skipped line = false := by simpa [instructionLines] using (List.mem_filter.mp among).2
    exact lineStraight beyond live (straight line among) encoded
  have reached := reset.run instrs (count ▸ unwritten)
  constructor
  · intro i within
    have inside : i < (encodings beyond lines).length := count ▸ within
    have line := congrArg (·[i]?) each
    simp only [List.getElem?_map,List.getElem?_eq_getElem within,List.getElem?_eq_getElem inside,Option.map_some,
      Option.some.injEq] at line
    exact ⟨_,line,(reached _ (Nat.le_refl _)).2 i inside inside,(reached i (Nat.le_of_lt inside)).1.pc⟩
  · have last := (reached _ (Nat.le_refl _)).1.pc
    rwa [List.take_length,← count] at last

end loaded

/- An instruction that writes to page zero at most, under code that is above it. -/
theorem unwrittenAbove {m : Machine Bus} {base : Uint16} {code : List Uint8} {offset : Nat} (reached : Reached base code offset m)
    {op : Uint8} (here : code[offset]? = some op)
    (low : (m.cpu.instructionBody op).Every fun log _ =>
      ∀ access ∈ log, access.isRead = false → access.address.toNat < 256)
    (above : ∀ address ∈ addresses base code.length, 256 ≤ address.toNat) : Unwritten base code m := by
  obtain ⟨inside,rfl⟩ := List.getElem?_eq_some_iff.mp here
  have opcode : (Bus.device.read m.bus m.cpu.regs.pc).1 = code[offset] :=
    (congrArg m.bus.read reached.pc).trans (reached.placed offset inside)
  intro access made write
  simp only [Machine.accesses,Machine.steppedExecute Bus.device reached.executes,opcode,List.mem_cons] at made
  rcases made with rfl | later
  · contradiction
  · intro member
    exact absurd (Program.everyRun low _ _ access later write) (Nat.not_lt.mpr (above _ member))

/- Whatever the operand byte is, STA on page zero writes there. -/
theorem staWritesBelow (cpu : Processor) : (cpu.instructionBody 0x85).Every fun log _ =>
    ∀ access ∈ log, access.isRead = false → access.address.toNat < 256 := by
  intro v access made write
  rcases made with _ | ⟨_,_ | ⟨_,⟨⟩⟩⟩
  · contradiction
  · have bound := v.isLt
    change (zeroPageAddress v).toNat < 256
    rw [zeroPageAddress,BitVec.toNat_setWidth]
    omega

def storeSource : List (List Char) := ["sta $10".toList,"; below".toList,"sta $11".toList]

theorem storeUnwritten {m : Machine Bus} (reached : Reached 0x0400 [0x85,0x10,0x85,0x11] 0 m) {i : Nat} (within : i < 2) :
    Unwritten 0x0400 [0x85,0x10,0x85,0x11] (m.after i) := by
  have above : ∀ address ∈ addresses (0x0400 : Uint16) 4, 256 ≤ address.toNat := by
    intro address member
    obtain ⟨k,few,rfl⟩ := List.mem_map.mp member
    have small := List.mem_range.mp few
    rw [BitVec.toNat_add,BitVec.toNat_ofNat,show (0x0400 : Uint16).toNat = 1024 from rfl]
    omega
  have load := unwrittenAbove reached rfl (staWritesBelow m.cpu) above
  obtain rfl | rfl : i = 0 ∨ i = 1 := by omega
  · exact load
  · have straight : StraightCode 0x85 [0x10] := ⟨rfl,by decide,rfl⟩
    have next : Reached 0x0400 [0x85,0x10,0x85,0x11] 2 (m.step Bus.device) :=
      (@Reached.step 0x0400 m [] [0x85,0x11] [0x10] 0x85 reached straight load).2
    rw [show m.after 1 = m.step Bus.device from Machine.afterSucc m 0]
    exact unwrittenAbove next rfl (staWritesBelow _) above

theorem storeRuns :
    ∃ image, ∃ returned : compile (fun _ => 0) 0x0400 storeSource = .ok image,
      let started := loadAndStart (Memory.ofPages 256) ⟨image,compileSize _ returned⟩ {regs := Host.resetRegs}
      started.Fetches [0x85,0x10] ∧ (started.after 1).Fetches [0x85,0x11] ∧ (started.after 2).cpu.regs.pc = 0x0404 := by
  have accepted : program (fun _ => 0) storeSource = some [0x85,0x10,0x85,0x11] := rfl
  have two : instructionLines storeSource = ["sta $10".toList,"sta $11".toList] := by decide
  have low : lineBytes (fun _ => 0) "sta $10".toList = some [0x85,0x10] := rfl
  have high : lineBytes (fun _ => 0) "sta $11".toList = some [0x85,0x11] := rfl
  have straight : StraightLines (fun _ => 0) storeSource := by
    intro line member instr val chosen
    have names : ∀ line ∈ ["sta $10".toList,"sta $11".toList],
        (selectInstr (fun _ => 0) line).map (·.1.key.name) = some "STA".toList := by
      rintro line (_ | ⟨_,_ | ⟨_,⟨⟩⟩⟩) <;> rfl
    rw [two] at member
    have name := names line member
    rw [chosen,Option.map_some,Option.some.injEq] at name
    rw [name]
    decide
  have code := (programEncodings _ accepted).2
  have returned := compileImage _ accepted 0x0400
  refine ⟨_,returned,?_⟩
  intro started
  have full : (Memory.ofPages 256).pages = 256 := rfl
  have run := loadedLinesRun (fun _ => 0) returned straight (by rw [code]; decide) full {regs := Host.resetRegs}
  rw [two,code] at run
  obtain ⟨fetches,last⟩ := run fun i within =>
    storeUnwritten (startReached full (imageSpec (by decide)) _ (by decide) _) within
  obtain ⟨bytes,line,first,_⟩ := fetches 0 (by decide)
  obtain rfl := Option.some.inj (low.symm.trans line)
  obtain ⟨bytes,line,second,_⟩ := fetches 1 (by decide)
  obtain rfl := Option.some.inj (high.symm.trans line)
  exact ⟨first,second,last⟩

end Emu6502
