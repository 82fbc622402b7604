import Emu6502.Session
import Emu6502.RegisterFrame
import Emu6502.Disassembler

/-! The disassembler and the processor agree on where an instruction ends, though they
decode it by unrelated means: a line reads what step() fetches, and off a jump the two
leave the same pc. -/
namespace Emu6502
open Interaction

/- The instruction bytes as step() fetches them: the opcode, then what init() of its mode reads. -/
def instructionFetch : Exec Uint8 := do
  let code ← fetch
  let _ ← (instruction code).mode.init {}
  pure code

theorem initPattern (mode : Mode) (regs : Registers) :
    ∃ params : Uint16 → Params, (mode.init {}).run regs =
      mode.operand regs.pc >>= fun data => .done (params data,regs.advance mode) := by
  cases mode
  case null | accumulator =>
    exact ⟨fun _ => {},by simp [Mode.init,Mode.operand,Mode.operandLength,Registers.advance]⟩
  case absConst | absolute | absoluteX | absoluteY | indirect =>
    exact ⟨fun data => {data16 := data},by simp [Mode.init,Mode.operand,Mode.operandLength,Registers.advance]⟩
  all_goals
    exact ⟨fun data => {data := lowByte data},
      by simp [Mode.init,Mode.operand,Mode.operandLength,Registers.advance]⟩

theorem fetchPattern (regs : Registers) :
    instructionFetch.run regs = .read regs.pc fun code =>
      (instruction code).mode.operand (regs.pc + 1) >>= fun _ =>
        .done (code,{regs with pc := regs.pc + 1}.advance (instruction code).mode) := by
  simp only [instructionFetch,fetch,execRunBind,execRunGet,execRunModify,busReadRun,Program.doneBind,
    Program.readBind]
  refine congrArg (Program.read _) (funext fun code => ?_)
  obtain ⟨params,pattern⟩ := initPattern (instruction code).mode {regs with pc := regs.pc + 1}
  rw [pattern,Program.bindAssoc]
  rfl

theorem lengthsAgree : ∀ code, lineLength code = (instruction code).mode.operandLength := by decide

def ReadsFrom (pc : Uint16) (log : List (Access Uint16 Uint8)) : Prop :=
  log.map Access.address = ((List.range log.length).map fun k => pc + BitVec.ofNat 16 k) ∧
    ∀ access ∈ log, access.isRead = true

theorem readsNil (pc : Uint16) : ReadsFrom pc [] := ⟨rfl,by simp⟩

theorem readsCons {pc : Uint16} {log : List (Access Uint16 Uint8)} (v : Uint8) (rest : ReadsFrom (pc + 1) log) :
    ReadsFrom pc (.read pc v :: log) := by
  obtain ⟨addresses,reads⟩ := rest
  refine ⟨?_,by simpa [Access.isRead] using reads⟩
  have shift : ∀ k, pc + 1 + BitVec.ofNat 16 k = pc + BitVec.ofNat 16 (k+1) := by
    intro k
    rw [BitVec.add_assoc,Nat.add_comm k,BitVec.ofNat_add]
    rfl
  simp only [List.map_cons,Access.address,List.length_cons,List.range_succ_eq_map,addresses,List.map_map]
  rw [show pc + BitVec.ofNat 16 0 = pc from BitVec.add_zero pc]
  exact congrArg (List.cons pc) (List.map_congr_left fun k _ => shift k)

theorem operandReads (length : Nat) (pc : Uint16) : (operandBytes length pc).Every fun log _ => ReadsFrom pc log := by
  match length with
  | 0 => exact readsNil pc
  | 1 => exact fun v => readsCons v (readsNil _)
  | _+2 => exact fun lo hi => readsCons lo (readsCons hi (readsNil _))

theorem lineReads (regs : Registers) : (unasmLine.run regs).Every fun log _ => ReadsFrom regs.pc log := by
  rw [unasmPattern]
  intro code
  rw [Program.everyBind]
  refine Program.everyMono (operandReads _ _) fun log data reads => ?_
  simpa using readsCons code reads

def jumpOpcodes : List Uint8 :=
  [0x00,0x20,0x40,0x60,0x4c,0x6c,0x02,0x12,0x22,0x32,0x42,0x52,0x62,0x72,0x92,0xb2,0xd2,0xf2]

theorem straightOpcodes : ∀ code, code ∉ jumpOpcodes → (instruction code).op ≠ .kil ∧
    (instruction code).op.template.jumps = (instruction code).op.template.branches := by
  decide

theorem branchesIsBranch {t : Template} (branches : t.branches = true) : ∃ flag set, t = .branch flag set := by
  cases t with
  | branch flag set => exact ⟨flag,set,rfl⟩
  | _ => contradiction

theorem straightPc (cpu : Processor) {code : Uint8} (straight : code ∉ jumpOpcodes)
    (untaken : ∀ flag set, (instruction code).op.template = .branch flag set → cpu.regs.getStatus flag ≠ set) :
    (cpu.instructionBody code).Every fun _ out =>
      out.2.pc = cpu.regs.pc + 1 + BitVec.ofNat 16 (instruction code).mode.operandLength := by
  obtain ⟨moves,branching⟩ := straightOpcodes code straight
  simp only [Processor.instructionBody,Program.everyBind]
  refine Program.everyOf fun _ data => ?_
  cases jumping : (instruction code).op.template.jumps with
  | false =>
    refine Program.everyMono (Template.actionStraight (fun _ => ⟨rfl,rfl⟩)
      (fun first second => ⟨second.pc.trans first.pc,second.decimal.trans first.decimal⟩) jumping
      (opAside _ moves) _ _ _ data) fun _ out aside => ?_
    exact aside.pc
  | true =>
    obtain ⟨flag,set,isBranch⟩ := branchesIsBranch (branching ▸ jumping)
    have stays := untaken flag set isBranch
    rw [isBranch]
    simp only [Template.action,Program.everyDone,branchOutcome]
    rw [if_pos (by simpa [Registers.advance,Registers.getStatus] using stays)]
    rfl

namespace Machine
variable {σ : Type} (d : Device Uint16 Uint8 σ)

def line (m : Machine σ) : Outcome Uint16 Uint8 σ (List Char × Registers) :=
  (unasmLine.run m.cpu.regs).run d m.bus

def fetched (m : Machine σ) : Outcome Uint16 Uint8 σ (Uint8 × Registers) :=
  (instructionFetch.run m.cpu.regs).run d m.bus

structure Straight (m : Machine σ) : Prop where
  free : m.cpu.executes = true
  opcode : (d.read m.bus m.cpu.regs.pc).1 ∉ jumpOpcodes
  untaken : ∀ flag set, (instruction (d.read m.bus m.cpu.regs.pc).1).op.template = .branch flag set →
    m.cpu.regs.getStatus flag ≠ set

theorem straightOf {m : Machine σ} (free : m.cpu.executes = true)
    (opcode : (d.read m.bus m.cpu.regs.pc).1 ∉ jumpOpcodes)
    (plain : (instruction (d.read m.bus m.cpu.regs.pc).1).op.template.branches = false) : m.Straight d where
  free := free
  opcode := opcode
  untaken flag set isBranch := by
    rw [isBranch] at plain
    contradiction

/-- A line reads what step() fetches ahead of everything else, once each and in order; it
writes nothing and changes no register but pc, which is where step() leaves it. -/
structure InSync (m : Machine σ) : Prop where
  reads : (m.line d).log = (m.fetched d).log
  bus : (m.line d).state = (m.fetched d).state
  first : (m.fetched d).log <+: m.accesses d
  consecutive : ReadsFrom m.cpu.regs.pc (m.line d).log
  regs : (m.line d).result.2 = {m.cpu.regs with pc := (m.step d).cpu.regs.pc}

theorem lineFetches (m : Machine σ) :
    (m.line d).log = (m.fetched d).log ∧ (m.line d).state = (m.fetched d).state ∧
      (m.line d).result.2 = (m.fetched d).result.2 := by
  simp only [line,fetched,unasmPattern,fetchPattern,Mode.operand,lengthsAgree,Program.runRead,Program.runBind,
    Program.runDone]
  exact ⟨trivial,trivial,rfl⟩

theorem fetchedPrefix {m : Machine σ} (free : m.cpu.executes = true) : (m.fetched d).log <+: m.accesses d := by
  simp only [accesses,steppedExecute d free,fetched,fetchPattern,Processor.instructionBody,Program.runRead,
    Program.runBind,Program.runDone,List.append_nil]
  exact List.cons_prefix_cons.mpr ⟨rfl,List.prefix_append _ _⟩

theorem straightStepPc {m : Machine σ} (straight : m.Straight d) :
    (m.step d).cpu.regs.pc = m.cpu.regs.pc + 1 +
      BitVec.ofNat 16 (instruction (d.read m.bus m.cpu.regs.pc).1).mode.operandLength := by
  have whole := steppedExecute d straight.free
  simp only [step,whole]
  exact Program.everyRun (straightPc m.cpu straight.opcode straight.untaken) d _

theorem straightInSync {m : Machine σ} (straight : m.Straight d) : m.InSync d where
  reads := (lineFetches d m).1
  bus := (lineFetches d m).2.1
  first := fetchedPrefix d straight.free
  consecutive := Program.everyRun (lineReads m.cpu.regs) d m.bus
  regs := by
    rw [(lineFetches d m).2.2,straightStepPc d straight]
    simp only [fetched,fetchPattern,Program.runRead,Program.runBind,Program.runDone]
    rfl

end Machine

/-! Walks of the disassembler beside a run of step() on the base Bus. -/

def Bus.nextLine (image : Bus) (regs : Registers) : Registers :=
  ((unasmLine.run regs).run Bus.device image).result.2

def walk (image : Nat → Bus) (regs : Registers) : Nat → Registers
  | 0 => regs
  | i+1 => (image i).nextLine (walk image regs i)

theorem nextLinePc (image : Bus) (regs : Registers) :
    (image.nextLine regs).pc =
      regs.pc + 1 + BitVec.ofNat 16 (instruction (image.read regs.pc)).mode.operandLength := by
  simp only [Bus.nextLine,unasmPattern,lengthsAgree,Program.runRead,Program.runBind,Program.runDone]
  rfl

namespace Machine

def after (m : Machine Bus) (i : Nat) : Machine Bus := m.run Bus.device (List.replicate i .step)

theorem afterSucc (m : Machine Bus) (i : Nat) : m.after (i+1) = (m.after i).step Bus.device := by
  simp only [after,List.replicate_succ',runAppend]
  rfl

theorem walkFollows {m : Machine Bus} {image : Nat → Bus} {n : Nat}
    (straight : ∀ i, i < n → (m.after i).Straight Bus.device)
    (held : ∀ i, i < n → (image i).read (m.after i).cpu.regs.pc = (m.after i).bus.read (m.after i).cpu.regs.pc) :
    ∀ i, i ≤ n → (walk image m.cpu.regs i).pc = (m.after i).cpu.regs.pc := by
  intro i
  induction i with
  | zero => exact fun _ => rfl
  | succ i ih =>
    intro within
    have here := ih (by omega)
    rw [afterSucc,straightStepPc Bus.device (straight i within),walk,nextLinePc,here,held i within]
    rfl

end Machine

/- On any bus a line and a straight step() agree byte for byte; so lines enumerate the
addresses of straight-line execution, read from the memory as it is at each step, or from
the first image where execution did not overwrite an opcode ahead of itself. -/
theorem disassemblerInSync :
    (∀ (σ : Type) (d : Device Uint16 Uint8 σ) (m : Machine σ), m.Straight d → m.InSync d) ∧
    ∀ (m : Machine Bus) (n : Nat), (∀ i, i < n → (m.after i).Straight Bus.device) →
      (∀ i, i ≤ n → (walk (fun i => (m.after i).bus) m.cpu.regs i).pc = (m.after i).cpu.regs.pc) ∧
      ((∀ i, i < n → m.bus.read (m.after i).cpu.regs.pc = (m.after i).bus.read (m.after i).cpu.regs.pc) →
        ∀ i, i ≤ n → (walk (fun _ => m.bus) m.cpu.regs i).pc = (m.after i).cpu.regs.pc) :=
  ⟨fun _ d _ straight => Machine.straightInSync d straight,fun _ _ straight =>
    ⟨Machine.walkFollows straight fun _ _ => rfl,Machine.walkFollows straight⟩⟩

theorem nopLoadWalk :
    let m := Machine.rig [(0x0400,0xea),(0x0401,0xa9),(0x0402,0x01)]
    m.InSync Bus.device ∧ (walk (fun _ => m.bus) m.cpu.regs 2).pc = (m.after 2).cpu.regs.pc := by
  intro m
  have straight : ∀ i, i < 2 → (m.after i).Straight Bus.device := by
    intro i within
    have cases : i = 0 ∨ i = 1 := by omega
    rcases cases with rfl | rfl <;>
      exact Machine.straightOf Bus.device (by decide) (by decide) (by decide)
  have walks := (disassemblerInSync.2 m 2 straight).2
  refine ⟨disassemblerInSync.1 Bus Bus.device m (straight 0 (by decide)),walks (fun i within => ?_) 2 (by decide)⟩
  have cases : i = 0 ∨ i = 1 := by omega
  rcases cases with rfl | rfl <;> decide

end Emu6502
