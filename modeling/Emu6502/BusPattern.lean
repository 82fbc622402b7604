import Emu6502.Processor

/-! What each addressing mode asks of the bus, without memo flags: operand bytes,
pointer bytes, one data address. The templates, which memoise and ask more than once,
are shown to make exactly these accesses. -/
namespace Emu6502
open Interaction

@[simp] def operandBytes (length : Nat) (pc : Uint16) : Program Uint16 Uint8 Uint16 :=
  match length with
  | 0 => .done 0
  | 1 => .read pc fun v => .done (zeroPageAddress v)
  | _+2 => .read pc fun lo => .read (pc+1) fun hi => .done (word lo hi)

namespace Mode

def operandLength : Mode → Nat
  | null | accumulator => 0
  | immediate | zeroPage | zeroPageX | zeroPageY | relative | indirectX | indirectY => 1
  | absConst | absolute | absoluteX | absoluteY | indirect => 2

def addressed : Mode → Bool
  | zeroPage | zeroPageX | zeroPageY | absolute | absoluteX | absoluteY | indirectX | indirectY => true
  | _ => false

def zeroPageIndexed : Mode → Bool
  | zeroPageX | zeroPageY => true
  | _ => false

def wideIndexed : Mode → Bool
  | absoluteX | absoluteY | indirectY => true
  | _ => false

def index (mode : Mode) (regs : Registers) : Uint8 :=
  match mode with
  | zeroPageX | absoluteX | indirectX => regs.x
  | zeroPageY | absoluteY | indirectY => regs.y
  | _ => 0

def operand (mode : Mode) (pc : Uint16) : Program Uint16 Uint8 Uint16 := operandBytes mode.operandLength pc

def zeroPageWord (zp : Uint8) : Program Uint16 Uint8 Uint16 :=
  .read (zeroPageAddress zp) fun lo => .read (zeroPageAddress (zp+1)) fun hi => .done (word lo hi)

def pointer (mode : Mode) (regs : Registers) (data : Uint16) : Program Uint16 Uint8 Uint16 :=
  match mode with
  | indirectX => zeroPageWord (lowByte data + regs.x)
  | indirectY => zeroPageWord (lowByte data)
  | _ => .done data

def effective (mode : Mode) (regs : Registers) (ptr : Uint16) : Uint16 :=
  match mode with
  | zeroPageX | zeroPageY => zeroPageAddress (lowByte ptr + mode.index regs)
  | absoluteX | absoluteY | indirectY => ptr + (mode.index regs).setWidth 16
  | _ => ptr

def halfway (mode : Mode) (regs : Registers) (ptr : Uint16) : Uint16 :=
  match mode with
  | absoluteX | absoluteY | indirectY => unfixed ptr (mode.index regs)
  | _ => ptr

def crosses (mode : Mode) (regs : Registers) (ptr : Uint16) : Bool :=
  mode.wideIndexed && (mode.effective regs ptr &&& 0xff00) != (ptr &&& 0xff00)

theorem flatNeverCrosses {mode : Mode} (flat : mode.wideIndexed = false) (regs : Registers) (ptr : Uint16) :
    mode.crosses regs ptr = false := by
  simp [crosses,flat]

def load (mode : Mode) (regs : Registers) (ptr : Uint16) : Program Uint16 Uint8 Uint8 :=
  if mode.addressed then
    if mode.zeroPageIndexed || mode.crosses regs ptr then
      .read (mode.halfway regs ptr) fun _ => .read (mode.effective regs ptr) .done
    else .read (mode.effective regs ptr) .done
  else .done (lowByte ptr)

def settle (mode : Mode) (regs : Registers) (ptr : Uint16) : Program Uint16 Uint8 Unit :=
  if mode.zeroPageIndexed || mode.wideIndexed then .read (mode.halfway regs ptr) fun _ => .done ()
  else .done ()

end Mode

def Registers.advance (regs : Registers) (mode : Mode) : Registers :=
  {regs with pc := regs.pc + BitVec.ofNat 16 mode.operandLength}

@[simp] theorem lowByteZeroPage (v : Uint8) : lowByte (zeroPageAddress v) = v := by
  simp only [lowByte,zeroPageAddress]
  exact BitVec.setWidth_setWidth_of_le v (by decide)

def branchOutcome (flag : Uint8) (set : Bool) (cycles : Nat) (regs : Registers) (data : Uint8) :
    Nat × Registers :=
  if regs.getStatus flag != set then (cycles,regs) else
    let val : Uint16 := data.setWidth 16
    let val := if (val &&& 0x80) != 0 then val ||| 0xff00 else val
    let target := val + regs.pc
    let extra := if (regs.pc &&& 0xff00) != (target &&& 0xff00) then 2 else 1
    (cycles + extra,{regs with pc := target})

namespace Template

def admits (t : Template) (mode : Mode) : Bool :=
  match t with
  | read _ => mode == .immediate || mode.addressed
  | readFlat _ => mode == .immediate || (mode.addressed && !mode.wideIndexed)
  | rmw _ _ _ => mode == .accumulator || mode.addressed
  | store _ => mode.addressed
  | shx _ => mode.wideIndexed
  | branch _ _ => mode == .relative
  | jmp => mode == .absConst || mode == .indirect
  | jsr => mode == .absConst
  | nop => mode == .null || mode == .immediate
  | implied _ | push _ | pull _ | brk | rti | rts => mode == .null

def branches : Template → Bool
  | branch _ _ => true
  | _ => false

def KeepsIndex : Template → Prop
  | rmw _ before _ => ∀ regs orig val, (before regs orig val).x = regs.x ∧ (before regs orig val).y = regs.y
  | _ => True

/-- The instruction once its operand is fetched and pc is past it. -/
def action (t : Template) (mode : Mode) (cycles : Nat) (regs : Registers) (data : Uint16) :
    Program Uint16 Uint8 (Nat × Registers) :=
  match t with
  | read apply => do
      let ptr ← mode.pointer regs data
      let val ← mode.load regs ptr
      .done (cycles + (if mode.crosses regs ptr then 1 else 0),apply regs val)
  | readFlat apply => do
      let ptr ← mode.pointer regs data
      let val ← mode.load regs ptr
      .done (cycles,apply regs val)
  | rmw result before after =>
      if mode == .accumulator then
        let val := result regs regs.a
        .done (cycles,after {before regs regs.a val with a := val} val)
      else do
        let ptr ← mode.pointer regs data
        let _ ← mode.settle regs ptr
        .read (mode.effective regs ptr) fun orig =>
          let val := result regs orig
          .write (mode.effective regs ptr) orig (.write (mode.effective regs ptr) val
            (.done (cycles,after (before regs orig val) val)))
  | store source => do
      let ptr ← mode.pointer regs data
      let _ ← mode.settle regs ptr
      .write (mode.effective regs ptr) (source regs) (.done (cycles,regs))
  | shx reg => do
      let ptr ← mode.pointer regs data
      .write (mode.effective regs ptr) (shxSource reg regs &&& (highByte ptr + 1))
        (.done (cycles,if reg = 3 then {regs with sp := regs.a &&& regs.x} else regs))
  | implied apply => .done (cycles,apply regs)
  | branch flag set => .done (branchOutcome flag set cycles regs (lowByte data))
  | nop => .done (cycles,regs)
  | push value => .write (stackAddress regs.sp) (value regs) (.done (cycles,{regs with sp := regs.sp - 1}))
  | pull apply =>
      .read (stackAddress (regs.sp + 1)) fun val => .done (cycles,apply {regs with sp := regs.sp + 1} val)
  | jmp =>
      if mode == .indirect then
        .read data fun lo => .read ((data &&& 0xff00) ||| ((data + 1) &&& 0x00ff)) fun hi =>
          .done (cycles,{regs with pc := word lo hi})
      else .done (cycles,{regs with pc := data})
  | jsr =>
      .write (stackAddress regs.sp) (highByte (regs.pc - 1))
        (.write (stackAddress (regs.sp - 1)) (lowByte (regs.pc - 1))
          (.done (cycles,{regs with sp := regs.sp - 1 - 1, pc := data})))
  | brk =>
      .write (stackAddress regs.sp) (highByte (regs.pc + 1))
        (.write (stackAddress (regs.sp - 1)) (lowByte (regs.pc + 1))
          (.write (stackAddress (regs.sp - 1 - 1)) (regs.sr ||| flagB ||| flagU)
            (.read 0xfffe fun lo => .read 0xffff fun hi =>
              .done (cycles,{regs.setStatus flagI true with sp := regs.sp - 1 - 1 - 1, pc := word lo hi}))))
  | rti =>
      .read (stackAddress (regs.sp + 1)) fun val =>
        .read (stackAddress (regs.sp + 1 + 1)) fun lo => .read (stackAddress (regs.sp + 1 + 1 + 1)) fun hi =>
          .done (cycles,{regs with sr := pulledStatus val, sp := regs.sp + 1 + 1 + 1, pc := word lo hi})
  | rts =>
      .read (stackAddress (regs.sp + 1)) fun lo => .read (stackAddress (regs.sp + 1 + 1)) fun hi =>
        .done (cycles,{regs with sp := regs.sp + 1 + 1, pc := word lo hi + 1})

end Template

/- The proofs below run template and pattern side by side, mode by mode; what is left
after symbolic execution is the one branch on the carry, which both sides take alike. -/
section
variable (mode : Mode) (cycles : Nat) (regs : Registers)

theorem readPattern (apply : Registers → Uint8 → Registers) (memory : (Template.read apply).admits mode) :
    (readBody apply mode cycles).run regs =
      mode.operand regs.pc >>= (Template.read apply).action mode cycles (regs.advance mode) := by
  cases mode <;> first | contradiction | skip
  all_goals
    simp [readBody,Template.action,Mode.init,Mode.get8bit,Mode.dummyRead,Mode.operand,Mode.operandLength,
      Mode.pointer,Mode.load,Mode.addressed,Mode.zeroPageIndexed,Mode.wideIndexed,Mode.crosses,Mode.effective,
      Mode.halfway,Mode.index,Mode.addr,Mode.base,Mode.indexed,Registers.advance,Params.extraCycles,zpRead16,
      Mode.zeroPageWord]
  all_goals
    refine funext fun lo => congrArg (Program.read _) (funext fun hi => ?_)
    first
    | split <;> simp [*]
    | refine congrArg (Program.read _) (funext fun top => ?_)
      split <;> simp [*]

theorem readFlatPattern (apply : Registers → Uint8 → Registers)
    (memory : (Template.readFlat apply).admits mode) :
    (readFlatBody apply mode cycles).run regs =
      mode.operand regs.pc >>= (Template.readFlat apply).action mode cycles (regs.advance mode) := by
  cases mode <;> first | contradiction | skip
  all_goals
    simp [readFlatBody,Template.action,Mode.init,Mode.get8bit,Mode.dummyRead,Mode.operand,Mode.operandLength,
      Mode.pointer,Mode.load,Mode.addressed,Mode.zeroPageIndexed,Mode.wideIndexed,Mode.crosses,Mode.effective,
      Mode.halfway,Mode.index,Mode.addr,Registers.advance,zpRead16,Mode.zeroPageWord]

theorem storePattern (source : Registers → Uint8) (memory : (Template.store source).admits mode) :
    (storeBody source mode cycles).run regs =
      mode.operand regs.pc >>= (Template.store source).action mode cycles (regs.advance mode) := by
  cases mode <;> first | contradiction | skip
  all_goals
    simp [storeBody,Template.action,Mode.init,Mode.set8bit,Mode.dummyRead,Mode.operand,Mode.operandLength,
      Mode.pointer,Mode.settle,Mode.zeroPageIndexed,Mode.wideIndexed,Mode.effective,Mode.halfway,
      Mode.index,Mode.addr,Mode.base,Mode.indexed,Registers.advance,zpRead16,Mode.zeroPageWord]

theorem rmwPattern (result : Registers → Uint8 → Uint8) (before : Registers → Uint8 → Uint8 → Registers)
    (after : Registers → Uint8 → Registers) (memory : (Template.rmw result before after).admits mode)
    (kept : (Template.rmw result before after).KeepsIndex) :
    (rmwBody result before after mode cycles).run regs =
      mode.operand regs.pc >>=
        (Template.rmw result before after).action mode cycles (regs.advance mode) := by
  have keepsX := fun r o v => (kept r o v).1
  have keepsY := fun r o v => (kept r o v).2
  cases mode <;> first | contradiction | skip
  all_goals
    simp [rmwBody,rmwStore,Template.action,Mode.init,Mode.set8bit,Mode.get8bit,Mode.dummyRead,Mode.operand,
      Mode.operandLength,Mode.pointer,Mode.settle,Mode.zeroPageIndexed,Mode.wideIndexed,Mode.effective,
      Mode.halfway,Mode.index,Mode.addr,Mode.base,Mode.indexed,Registers.advance,zpRead16,
      Mode.zeroPageWord,keepsX,keepsY]

theorem shxPattern (reg : Nat) (memory : (Template.shx reg).admits mode) :
    (shxBody reg mode cycles).run regs =
      mode.operand regs.pc >>= (Template.shx reg).action mode cycles (regs.advance mode) := by
  by_cases tas : reg = 3
  all_goals
    cases mode <;> first | contradiction | skip
  all_goals
    simp [shxBody,shxSource,Template.action,Mode.init,Mode.set8bit,Mode.operand,Mode.operandLength,
      Mode.pointer,Mode.effective,Mode.index,Mode.addr,Mode.base,Mode.indexed,Registers.advance,zpRead16,
      Mode.zeroPageWord,tas]

theorem branchPattern (flag : Uint8) (set : Bool) (memory : (Template.branch flag set).admits mode) :
    (branch mode flag set cycles).run regs =
      mode.operand regs.pc >>= (Template.branch flag set).action mode cycles (regs.advance mode) := by
  cases mode <;> first | contradiction | skip
  simp [branch,branchOutcome,Template.action,Mode.init,Mode.get8bit,Mode.operand,Mode.operandLength,
    Registers.advance]
  refine funext fun v => ?_
  split <;> simp [*]

theorem jmpPattern (memory : Template.jmp.admits mode) :
    (jmpBody mode cycles).run regs =
      mode.operand regs.pc >>= Template.jmp.action mode cycles (regs.advance mode) := by
  cases mode <;> first | contradiction | skip
  all_goals
    simp [jmpBody,Template.action,Mode.init,Mode.get16bit,Mode.operand,Mode.operandLength,Registers.advance]

theorem jsrPattern (memory : Template.jsr.admits mode) :
    (jsrBody mode cycles).run regs =
      mode.operand regs.pc >>= Template.jsr.action mode cycles (regs.advance mode) := by
  cases mode <;> first | contradiction | skip
  simp [jsrBody,push16,push8,Template.action,Mode.init,Mode.get16bit,Mode.operand,Mode.operandLength,
    Registers.advance]

theorem nopPattern (memory : Template.nop.admits mode) :
    (nopBody mode cycles).run regs =
      mode.operand regs.pc >>= Template.nop.action mode cycles (regs.advance mode) := by
  cases mode <;> first | contradiction | skip
  all_goals simp [nopBody,Template.action,Mode.init,Mode.operand,Mode.operandLength,Registers.advance]

theorem executePattern (t : Template) (admitted : t.admits mode) (kept : t.KeepsIndex) :
    (t.execute mode cycles).run regs =
      mode.operand regs.pc >>= t.action mode cycles (regs.advance mode) := by
  have implied (h : (mode == .null) = true) :
      regs.advance mode = regs ∧ mode.operand regs.pc = .done 0 := by
    rw [beq_iff_eq] at h
    subst h
    exact ⟨by simp [Registers.advance,Mode.operandLength],rfl⟩
  cases t with
  | read apply => exact readPattern mode cycles regs apply admitted
  | readFlat apply => exact readFlatPattern mode cycles regs apply admitted
  | rmw result before after => exact rmwPattern mode cycles regs result before after admitted kept
  | store source => exact storePattern mode cycles regs source admitted
  | shx reg => exact shxPattern mode cycles regs reg admitted
  | branch flag set => exact branchPattern mode cycles regs flag set admitted
  | jmp => exact jmpPattern mode cycles regs admitted
  | jsr => exact jsrPattern mode cycles regs admitted
  | nop => exact nopPattern mode cycles regs admitted
  | implied apply => rw [(implied admitted).1,(implied admitted).2]; rfl
  | push value => rw [(implied admitted).1,(implied admitted).2]; rfl
  | pull apply => rw [(implied admitted).1,(implied admitted).2]; rfl
  | brk => rw [(implied admitted).1,(implied admitted).2]; rfl
  | rti => rw [(implied admitted).1,(implied admitted).2]; rfl
  | rts => rw [(implied admitted).1,(implied admitted).2]; rfl

end

theorem tableAdmits : ∀ code, (instruction code).op.template.admits (instruction code).mode = true := by
  decide +kernel

theorem opKeepsIndex (op : Op) : op.template.KeepsIndex := by
  cases op <;> first | exact trivial | exact fun _ _ _ => ⟨rfl,rfl⟩

theorem instructionPattern (code : Uint8) (regs : Registers) :
    (execute (instruction code)).run regs =
      let i := instruction code
      i.mode.operand regs.pc >>= i.op.template.action i.mode i.cycles (regs.advance i.mode) :=
  executePattern _ _ _ _ (tableAdmits code) (opKeepsIndex _)

theorem servicePattern (vector : Uint16) (regs : Registers) :
    (serviceInterrupt vector).run regs =
      .write (stackAddress regs.sp) (highByte regs.pc)
        (.write (stackAddress (regs.sp - 1)) (lowByte regs.pc)
          (.write (stackAddress (regs.sp - 1 - 1)) ((regs.sr &&& ~~~flagB) ||| flagU)
            (.read vector fun lo => .read (vector + 1) fun hi =>
              .done (7,{regs.setStatus flagI true with sp := regs.sp - 1 - 1 - 1, pc := word lo hi})))) := rfl

/-! Rules for one step(): what has to hold of each of its three branches. -/

def serviceLog (vector : Uint16) (regs : Registers) (lo hi : Uint8) : List (Access Uint16 Uint8) :=
  [.write (stackAddress regs.sp) (highByte regs.pc),.write (stackAddress (regs.sp - 1)) (lowByte regs.pc),
    .write (stackAddress (regs.sp - 1 - 1)) ((regs.sr &&& ~~~flagB) ||| flagU),
    .read vector lo,.read (vector + 1) hi]

def serviceRegs (regs : Registers) (lo hi : Uint8) : Registers :=
  {regs.setStatus flagI true with sp := regs.sp - 1 - 1 - 1, pc := word lo hi}

namespace Processor

def afterService (cpu : Processor) (lo hi : Uint8) : Processor :=
  {cpu with
    regs := serviceRegs cpu.regs lo hi, cycles := cpu.cycles + 7, nmiPending := false, iFlagDelayed := false}

def afterExecute (cpu : Processor) (code : Uint8) (cost : Nat) (regs : Registers) : Processor :=
  {cpu with
    regs := regs
    cycles := cpu.cycles + cost
    iFlagDelayed := code == 0x58 || code == 0x78 || code == 0x28
    iFlagBefore := cpu.regs.getStatus flagI}

def executes (cpu : Processor) : Bool := !cpu.nmiPending && !(cpu.irqLine && !cpu.masked)

def instructionBody (cpu : Processor) (code : Uint8) : Program Uint16 Uint8 (Nat × Registers) :=
  let i := instruction code
  i.mode.operand (cpu.regs.pc + 1) >>=
    i.op.template.action i.mode i.cycles ({cpu.regs with pc := cpu.regs.pc + 1}.advance i.mode)

theorem stepNmi {cpu : Processor} (pending : cpu.nmiPending = true) :
    cpu.step = (serviceInterrupt 0xfffa).run cpu.regs >>= fun out =>
      .done (.nmi,{cpu with
        regs := out.2, cycles := cpu.cycles + out.1, nmiPending := false, iFlagDelayed := false}) := by
  simp only [step,if_pos pending]
  rfl

theorem stepIrq {cpu : Processor} (quiet : cpu.nmiPending = false) (line : cpu.irqLine = true)
    (clear : cpu.masked = false) :
    cpu.step = (serviceInterrupt 0xfffe).run cpu.regs >>= fun out =>
      .done (.irq,{cpu with
        regs := out.2, cycles := cpu.cycles + out.1, nmiPending := false, iFlagDelayed := false}) := by
  have taken : (cpu.irqLine && !cpu.masked) = true := by simp [line,clear]
  unfold step
  rw [if_neg (by simp [quiet]),if_pos taken,← quiet]
  rfl

theorem stepExecute {cpu : Processor} (free : cpu.executes = true) :
    cpu.step = .read cpu.regs.pc fun code => cpu.instructionBody code >>= fun out =>
      .done (.executed code,cpu.afterExecute code out.1 out.2) := by
  simp only [executes,Bool.and_eq_true,Bool.not_eq_true'] at free
  simp only [step,free.1,free.2,Bool.false_eq_true,if_false,fetch,execRunBind,execRunGet,execRunModify,
    busReadRun,Program.doneBind,Program.readBind,instructionPattern]
  rfl

theorem everyStep {cpu : Processor} {Q : List (Access Uint16 Uint8) → Served × Processor → Prop}
    (nmi : cpu.nmiPending = true → ∀ lo hi, Q (serviceLog 0xfffa cpu.regs lo hi) (.nmi,cpu.afterService lo hi))
    (irq : cpu.nmiPending = false → cpu.irqLine = true → cpu.masked = false →
      ∀ lo hi, Q (serviceLog 0xfffe cpu.regs lo hi) (.irq,cpu.afterService lo hi))
    (executed : cpu.executes = true → ∀ code, (cpu.instructionBody code).Every fun log out =>
      Q (.read cpu.regs.pc code :: log) (.executed code,cpu.afterExecute code out.1 out.2)) :
    cpu.step.Every Q := by
  by_cases pending : cpu.nmiPending = true
  · rw [stepNmi pending,servicePattern]
    exact nmi pending
  · rw [Bool.not_eq_true] at pending
    by_cases taken : cpu.irqLine = true ∧ cpu.masked = false
    · rw [stepIrq pending taken.1 taken.2,servicePattern]
      exact irq pending taken.1 taken.2
    · have free : cpu.executes = true := by
        cases hl : cpu.irqLine <;> cases hm : cpu.masked <;> simp_all [executes]
      rw [stepExecute free]
      intro code
      rw [Program.everyBind]
      exact Program.everyMono (executed free code) (fun log out h => by simpa using h)

end Processor

/-- All that one step() can do: its accesses, its branch and the processor it leaves. -/
inductive Stepped (cpu : Processor) : List (Access Uint16 Uint8) → Served → Processor → Prop where
  | nmi (pending : cpu.nmiPending = true) (lo hi : Uint8) :
      Stepped cpu (serviceLog 0xfffa cpu.regs lo hi) .nmi (cpu.afterService lo hi)
  | irq (quiet : cpu.nmiPending = false) (line : cpu.irqLine = true) (clear : cpu.masked = false)
      (lo hi : Uint8) : Stepped cpu (serviceLog 0xfffe cpu.regs lo hi) .irq (cpu.afterService lo hi)
  | executed (free : cpu.executes = true) (code : Uint8) (log : List (Access Uint16 Uint8)) (cost : Nat)
      (regs : Registers) (path : (cpu.instructionBody code).Path log (cost,regs)) :
      Stepped cpu (.read cpu.regs.pc code :: log) (.executed code) (cpu.afterExecute code cost regs)

namespace Stepped
variable {cpu next : Processor} {log : List (Access Uint16 Uint8)} {served : Served}

theorem nmiIff (h : Stepped cpu log served next) : served = .nmi ↔ cpu.nmiPending = true := by
  cases h with
  | nmi pending lo hi => simp [pending]
  | irq quiet line clear lo hi => simp [quiet]
  | executed free code log cost regs path =>
    simp only [Processor.executes,Bool.and_eq_true,Bool.not_eq_true'] at free
    simp [free.1]

theorem irqIff (h : Stepped cpu log served next) :
    served = .irq ↔ cpu.nmiPending = false ∧ cpu.irqLine = true ∧ cpu.masked = false := by
  cases h with
  | nmi pending lo hi => simp [pending]
  | irq quiet line clear lo hi => simp [quiet,line,clear]
  | executed free code log cost regs path =>
    simp only [Processor.executes,Bool.and_eq_true,Bool.not_eq_true',Bool.and_eq_false_iff] at free
    simp only [reduceCtorEq,free.1,true_and,false_iff]
    rintro ⟨line,clear⟩
    simp_all

theorem executes (h : Stepped cpu log served next) {code : Uint8} (ran : served = .executed code) :
    cpu.executes = true := by
  cases h with
  | nmi pending lo hi => contradiction
  | irq quiet line clear lo hi => contradiction
  | executed free code log cost regs path => exact free

end Stepped

theorem everyStepped (cpu : Processor) : cpu.step.Every fun log out => Stepped cpu log out.1 out.2 := by
  refine Processor.everyStep (fun pending lo hi => .nmi pending lo hi)
    (fun quiet line clear lo hi => .irq quiet line clear lo hi) fun free code => ?_
  exact Program.everyMono (Program.everyPath _) fun log out path => .executed free code log out.1 out.2 path

end Emu6502
