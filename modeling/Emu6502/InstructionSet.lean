import Emu6502.SelfTrap
import Emu6502.MemoryEffect
import Emu6502.Lib.Triple

/-! The instruction set as a program in 64 KB of RAM sees it: one function on the registers, the
memory and the cycles spent. No bus, no parameter objects and no dummy reads are in it; a step of
the emulator that no interrupt preempts is one application of it. -/
namespace Emu6502
open Interaction

structure View where
  regs : Registers
  memory : Uint16 → Uint8
  cycles : Nat

namespace View
variable (v : View)

def code : Uint8 := v.memory v.regs.pc

def fetched : Instr := instruction v.code

def operand : Uint16 :=
  match v.fetched.mode.operandLength with
  | 0 => 0
  | 1 => zeroPageAddress (v.memory (v.regs.pc + 1))
  | _+2 => word (v.memory (v.regs.pc + 1)) (v.memory (v.regs.pc + 1 + 1))

/- Past the instruction's bytes. -/
def passed : Registers := {v.regs with pc := v.regs.pc + 1}.advance v.fetched.mode

def zeroPageWord (zp : Uint8) : Uint16 := word (v.memory (zeroPageAddress zp)) (v.memory (zeroPageAddress (zp+1)))

def pointer : Uint16 :=
  match v.fetched.mode with
  | .indirectX => v.zeroPageWord (lowByte v.operand + v.regs.x)
  | .indirectY => v.zeroPageWord (lowByte v.operand)
  | _ => v.operand

def address : Uint16 := v.fetched.mode.effective v.regs v.pointer

def value : Uint8 := if v.fetched.mode.addressed then v.memory v.address else lowByte v.pointer

def vector : Uint16 :=
  if v.fetched.mode = .indirect then
    word (v.memory v.operand) (v.memory ((v.operand &&& 0xff00) ||| ((v.operand + 1) &&& 0x00ff)))
  else v.operand

/- The byte `k` above the stack pointer. -/
def pulled (k : Uint8) : Uint8 := v.memory (stackAddress (v.regs.sp + k))

def store (a : Uint16) (val : Uint8) : Uint16 → Uint8 := Function.update v.memory a val

/- The memory under bytes pushed one after the other. -/
def pushed (memory : Uint16 → Uint8) (sp : Uint8) : List Uint8 → Uint16 → Uint8
  | [] => memory
  | b :: bytes => pushed (Function.update memory (stackAddress sp) b) (sp - 1) bytes

def next : View :=
  let i := v.fetched
  let regs := v.passed
  let spent := v.cycles + i.cycles
  match i.op.template with
  | .read apply =>
      ⟨apply regs v.value,v.memory,spent + if i.mode.crosses v.regs v.pointer then 1 else 0⟩
  | .readFlat apply => ⟨apply regs v.value,v.memory,spent⟩
  | .rmw result before after =>
      if i.mode = .accumulator then
        let val := result regs regs.a
        ⟨after {before regs regs.a val with a := val} val,v.memory,spent⟩
      else
        let orig := v.memory v.address
        let val := result regs orig
        ⟨after (before regs orig val) val,v.store v.address val,spent⟩
  | .store source => ⟨regs,v.store v.address (source regs),spent⟩
  | .implied apply => ⟨apply regs,v.memory,spent⟩
  | .branch flag set =>
      let target := regs.pc + (lowByte v.operand).signExtend 16
      if regs.getStatus flag = set then
        ⟨{regs with pc := target},v.memory,spent + if highByte target = highByte regs.pc then 1 else 2⟩
      else ⟨regs,v.memory,spent⟩
  | .push value => ⟨{regs with sp := regs.sp - 1},pushed v.memory regs.sp [value regs],spent⟩
  | .pull apply => ⟨apply {regs with sp := regs.sp + 1} (v.pulled 1),v.memory,spent⟩
  | .nop => ⟨regs,v.memory,spent⟩
  | .brk =>
      let memory := pushed v.memory regs.sp
        [highByte (regs.pc + 1),lowByte (regs.pc + 1),regs.sr ||| flagB ||| flagU]
      ⟨{regs.setStatus flagI true with sp := regs.sp - 3, pc := word (v.memory 0xfffe) (v.memory 0xffff)},memory,spent⟩
  | .jmp => ⟨{regs with pc := v.vector},v.memory,spent⟩
  | .jsr =>
      let memory := pushed v.memory regs.sp [highByte (regs.pc - 1),lowByte (regs.pc - 1)]
      ⟨{regs with sp := regs.sp - 2, pc := v.operand},memory,spent⟩
  | .rti =>
      ⟨{regs with sr := pulledStatus (v.pulled 1), sp := regs.sp + 3, pc := word (v.pulled 2) (v.pulled 3)},v.memory,spent⟩
  | .rts => ⟨{regs with sp := regs.sp + 2, pc := word (v.pulled 1) (v.pulled 2) + 1},v.memory,spent⟩
  | .shx reg =>
      ⟨if reg = 3 then {regs with sp := regs.a &&& regs.x} else regs,
        v.store v.address (shxSource reg regs &&& (highByte v.pointer + 1)),spent⟩

end View

def Machine.view (m : Machine RamBus) : View := ⟨m.cpu.regs,m.memory,m.cpu.cycles⟩

/-! One step. -/

theorem ramUpdate (bus : RamBus) (a : Uint16) (val : Uint8) :
    (RamBus.device.write bus a val).val.read = Function.update bus.val.read a val := by
  funext b
  rw [Function.update_apply]
  exact Bus.ramReadWrite bus.property a b val

theorem ramRead (bus : RamBus) (a : Uint16) : RamBus.device.read bus a = (bus.val.read a,bus) := rfl

/- A run on RAM that leaves every byte as it is, for all that its result shows. -/
def Answers {α : Type} (p : Program Uint16 Uint8 α) (bus : RamBus) (result : α) : Prop :=
  (p.run RamBus.device bus).result = result ∧ (p.run RamBus.device bus).state = bus

theorem answersBind {α β : Type} {p : Program Uint16 Uint8 α} {bus : RamBus} {result : α} (first : Answers p bus result)
    (rest : α → Program Uint16 Uint8 β) :
    ((p >>= rest).run RamBus.device bus).result = ((rest result).run RamBus.device bus).result ∧
      ((p >>= rest).run RamBus.device bus).state = ((rest result).run RamBus.device bus).state := by
  rw [Program.runBind]
  dsimp only
  rw [first.1,first.2]
  exact ⟨rfl,rfl⟩

section pieces
variable (m : Machine RamBus)

theorem operandAnswers : Answers (m.view.fetched.mode.operand (m.cpu.regs.pc + 1)) m.bus m.view.operand := by
  unfold View.operand Mode.operand
  generalize m.view.fetched.mode = mode
  cases mode <;> exact ⟨rfl,rfl⟩

theorem pointerAnswers :
    Answers (m.view.fetched.mode.pointer m.view.passed m.view.operand) m.bus m.view.pointer := by
  have x : m.view.passed.x = m.view.regs.x := rfl
  unfold View.pointer
  generalize m.view.passed = regs at x ⊢
  generalize m.view.operand = data
  cases m.view.fetched.mode <;> first | exact ⟨rfl,rfl⟩ | (simp only [Mode.pointer,x]; exact ⟨rfl,rfl⟩)

theorem addressPassed : m.view.fetched.mode.effective m.view.passed m.view.pointer = m.view.address := by
  have same : m.view.fetched.mode.index m.view.passed = m.view.fetched.mode.index m.view.regs := by
    cases m.view.fetched.mode <;> rfl
  unfold View.address
  cases mode : m.view.fetched.mode <;> simp only [mode] at same <;> simp only [Mode.effective,same]

theorem loadAnswers : Answers (m.view.fetched.mode.load m.view.passed m.view.pointer) m.bus m.view.value := by
  unfold View.value Mode.load
  rw [addressPassed]
  split
  · split <;> exact ⟨rfl,rfl⟩
  · exact ⟨rfl,rfl⟩

theorem settleAnswers : Answers (m.view.fetched.mode.settle m.view.passed m.view.pointer) m.bus () := by
  unfold Mode.settle
  split <;> exact ⟨rfl,rfl⟩

end pieces

/- What an action leaves, as the view a step with it ends in. -/
def leaves (m : Machine RamBus) (p : Program Uint16 Uint8 (Nat × Registers)) : View :=
  let out := p.run RamBus.device m.bus
  ⟨out.result.2,out.state.val.read,m.cpu.cycles + out.result.1⟩

theorem leavesAfter {m : Machine RamBus} {α : Type} {p : Program Uint16 Uint8 α} {result : α}
    (first : Answers p m.bus result) (rest : α → Program Uint16 Uint8 (Nat × Registers)) :
    leaves m (p >>= rest) = leaves m (rest result) := by
  obtain ⟨same,state⟩ := answersBind first rest
  simp only [leaves,same,state]

theorem leavesStore (m : Machine RamBus) (a : Uint16) (val : Uint8) (cost : Nat) (regs : Registers) :
    leaves m (.write a val (.done (cost,regs))) = ⟨regs,m.view.store a val,m.view.cycles + cost⟩ := by
  simp only [leaves,Program.runWrite,Program.runDone,ramUpdate]
  rfl

theorem branchView (flag : Uint8) (set : Bool) (cost : Nat) (v : View) :
    (⟨(branchOutcome flag set cost v.passed (lowByte v.operand)).2,v.memory,
        v.cycles + (branchOutcome flag set cost v.passed (lowByte v.operand)).1⟩ : View) =
      let target := v.passed.pc + (lowByte v.operand).signExtend 16
      if v.passed.getStatus flag = set then
        ⟨{v.passed with pc := target},v.memory,v.cycles + cost + if highByte target = highByte v.passed.pc then 1 else 2⟩
      else ⟨v.passed,v.memory,v.cycles + cost⟩ := by
  dsimp only
  have target := branchTarget flag set cost v.passed (lowByte v.operand)
  rw [branchOutcomeCost]
  by_cases taken : v.passed.getStatus flag = set
  · have regs : (branchOutcome flag set cost v.passed (lowByte v.operand)).2 =
        {v.passed with pc := (branchOutcome flag set cost v.passed (lowByte v.operand)).2.pc} := by
      unfold branchOutcome
      split <;> rfl
    rw [if_pos taken] at target
    rw [if_pos taken,if_pos taken,regs,target,Nat.add_assoc]
  · have kept : (branchOutcome flag set cost v.passed (lowByte v.operand)).2 = v.passed := by
      rw [branchOutcome,if_pos (by simp [taken])]
    rw [if_neg taken,if_neg taken,kept]
    rfl

theorem below (sp : Uint8) : sp - 2 = sp - 1 - 1 ∧ sp - 3 = sp - 1 - 1 - 1 ∧ sp + 2 = sp + 1 + 1 ∧ sp + 3 = sp + 1 + 1 + 1 := by
  refine ⟨?_,?_,?_,?_⟩ <;> grind

theorem actionNext (m : Machine RamBus) :
    leaves m (m.view.fetched.op.template.action m.view.fetched.mode m.view.fetched.cycles m.view.passed m.view.operand) =
      m.view.next := by
  have admitted := tableAdmits m.view.code
  change m.view.fetched.op.template.admits m.view.fetched.mode = true at admitted
  have pointer := pointerAnswers m
  have load := loadAnswers m
  have settle := settleAnswers m
  have address := addressPassed m
  obtain ⟨two,three,second,third⟩ := below m.view.passed.sp
  unfold View.next
  dsimp only
  cases template : m.view.fetched.op.template with
  | read apply =>
    have carry : m.view.fetched.mode.crosses m.view.passed m.view.pointer =
        m.view.fetched.mode.crosses m.view.regs m.view.pointer := by
      simp only [Mode.crosses,address,View.address]
    simp only [Template.action,leavesAfter pointer,leavesAfter load,carry,Nat.add_assoc]
    rfl
  | readFlat apply =>
    simp only [Template.action,leavesAfter pointer,leavesAfter load]
    rfl
  | rmw result before after =>
    by_cases register : m.view.fetched.mode = .accumulator
    · simp only [Template.action,register]
      rfl
    · simp only [Template.action,beq_iff_eq,if_neg register,leavesAfter pointer,leavesAfter settle,address]
      simp only [leaves,Program.runRead,Program.runWrite,Program.runDone,ramRead,ramUpdate,Function.update_idem]
      rfl
  | store source =>
    simp only [Template.action,leavesAfter pointer,leavesAfter settle,address,leavesStore]
  | shx reg =>
    simp only [Template.action,leavesAfter pointer,address,leavesStore]
  | implied apply => rfl
  | branch flag set => exact branchView flag set _ m.view
  | push value => exact leavesStore m _ _ _ _
  | pull apply => rfl
  | nop => rfl
  | jmp =>
    simp only [Template.action,View.vector,beq_iff_eq]
    split <;> rfl
  | jsr =>
    simp only [Template.action,leaves,Program.runWrite,Program.runDone,ramUpdate,two]
    rfl
  | brk =>
    have low := breakKeeps m.bus m.view.passed.sp (m.view.passed.sp - 1) (m.view.passed.sp - 1 - 1)
      (highByte (m.view.passed.pc + 1)) (lowByte (m.view.passed.pc + 1)) (m.view.passed.sr ||| flagB ||| flagU)
      (a := 0xfffe) (by decide)
    have high := breakKeeps m.bus m.view.passed.sp (m.view.passed.sp - 1) (m.view.passed.sp - 1 - 1)
      (highByte (m.view.passed.pc + 1)) (lowByte (m.view.passed.pc + 1)) (m.view.passed.sr ||| flagB ||| flagU)
      (a := 0xffff) (by decide)
    simp only [Template.action,leaves,Program.runWrite,Program.runRead,Program.runDone,three,ramRead,low,high]
    simp only [ramUpdate]
    rfl
  | rti =>
    have stack : m.view.regs.sp + 3 = m.view.regs.sp + 1 + 1 + 1 := third
    have middle : m.view.regs.sp + 2 = m.view.regs.sp + 1 + 1 := second
    simp only [View.pulled,third,stack,middle]
    rfl
  | rts =>
    have middle : m.view.regs.sp + 2 = m.view.regs.sp + 1 + 1 := second
    simp only [View.pulled,second,middle]
    rfl

namespace Machine

theorem stepView {m : Machine RamBus} (free : m.cpu.executes = true) : (m.step RamBus.device).view = m.view.next := by
  have whole := steppedExecute RamBus.device free
  have body : leaves m (m.cpu.instructionBody m.view.code) = m.view.next :=
    (leavesAfter (operandAnswers m) _).trans (actionNext m)
  rw [← body]
  simp only [step,view,memory,whole]
  rfl

end Machine

/-! The processor around it. All it remembers of the last instruction is whether IRQ is masked. -/

def View.interrupted (v : View) (vector : Uint16) : View :=
  let memory := View.pushed v.memory v.regs.sp
    [highByte v.regs.pc,lowByte v.regs.pc,(v.regs.sr &&& ~~~flagB) ||| flagU]
  ⟨{v.regs.setStatus flagI true with sp := v.regs.sp - 3, pc := word (v.memory vector) (v.memory (vector + 1))},
    memory,v.cycles + 7⟩

structure Core where
  view : View
  nmi : Bool
  irq : Bool
  masked : Bool

namespace Core

def step (c : Core) : Core :=
  if c.nmi then {c with view := c.view.interrupted 0xfffa, nmi := false, masked := true}
  else if c.irq && !c.masked then {c with view := c.view.interrupted 0xfffe, masked := true}
  else
    -- CLI, SEI and PLP change I too late for the gate behind them.
    let gated := if c.view.code ∈ [0x58,0x78,0x28] then c.view else c.view.next
    {c with view := c.view.next, masked := gated.regs.getStatus flagI}

def react (c : Core) : Event → Core
  | .step => c.step
  | .nmi => {c with nmi := true}
  | .irq asserted => {c with irq := asserted}

def start (c : Core) : Core where
  view := {
    regs := {a := 0, x := 0, y := 0, sr := flagU ||| flagI, sp := 0xfd, pc := word (c.view.memory 0xfffc) (c.view.memory 0xfffd)}
    memory := c.view.memory
    cycles := 7}
  nmi := false
  irq := false
  masked := true

end Core

namespace Machine

def core (m : Machine RamBus) : Core := ⟨m.view,m.cpu.nmiPending,m.cpu.irqLine,m.cpu.masked⟩

theorem maskedAfter (cpu : Processor) (code : Uint8) (cost : Nat) (regs : Registers) :
    (cpu.afterExecute code cost regs).masked =
      if code ∈ ([0x58,0x78,0x28] : List Uint8) then cpu.regs.getStatus flagI else regs.getStatus flagI := by
  simp only [Processor.masked,Processor.afterExecute,Bool.or_eq_true,beq_iff_eq,List.mem_cons,List.not_mem_nil,or_false,
    or_assoc]

theorem interruptView (m : Machine RamBus) (vector : Uint16) (high : 0x0200 ≤ vector) (next : 0x0200 ≤ vector + 1) :
    let out := ((serviceInterrupt vector).run m.cpu.regs).run RamBus.device m.bus
    (⟨out.result.2,out.state.val.read,m.cpu.cycles + out.result.1⟩ : View) = m.view.interrupted vector := by
  obtain ⟨_,three,_,_⟩ := below m.cpu.regs.sp
  have lo := breakKeeps m.bus m.cpu.regs.sp (m.cpu.regs.sp - 1) (m.cpu.regs.sp - 1 - 1) (highByte m.cpu.regs.pc)
    (lowByte m.cpu.regs.pc) ((m.cpu.regs.sr &&& ~~~flagB) ||| flagU) high
  have hi := breakKeeps m.bus m.cpu.regs.sp (m.cpu.regs.sp - 1) (m.cpu.regs.sp - 1 - 1) (highByte m.cpu.regs.pc)
    (lowByte m.cpu.regs.pc) ((m.cpu.regs.sr &&& ~~~flagB) ||| flagU) next
  have stack : m.view.regs.sp - 3 = m.view.regs.sp - 1 - 1 - 1 := three
  simp only [servicePattern,Program.runWrite,Program.runRead,Program.runDone,ramRead,lo,hi,View.interrupted,stack]
  simp only [ramUpdate]
  rfl

/- A serviced interrupt leaves I set, and the gate follows it. -/
theorem servicedCore (m : Machine RamBus) (vector : Uint16) (high : 0x0200 ≤ vector) (next : 0x0200 ≤ vector + 1) :
    let out := ((serviceInterrupt vector).run m.cpu.regs).run RamBus.device m.bus
    core ⟨{m.cpu with regs := out.result.2, cycles := m.cpu.cycles + out.result.1, nmiPending := false, iFlagDelayed := false},
        out.state⟩ =
      {m.core with view := m.view.interrupted vector, nmi := false, masked := true} := by
  intro out
  have after := interruptView m vector high next
  have gate : out.result.2.getStatus flagI = true := by
    have regs := congrArg View.regs after
    change out.result.2 = _ at regs
    rw [regs]
    exact m.cpu.regs.setStatusReads flagI true (by decide)
  have masked : Processor.masked {m.cpu with
      regs := out.result.2, cycles := m.cpu.cycles + out.result.1, nmiPending := false, iFlagDelayed := false} = true :=
    gate
  unfold core
  rw [masked,← after]
  rfl

theorem stepCore (m : Machine RamBus) : (m.step RamBus.device).core = m.core.step := by
  unfold Core.step
  by_cases pending : m.core.nmi = true
  · rw [if_pos pending]
    refine Eq.trans ?_ (m.servicedCore 0xfffa (by decide) (by decide))
    simp only [step,stepped,Processor.stepNmi pending,Program.runBind,Program.runDone]
  · have quiet : m.cpu.nmiPending = false := Bool.eq_false_iff.mpr pending
    rw [if_neg pending]
    by_cases taken : (m.core.irq && !m.core.masked) = true
    · obtain ⟨line,clear⟩ := Bool.and_eq_true_iff.mp taken
      have gate : m.cpu.masked = false := (Bool.not_eq_true' _).mp clear
      rw [if_pos taken]
      have serviced := m.servicedCore 0xfffe (by decide) (by decide)
      have same : {m.core with view := m.view.interrupted 0xfffe, nmi := false, masked := true} =
          {m.core with view := m.view.interrupted 0xfffe, masked := true} := by
        simp only [core,quiet]
      rw [same] at serviced
      refine Eq.trans ?_ serviced
      simp only [step,stepped,Processor.stepIrq quiet line gate,Program.runBind,Program.runDone]
    · have busy : (m.cpu.irqLine && !m.cpu.masked) = false := Bool.eq_false_iff.mpr taken
      have free : m.cpu.executes = true := by
        rw [Processor.executes,quiet,busy]
        rfl
      rw [if_neg taken]
      have whole := steppedExecute RamBus.device free
      have view := stepView free
      have gated : (m.step RamBus.device).cpu.masked =
          if m.core.view.code ∈ ([0x58,0x78,0x28] : List Uint8) then m.cpu.regs.getStatus flagI
          else (m.step RamBus.device).cpu.regs.getStatus flagI := by
        simp only [step,whole]
        exact maskedAfter _ _ _ _
      have kept : (m.step RamBus.device).cpu.nmiPending = m.core.nmi ∧ (m.step RamBus.device).cpu.irqLine = m.core.irq := by
        simp only [step,whole]
        exact ⟨rfl,rfl⟩
      have regs : (m.step RamBus.device).cpu.regs = m.view.next.regs := congrArg View.regs view
      conv => lhs; unfold core
      rw [view,kept.1,kept.2,gated,regs]
      congr 1
      split <;> rfl

theorem startCore (m : Machine RamBus) : (m.start RamBus.device).core = m.core.start := by
  have masked : (m.start RamBus.device).cpu.masked = true := by
    change ((flagU ||| flagI) &&& flagI != 0) = true
    decide
  unfold core
  rw [masked]
  rfl

theorem reactCore (m : Machine RamBus) (e : Event) : (m.apply RamBus.device e).core = m.core.react e := by
  cases e with
  | step => exact m.stepCore
  | nmi => rfl
  | irq asserted => rfl

theorem coreSimulates (m : Machine RamBus) (events : List Event) :
    (m.run RamBus.device events).core = Transition.run Core.react m.core events := by
  induction events generalizing m with
  | nil => rfl
  | cons e events ih => rw [runCons,ih,reactCore,Transition.runCons]

/-- Whatever steps, nmi() and irq() calls a run is made of, after a reset or from any state, what it
leaves in the registers, in memory, on the clock and of the interrupts is what the instruction set
and the interrupt sequence make of what was there before. -/
theorem runRefines (m : Machine RamBus) (events : List Event) :
    (m.run RamBus.device events).core = Transition.run Core.react m.core events ∧
      ((m.start RamBus.device).run RamBus.device events).core = Transition.run Core.react m.core.start events := by
  refine ⟨m.coreSimulates events,?_⟩
  rw [coreSimulates,startCore]

/-! Left to itself, the emulator is the instruction set run step by step. -/

theorem stepsIterate (m : Machine RamBus) (n : Nat) : m.steps n = (step RamBus.device)^[n] m := by
  induction n generalizing m with
  | zero => rfl
  | succ n ih => rw [stepsSucc,ih,Function.iterate_succ_apply]

theorem runsTo (m : Machine RamBus) (calm : m.Calm) {Q : View → Prop} (reached : Total.Reaches View.next Q m.view) :
    ∃ n, Q (m.steps n).view := by
  have kept (t : Machine RamBus) (still : t.Calm) : (t.step RamBus.device).Calm := calmStep RamBus.device still
  have simulates (t : Machine RamBus) (still : t.Calm) := stepView (calmExecutes still)
  obtain ⟨n,_,there⟩ := Total.reachesSimulates kept simulates calm reached
  rw [← stepsIterate] at there
  exact ⟨n,there⟩

end Machine
end Emu6502
