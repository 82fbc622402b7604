import Emu6502.ControlFlow
import Emu6502.HostSession
import Emu6502.RunLocality

/-! testFunctional.cpp: the suite is stepped until the program counter stops advancing. A step
that leaves pc where it was is the end of the program, unless it went through the stack. -/
namespace Emu6502
open Interaction

def stackOps : List Op := [.brk,.jsr,.rti,.rts]

theorem jumpingOps (op : Op) (other : op ∉ stackOps) (jumps : op.template.jumps = true) :
    op.template = .jmp ∨ ∃ flag set, op.template = .branch flag set := by
  cases op <;> first | contradiction | exact .inl rfl | exact .inr ⟨_,_,rfl⟩

theorem operandStill (bus : RamBus) (length : Nat) (pc : Uint16) :
    ((operandBytes length pc).run RamBus.device bus).state = bus :=
  match length with
  | 0 => rfl
  | 1 => rfl
  | _+2 => rfl

namespace Machine

def Calm {σ : Type} (m : Machine σ) : Prop := m.cpu.nmiPending = false ∧ m.cpu.irqLine = false

theorem calmExecutes {σ : Type} {m : Machine σ} (calm : m.Calm) : m.cpu.executes = true := by
  simp [Processor.executes,calm.1,calm.2]

theorem calmStep {σ : Type} (d : Device Uint16 Uint8 σ) {m : Machine σ} (calm : m.Calm) : (m.step d).Calm :=
  ⟨(m.isStepped d).nmiTaken,(m.isStepped d).lineKept.trans calm.2⟩

def opcode (m : Machine RamBus) : Uint8 := m.byte m.cpu.regs.pc

/- Jumps and branches touch pc alone. -/
theorem turnsOnly {m : Machine RamBus} (free : m.cpu.executes = true)
    (turns : (instruction m.opcode).op.template = .jmp ∨
      ∃ flag set, (instruction m.opcode).op.template = .branch flag set) :
    (m.step RamBus.device).cpu.regs = {m.cpu.regs with pc := (m.step RamBus.device).cpu.regs.pc} ∧
      (m.step RamBus.device).bus = m.bus := by
  have whole := steppedExecute RamBus.device free
  have fetched : RamBus.device.read m.bus m.cpu.regs.pc = (m.opcode,m.bus) := rfl
  simp only [step,whole,fetched,Processor.instructionBody,Program.runBind,operandStill,Mode.operand]
  generalize ((operandBytes (instruction m.opcode).mode.operandLength (m.cpu.regs.pc + 1)).run RamBus.device m.bus).result = data
  rcases turns with jmp | ⟨flag,set,branch⟩
  · rw [jmp]
    simp only [Template.action]
    split <;> exact ⟨rfl,rfl⟩
  · rw [branch]
    simp only [Template.action,Program.runDone,branchOutcome]
    split <;> exact ⟨rfl,trivial⟩

theorem straightTarget {m : Machine RamBus} (moves : (instruction m.opcode).op ≠ .kil)
    (straight : (instruction m.opcode).op.template.jumps = false) : m.target ≠ m.cpu.regs.pc := by
  have next : m.target = m.cpu.regs.pc + 1 + BitVec.ofNat 16 (instruction m.opcode).mode.operandLength := by
    unfold opcode byte at *
    simp only [target,if_neg moves]
    cases body : (instruction (m.bus.val.read m.cpu.regs.pc)).op.template <;> first | rfl | simp [body,Template.jumps] at straight
  rw [next]
  have short : (instruction m.opcode).mode.operandLength ≤ 2 := by
    cases (instruction m.opcode).mode <;> decide
  intro back
  have val := congrArg BitVec.toNat back
  have one : (1 : Uint16).toNat = 1 := rfl
  simp only [BitVec.toNat_add,BitVec.toNat_ofNat,one] at val
  omega

theorem trapFixed {m : Machine RamBus} (free : m.cpu.executes = true)
    (trap : (m.step RamBus.device).cpu.regs.pc = m.cpu.regs.pc) (other : (instruction m.opcode).op ∉ stackOps) :
    (m.step RamBus.device).cpu.regs = m.cpu.regs ∧ (m.step RamBus.device).bus = m.bus := by
  by_cases kil : (instruction m.opcode).op = .kil
  · have whole := steppedExecute RamBus.device free
    have fetched : RamBus.device.read m.bus m.cpu.regs.pc = (m.opcode,m.bus) := rfl
    simp only [fetched,kilBody m.cpu kil,Program.runDone] at whole
    simp only [step,whole]
    exact ⟨rfl,trivial⟩
  · cases jumping : (instruction m.opcode).op.template.jumps with
    | false => exact absurd ((stepTarget free).symm.trans trap) (straightTarget kil jumping)
    | true =>
      obtain ⟨regs,bus⟩ := turnsOnly free (jumpingOps _ other jumping)
      rw [trap] at regs
      exact ⟨regs,bus⟩

def steps (m : Machine RamBus) (n : Nat) : Machine RamBus := m.run RamBus.device (List.replicate n .step)

/- How many steps were taken, up to the first that left pc alone or to the limit, and where they led. -/
def untilTrap : Nat → Machine RamBus → Nat × Machine RamBus
  | 0, m => (0,m)
  | limit+1, m =>
      let next := m.step RamBus.device
      if next.cpu.regs.pc = m.cpu.regs.pc then (1,next)
      else
        let rest := untilTrap limit next
        (rest.1+1,rest.2)

def Traps (m : Machine RamBus) : Prop := (m.step RamBus.device).cpu.regs.pc = m.cpu.regs.pc

theorem stepsSucc (m : Machine RamBus) (n : Nat) : m.steps (n+1) = (m.step RamBus.device).steps n := rfl

theorem stepsLast (m : Machine RamBus) (n : Nat) : m.steps (n+1) = (m.steps n).step RamBus.device := by
  rw [steps,List.replicate_succ']
  exact runAppend RamBus.device m _ _

theorem calmSteps {m : Machine RamBus} (calm : m.Calm) (n : Nat) : (m.steps n).Calm := by
  induction n with
  | zero => exact calm
  | succ n ih => rw [stepsLast]; exact calmStep RamBus.device ih

theorem untilTrapSteps (limit : Nat) (m : Machine RamBus) :
    (m.untilTrap limit).2 = m.steps (m.untilTrap limit).1 ∧ (m.untilTrap limit).1 ≤ limit ∧
      (∀ k, k + 1 < (m.untilTrap limit).1 → ¬ (m.steps k).Traps) ∧
      ((m.untilTrap limit).1 < limit → ∃ n, (m.untilTrap limit).1 = n + 1 ∧ (m.steps n).Traps) := by
  induction limit generalizing m with
  | zero => exact ⟨rfl,Nat.le_refl 0,fun k inside => absurd inside (Nat.not_lt_zero _),fun short => absurd short (Nat.not_lt_zero 0)⟩
  | succ limit ih =>
    unfold untilTrap
    dsimp only
    by_cases trap : (m.step RamBus.device).cpu.regs.pc = m.cpu.regs.pc
    · rw [if_pos trap]
      exact ⟨rfl,Nat.succ_pos limit,fun k inside => by omega,fun _ => ⟨0,rfl,trap⟩⟩
    · rw [if_neg trap]
      obtain ⟨left,short,free,stops⟩ := ih (m.step RamBus.device)
      refine ⟨left,Nat.succ_le_succ short,fun k inside => ?_,fun inside => ?_⟩
      · cases k with
        | zero => exact trap
        | succ k => exact free k (by omega)
      · obtain ⟨n,count,here⟩ := stops (by omega)
        exact ⟨n+1,congrArg (· + 1) count,here⟩

theorem trapForever {m : Machine RamBus} (calm : m.Calm) (trap : m.Traps) (other : (instruction m.opcode).op ∉ stackOps)
    (k : Nat) : (m.steps k).cpu.regs = m.cpu.regs ∧ (m.steps k).bus = m.bus := by
  induction k with
  | zero => exact ⟨rfl,rfl⟩
  | succ k ih =>
    obtain ⟨regs,bus⟩ := ih
    have opcode : (m.steps k).opcode = m.opcode := by rw [Machine.opcode,byte,regs,bus]; rfl
    have free := calmExecutes (calmSteps calm k)
    have again : (m.steps k).Traps := by
      rw [Traps,stepTarget free,target,regs,bus]
      exact (stepTarget (calmExecutes calm)).symm.trans trap
    obtain ⟨fixed,still⟩ := trapFixed free again (by rw [opcode]; exact other)
    rw [stepsLast]
    exact ⟨fixed.trans regs,still.trans bus⟩

/-- The suite stops at the first step that leaves pc alone, if there is one below the limit. Unless the
instruction there goes through the stack, no further step changes a register or a byte. -/
theorem suiteVerdict (m : Machine RamBus) (limit : Nat) (calm : m.Calm) :
    let out := m.untilTrap limit
    out.2 = m.steps out.1 ∧ out.1 ≤ limit ∧ (∀ k, k + 1 < out.1 → ¬ (m.steps k).Traps) ∧
    (out.1 < limit → ∃ n, out.1 = n + 1 ∧ (m.steps n).Traps ∧
      ((instruction (m.steps n).opcode).op ∉ stackOps →
        ∀ k, (out.2.steps k).cpu.regs = out.2.cpu.regs ∧ (out.2.steps k).bus = out.2.bus)) := by
  intro out
  obtain ⟨left,short,free,stops⟩ := untilTrapSteps limit m
  refine ⟨left,short,free,fun inside => ?_⟩
  obtain ⟨n,count,trap⟩ := stops inside
  refine ⟨n,count,trap,fun other k => ?_⟩
  have forever := trapForever (calmSteps calm n) trap other
  have last : out.2 = (m.steps n).steps 1 := by
    rw [left,count,stepsLast]
    rfl
  rw [last]
  exact ⟨(forever (k+1)).1.trans (forever 1).1.symm,(forever (k+1)).2.trans (forever 1).2.symm⟩

theorem jumpToItself :
    let m := ramRig [(0x0400,0xe8),(0x0401,0x4c),(0x0402,0x01),(0x0403,0x04)]
    (m.untilTrap 5).1 = 2 ∧ ∀ k, ((m.untilTrap 5).2.steps k).cpu.regs = (m.untilTrap 5).2.cpu.regs := by
  intro m
  have verdict := suiteVerdict m 5 ⟨rfl,rfl⟩
  have count : (m.untilTrap 5).1 = 2 := by decide
  obtain ⟨n,stopped,_,final⟩ := verdict.2.2.2 (by rw [count]; decide)
  have first : n = 1 := by omega
  subst first
  exact ⟨count,fun k => (final (by decide) k).1⟩

end Machine
end Emu6502
