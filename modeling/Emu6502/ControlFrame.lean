import Emu6502.InterruptGate

/-! Which instructions may change the control state: I, D, V, the stack pointer and, for
those that change none, the working registers. Whatever a step changes, the operation it
executed is on the list, or it serviced an interrupt. -/
namespace Emu6502
open Interaction

def iWriters : List Op := [.cli,.sei,.plp,.rti,.brk]
def dWriters : List Op := [.cld,.sed,.plp,.rti]
def vWriters : List Op := [.adc,.sbc,.bit,.clv,.plp,.rti,.rra,.isc,.arr]
def spWriters : List Op := [.pha,.php,.pla,.plp,.jsr,.rts,.rti,.brk,.txs,.shx 3,.las]

/- Stores, SAX, SHA, SHX, SHY, TAS, NOPs, branches, jumps, pushes and TXS. -/
def bystanders : List Op :=
  [.sta,.stx,.sty,.sax,.shx 0,.shx 1,.shx 2,.shx 3,.nop,.nopr,.bcc,.bcs,.beq,.bmi,.bne,.bpl,.bvc,.bvs,.jmp,.jsr,
    .pha,.php,.txs]

theorem flagsOutside (op : Op) :
    (op ∉ iWriters → op.statusWrites &&& flagI = 0) ∧ (op ∉ dWriters → op.statusWrites &&& flagD = 0) ∧
      (op ∉ vWriters → op.statusWrites &&& flagV = 0) := by
  cases op
  case shx reg => exact ⟨fun _ => BitVec.zero_and,fun _ => BitVec.zero_and,fun _ => BitVec.zero_and⟩
  all_goals decide

def Keeps {α : Type} (field : Registers → α) (before after : Registers) : Prop := field after = field before

theorem keepsFrame {α : Type} {field : Registers → α} (jump : ∀ regs pc, field {regs with pc := pc} = field regs) :
    Frame (Keeps field) where
  refl _ := rfl
  trans first second := second.trans first
  jump := jump

theorem flagWithin {flag : Uint8} {op : Op} (outside : op.statusWrites &&& flag = 0) :
    op.template.Within (Keeps (·.getStatus flag)) :=
  (opStatusWithin op outside).mono fun _ _ kept => statusKeptReads kept

theorem spWithin (op : Op) (other : op ∉ spWriters) : op.template.Within (Keeps Registers.sp) := by
  have adcKeeps (regs : Registers) (val : Uint8) : Keeps Registers.sp regs (adcCore regs val) :=
    iteInduction (motive := Keeps Registers.sp regs) (fun _ => rfl) fun _ => rfl
  cases op
  case adc => exact adcKeeps
  case rra => exact ⟨fun _ _ _ => rfl,adcKeeps,fun _ _ => rfl⟩
  case shx reg =>
    have free : reg ≠ 3 := fun tas => other (by simp [tas,spWriters])
    intro regs
    rw [if_neg free]
    rfl
  all_goals
    first
    | exact trivial
    | exact fun _ => rfl
    | exact fun _ _ => rfl
    | exact ⟨fun _ _ _ => rfl,fun _ _ => rfl,fun _ _ => rfl⟩
    | exact absurd (by decide) other

def working (regs : Registers) : Uint8 × Uint8 × Uint8 × Uint8 := (regs.a,regs.x,regs.y,regs.sr)

theorem bystanderWithin (op : Op) (listed : op ∈ bystanders) : op.template.Within (Keeps working) := by
  have shxKeeps (reg : Nat) : (shxImpl reg).Within (Keeps working) := fun regs =>
    iteInduction (motive := Keeps working regs) (fun _ => rfl) fun _ => rfl
  simp only [bystanders,List.mem_cons,List.not_mem_nil,or_false] at listed
  rcases listed with rfl | rfl | rfl | rfl | rfl | rfl | rfl | rfl | rfl | rfl | rfl | rfl | rfl | rfl | rfl | rfl |
    rfl | rfl | rfl | rfl | rfl | rfl | rfl
  all_goals
    first
    | exact trivial
    | exact shxKeeps _
    | exact fun _ => rfl
    | exact fun _ _ => rfl

theorem serviceKeeps (regs : Registers) (lo hi : Uint8) {flag : Uint8} (apart : flagI &&& flag = 0) :
    Keeps (·.getStatus flag) regs (serviceRegs regs lo hi) := regs.setStatusOther flagI true apart

namespace Machine
variable {σ : Type} (d : Device Uint16 Uint8 σ)

def Changes {α : Type} (m : Machine σ) (field : Registers → α) : Prop := field (m.step d).cpu.regs ≠ field m.cpu.regs

def Services (m : Machine σ) : Prop := m.served d = .nmi ∨ m.served d = .irq

def ExecutesOp (m : Machine σ) (ops : List Op) : Prop :=
  ∃ code, m.served d = .executed code ∧ (instruction code).op ∈ ops

theorem executedKeeps {α : Type} {field : Registers → α} (jump : ∀ regs pc, field {regs with pc := pc} = field regs)
    {m : Machine σ} {code : Uint8} (ran : m.served d = .executed code)
    (within : (instruction code).op.template.Within (Keeps field)) :
    field (m.step d).cpu.regs = field m.cpu.regs := by
  obtain ⟨log,cost,_,kept⟩ := executedEvery d ran (instructionFrame (keepsFrame jump) m.cpu code within)
  exact kept

theorem changedBy {α : Type} {field : Registers → α} (jump : ∀ regs pc, field {regs with pc := pc} = field regs)
    {writers : List Op} (others : ∀ op, op ∉ writers → op.template.Within (Keeps field)) {m : Machine σ}
    (changes : m.Changes d field) : m.Services d ∨ m.ExecutesOp d writers := by
  cases ran : m.served d with
  | nmi => exact .inl (.inl ran)
  | irq => exact .inl (.inr ran)
  | executed code =>
    right
    by_contra unlisted
    have other : (instruction code).op ∉ writers := fun listed => unlisted ⟨code,ran,listed⟩
    exact changes (executedKeeps d jump ran (others _ other))

theorem servicedKeeps {α : Type} {field : Registers → α} (kept : ∀ regs lo hi, Keeps field regs (serviceRegs regs lo hi))
    {m : Machine σ} (services : m.Services d) : ¬ m.Changes d field := by
  have stepped := m.isStepped d
  intro changes
  unfold Services at services
  unfold Changes at changes
  generalize m.accesses d = log at stepped
  generalize m.served d = served at stepped services
  generalize (m.step d).cpu = next at stepped changes
  cases stepped with
  | nmi pending lo hi => exact changes (kept _ lo hi)
  | irq quiet line clear lo hi => exact changes (kept _ lo hi)
  | executed free code log cost regs path => simp at services

/-- What a step changes of the control state, it may change. -/
theorem controlFrame (m : Machine σ) :
    (m.Changes d (·.getStatus flagI) → m.Services d ∨ m.ExecutesOp d iWriters) ∧
    (m.Changes d (·.getStatus flagD) → m.ExecutesOp d dWriters) ∧
    (m.Changes d (·.getStatus flagV) → m.ExecutesOp d vWriters) ∧
    (m.Changes d Registers.sp → m.Services d ∨ m.ExecutesOp d spWriters) ∧
    (m.ExecutesOp d bystanders →
      (m.step d).cpu.regs.a = m.cpu.regs.a ∧ (m.step d).cpu.regs.x = m.cpu.regs.x ∧
        (m.step d).cpu.regs.y = m.cpu.regs.y ∧ (m.step d).cpu.regs.sr = m.cpu.regs.sr) ∧
    ¬ m.Changes d Registers.decimalDisabled := by
  have byService {flag : Uint8} (apart : flagI &&& flag = 0) {writers : List Op}
      (changes : m.Changes d (·.getStatus flag)) (changed : m.Services d ∨ m.ExecutesOp d writers) :
      m.ExecutesOp d writers :=
    changed.resolve_left fun services =>
      servicedKeeps d (fun regs lo hi => serviceKeeps regs lo hi apart) services changes
  refine ⟨?_,fun changes => byService (by decide) changes ?_,fun changes => byService (by decide) changes ?_,?_,?_,?_⟩
  · exact changedBy d (fun _ _ => rfl) fun op other => flagWithin ((flagsOutside op).1 other)
  · exact changedBy d (fun _ _ => rfl) (fun op other => flagWithin ((flagsOutside op).2.1 other)) changes
  · exact changedBy d (fun _ _ => rfl) (fun op other => flagWithin ((flagsOutside op).2.2 other)) changes
  · exact changedBy d (fun _ _ => rfl) spWithin
  · rintro ⟨code,ran,listed⟩
    have kept := executedKeeps d (fun _ _ => rfl) ran (bystanderWithin _ listed)
    simpa [working] using kept
  · intro changes
    exact changes (Program.everyRun (stepDecimal m.cpu) d m.bus)

end Machine
end Emu6502
