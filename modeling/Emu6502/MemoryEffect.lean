import Emu6502.AccessSequence

/-! 64 KB of RAM, before a step and after it: where the data access goes, in terms of what memory
held before, and which bytes may differ afterwards. -/
namespace Emu6502
open Interaction

/- Where the low and the high byte of a pointer are, for a mode that has one. -/
def Mode.pointerCells (mode : Mode) (regs : Registers) (zp : Nat) : Nat × Nat :=
  match mode with
  | indirectX => ((zp + regs.x.toNat) % 256,(zp + regs.x.toNat + 1) % 256)
  | _ => (zp,(zp + 1) % 256)

/- The operand and pointer bytes of the instruction at pc, as they stand in memory. -/
def Mode.bytesIn (mode : Mode) (regs : Registers) (memory : Uint16 → Uint8) : Bytes :=
  let first := memory (regs.pc + 1)
  let cells := mode.pointerCells regs first.toNat
  ⟨first,memory (regs.pc + 2),memory (busAddress cells.1),memory (busAddress cells.2)⟩

theorem fetchedStands {mode : Mode} {regs : Registers} {code : Uint8} {b : Bytes} {memory : Uint16 → Uint8}
    (stands : ∀ access ∈ mode.fetchLog regs code b, access.value = memory access.address) :
    let b' := mode.bytesIn regs memory
    mode.fetchLog regs code b = mode.fetchLog regs code b' ∧ mode.reference regs b = mode.reference regs b' ∧
      mode.dummyAddress regs b = mode.dummyAddress regs b' ∧ mode.carries regs b = mode.carries regs b' := by
  have next : regs.pc + 1#16 + 1#16 = regs.pc + 2 := BitVec.add_assoc _ _ _
  obtain ⟨first,second,low,high⟩ := b
  cases mode
  case null | accumulator => exact ⟨rfl,rfl,rfl,rfl⟩
  case immediate | zeroPage | zeroPageX | zeroPageY | relative =>
    simp [Mode.fetchLog,Mode.operandLog,Mode.operandLength,Mode.pointerLog,Access.value,Access.address] at stands
    obtain ⟨_,rfl⟩ := stands
    exact ⟨rfl,rfl,rfl,rfl⟩
  case absConst | absolute | absoluteX | absoluteY | indirect =>
    simp [Mode.fetchLog,Mode.operandLog,Mode.operandLength,Mode.pointerLog,Access.value,Access.address] at stands
    obtain ⟨_,rfl,rfl⟩ := stands
    rw [next]
    exact ⟨rfl,rfl,rfl,rfl⟩
  case indirectX | indirectY =>
    simp [Mode.fetchLog,Mode.operandLog,Mode.operandLength,Mode.pointerLog,Access.value,Access.address,
      Bytes.zp] at stands
    obtain ⟨_,rfl,rfl,rfl⟩ := stands
    exact ⟨rfl,rfl,rfl,rfl⟩

namespace Machine
variable (m : Machine RamBus)

def memory : Uint16 → Uint8 := m.bus.val.read

def bytes (mode : Mode) : Bytes := mode.bytesIn m.cpu.regs m.memory

/- The NMOS 6502's effective address, from the registers and memory of the state before. -/
def effectiveAddress (mode : Mode) : Uint16 := busAddress (mode.reference m.cpu.regs (m.bytes mode))

theorem ramStill (bus : RamBus) (address : Uint16) : RamBus.device.read bus address = (bus.val.read address,bus) := rfl

theorem readsStand {reads rest : List (Access Uint16 Uint8)} (split : m.accesses RamBus.device = reads ++ rest)
    (readOnly : ∀ access ∈ reads, access.isRead = true) :
    ∀ access ∈ reads, access.value = m.memory access.address :=
  Program.runAnswers (ramStill m.bus) split readOnly

/- On RAM the sequence is that of the bytes memory held before. -/
theorem ramSequence {m : Machine RamBus} {code : Uint8} (ran : m.served RamBus.device = .executed code)
    (memory : (instruction code).mode.addressed = true) :
    let i := instruction code
    let regs := m.cpu.regs
    ∃ skipped touched,
      m.accesses RamBus.device = i.mode.fetchLog regs code (m.bytes i.mode) ++
          i.mode.dummyLog regs (m.bytes i.mode) (i.op.template.idles i.mode (i.mode.carries regs (m.bytes i.mode)))
            skipped ++ touched ∧
        i.op.template.Touches (m.cpu.passed code) (m.effectiveAddress i.mode) touched (m.step RamBus.device).cpu.regs := by
  intro i regs
  obtain ⟨b,skipped,touched,whole,touches⟩ := stepSequence RamBus.device ran memory
  have split : m.accesses RamBus.device = i.mode.fetchLog regs code b ++ (_ ++ touched) :=
    whole.trans (List.append_assoc _ _ _)
  have stands := m.readsStand split (fetchReads _ _ _ _)
  obtain ⟨fetched,reference,address,carry⟩ := fetchedStands stands
  refine ⟨skipped,touched,?_,?_⟩
  · unfold bytes
    rw [whole,← carry,← fetched,Mode.dummyLog,Mode.dummyLog,← address]
  · unfold effectiveAddress bytes
    rw [← reference]
    exact touches

/-! What the step leaves in memory. -/

theorem ramRemembers (m : Machine RamBus) :
    (m.step RamBus.device).memory = Program.remember m.memory (m.accesses RamBus.device) := by
  have writes (bus : RamBus) (a : Uint16) (v : Uint8) :
      (RamBus.device.write bus a v).val.read = fun b => if b = a then v else bus.val.read b := by
    funext b
    exact Bus.ramReadWrite bus.property a b v
  exact Program.runRemembers (fun bus : RamBus => bus.val.read) (fun _ _ => rfl) writes m.cpu.step m.bus

theorem readsKeep {m : Machine RamBus} (readOnly : ∀ access ∈ m.accesses RamBus.device, access.isRead = true) :
    (m.step RamBus.device).memory = m.memory := by
  rw [ramRemembers,← List.append_nil (m.accesses RamBus.device),Program.rememberReads m.memory readOnly]
  rfl

theorem ramTouches {m : Machine RamBus} {code : Uint8} (ran : m.served RamBus.device = .executed code)
    (memory : (instruction code).mode.addressed = true) :
    ∃ approach touched, (∀ access ∈ approach, access.isRead = true) ∧ m.accesses RamBus.device = approach ++ touched ∧
      (instruction code).op.template.Touches (m.cpu.passed code) (m.effectiveAddress (instruction code).mode) touched
        (m.step RamBus.device).cpu.regs := by
  obtain ⟨skipped,touched,whole,touches⟩ := ramSequence ran memory
  exact ⟨_,touched,approachReads _ _ _ _ _ _,whole,touches⟩

theorem ramLoads {m : Machine RamBus} {code : Uint8} {apply : Registers → Uint8 → Registers}
    (ran : m.served RamBus.device = .executed code) (memory : (instruction code).mode.addressed = true)
    (template : (instruction code).op.template = .read apply ∨ (instruction code).op.template = .readFlat apply) :
    (m.step RamBus.device).cpu.regs = apply (m.cpu.passed code) (m.memory (m.effectiveAddress (instruction code).mode)) ∧
      (m.step RamBus.device).memory = m.memory := by
  obtain ⟨approach,touched,reads,whole,touches⟩ := ramTouches ran memory
  obtain ⟨val,rfl,left⟩ := touches.loaded template
  have readOnly := readsThen reads (m.effectiveAddress (instruction code).mode) val
  have found : val = m.memory (m.effectiveAddress (instruction code).mode) :=
    m.readsStand (whole.trans (List.append_nil _).symm) readOnly _ (List.mem_append_right _ (List.mem_singleton.mpr rfl))
  rw [← whole] at readOnly
  subst found
  exact ⟨left,readsKeep readOnly⟩

theorem ramRewrites {m : Machine RamBus} {code : Uint8} {result : Registers → Uint8 → Uint8}
    {before : Registers → Uint8 → Uint8 → Registers} {after : Registers → Uint8 → Registers}
    (ran : m.served RamBus.device = .executed code) (memory : (instruction code).mode.addressed = true)
    (template : (instruction code).op.template = .rmw result before after) :
    let regs := m.cpu.passed code
    let ea := m.effectiveAddress (instruction code).mode
    let val := result regs (m.memory ea)
    (m.step RamBus.device).cpu.regs = after (before regs (m.memory ea) val) val ∧
      ∀ address, (m.step RamBus.device).memory address = if address = ea then val else m.memory address := by
  intro regs ea val
  obtain ⟨approach,touched,reads,whole,touches⟩ := ramTouches ran memory
  rw [template] at touches
  obtain ⟨orig,rfl,left⟩ := touches.rewritten
  -- The operand's read is the last before the two writes.
  have split := whole.trans (List.append_assoc approach [.read ea orig] _).symm
  have readOnly := readsThen reads ea orig
  have found : orig = m.memory ea := m.readsStand split readOnly _ (List.mem_append_right _ (List.mem_singleton.mpr rfl))
  subst found
  refine ⟨left,fun address => ?_⟩
  rw [ramRemembers,split,Program.rememberReads m.memory readOnly]
  by_cases here : address = ea
  · rw [if_pos here]
    exact if_pos here
  · rw [if_neg here]
    exact (if_neg here).trans (if_neg here)

end Machine

def shxOps : List Op := [.shx 0,.shx 1,.shx 2,.shx 3]

/- The `n` stack slots a push from `sp` fills. -/
def stackSlots (sp : Uint8) : Nat → List Uint16
  | 0 => []
  | n+1 => stackAddress sp :: stackSlots (sp - 1) n

def Template.pushes (t : Template) (sp : Uint8) : List Uint16 :=
  match t with
  | push _ => stackSlots sp 1
  | jsr => stackSlots sp 2
  | brk => stackSlots sp 3
  | _ => []

def Writes (cells : List Uint16) (log : List (Access Uint16 Uint8)) : Prop :=
  ∀ address value, Access.write address value ∈ log → address ∈ cells

theorem readsWriteNothing {log : List (Access Uint16 Uint8)} (reads : ∀ access ∈ log, access.isRead = true)
    (cells : List Uint16) : Writes cells log :=
  fun _ _ wrote => absurd (reads _ wrote) Bool.false_ne_true

theorem writesAppend {cells : List Uint16} {first last : List (Access Uint16 Uint8)} (before : Writes cells first)
    (after : Writes cells last) : Writes cells (first ++ last) := by
  intro address value wrote
  rcases List.mem_append.mp wrote with wrote | wrote
  · exact before address value wrote
  · exact after address value wrote

/- Off memory operands, an action only reads, or pushes. -/
theorem unaddressedPushes {t : Template} {mode : Mode} (registers : mode.addressed = false)
    (admitted : t.admits mode = true) (cycles : Nat) (regs : Registers) (data : Uint16) :
    (t.action mode cycles regs data).Every fun log _ => Writes (t.pushes regs.sp) log := by
  cases t with
  | read apply | readFlat apply | rmw result before after | store source | shx reg | branch flag set | nop =>
    cases mode <;> first | contradiction | simp [Template.action,Writes,Mode.pointer,Mode.load,Mode.addressed]
  | jmp => cases mode <;> first | contradiction | simp [Template.action,Writes]
  | jsr | brk | push value =>
    simp only [Template.action,Program.everyWrite,Program.everyRead,Program.everyDone,Writes,Template.pushes,
      stackSlots,List.mem_cons,Access.write.injEq]
    grind
  | implied apply | pull apply | rti | rts => simp [Template.action,Writes]

theorem touchesWrite {t : Template} {regs out : Registers} {ea : Uint16} {touched : List (Access Uint16 Uint8)}
    (touches : t.Touches regs ea touched out) : touched ≠ [] ∧ (∀ access ∈ touched, access.address = ea) ∧
      ((∃ apply, t = .read apply ∨ t = .readFlat apply) → ∀ access ∈ touched, access.isRead = true) := by
  cases touches <;> simp [Access.address,Access.isRead]

def Op.pushes (op : Op) (sp : Uint8) : List Uint16 :=
  match op with
  | .pha | .php => stackSlots sp 1
  | .jsr => stackSlots sp 2
  | .brk => stackSlots sp 3
  | _ => []

theorem templatePushes (op : Op) (sp : Uint8) : op.template.pushes sp = op.pushes sp := by
  cases op <;> rfl

theorem unaddressedOps : ∀ code, (instruction code).mode.addressed = false →
    ¬ ((instruction code).op ∈ storeOps ∨ (instruction code).op ∈ shxOps ∨
      ((instruction code).op ∈ rmwOps ∧ (instruction code).mode ≠ .accumulator)) := by
  decide

def Op.knownReg (op : Op) : Bool :=
  match op with
  | .shx reg => decide (reg < 4)
  | _ => true

theorem shxEntries {code : Uint8} {reg : Nat} (op : (instruction code).op = .shx reg) :
    (instruction code).op ∈ shxOps := by
  have known : ∀ code, (instruction code).op.knownReg = true := by decide
  have small := known code
  rw [op] at small ⊢
  have four : reg = 0 ∨ reg = 1 ∨ reg = 2 ∨ reg = 3 := by
    have := of_decide_eq_true small
    omega
  rcases four with rfl | rfl | rfl | rfl <;> decide

namespace Machine
variable (m : Machine RamBus)

/- The bytes a step that does this may change on an NMOS 6502. -/
def writable (served : Served) : List Uint16 :=
  match served with
  | .nmi | .irq => stackSlots m.cpu.regs.sp 3
  | .executed code =>
      let i := instruction code
      if i.op ∈ storeOps ∨ i.op ∈ shxOps ∨ (i.op ∈ rmwOps ∧ i.mode ≠ .accumulator) then [m.effectiveAddress i.mode]
      else i.op.pushes m.cpu.regs.sp

theorem serviceWrites (vector : Uint16) (regs : Registers) (lo hi : Uint8) :
    Writes (stackSlots regs.sp 3) (serviceLog vector regs lo hi) := by
  simp only [Writes,serviceLog,stackSlots,List.mem_cons,Access.write.injEq]
  grind

theorem unaddressedWrites {code : Uint8} (registers : (instruction code).mode.addressed = false) (cpu : Processor) :
    (cpu.instructionBody code).Every fun log _ => Writes ((instruction code).op.pushes cpu.regs.sp) log := by
  unfold Processor.instructionBody
  rw [Program.everyBind,← templatePushes]
  refine Program.everyMono (Mode.operandSequence _ _) fun fetched data found => ?_
  obtain ⟨first,second,operands⟩ := found
  refine Program.everyMono (unaddressedPushes registers (tableAdmits code) _ _ data) fun log out pushes => ?_
  rw [(operands 0 0).1]
  exact writesAppend (readsWriteNothing (operandLogReads _ _ _) _) pushes

theorem addressedWrites {code : Uint8} (ran : m.served RamBus.device = .executed code)
    (memory : (instruction code).mode.addressed = true) :
    Writes (m.writable (.executed code)) (m.accesses RamBus.device) := by
  obtain ⟨skipped,touched,whole,touches⟩ := ramSequence ran memory
  obtain ⟨_,one,reads⟩ := touchesWrite touches
  rw [whole]
  refine writesAppend (writesAppend (readsWriteNothing (fetchReads _ _ _ _) _)
    (readsWriteNothing (dummyReads _ _ _ _ _) _)) ?_
  by_cases changes : (instruction code).op ∈ storeOps ∨ (instruction code).op ∈ shxOps ∨
      ((instruction code).op ∈ rmwOps ∧ (instruction code).mode ≠ .accumulator)
  · intro address value wrote
    simp only [writable,if_pos changes,List.mem_singleton]
    exact one _ wrote
  · rw [not_or,not_or] at changes
    obtain ⟨store,shx,rmw⟩ := changes
    have inMemory : (instruction code).mode ≠ .accumulator := by
      intro accumulator
      rw [accumulator] at memory
      contradiction
    refine readsWriteNothing (reads (readTemplate memory (tableAdmits code) (fun reg op => shx (shxEntries op))
      (fun found => rmw ⟨found,inMemory⟩) store)) _

theorem writesWritable : Writes (m.writable (m.served RamBus.device)) (m.accesses RamBus.device) := by
  by_cases memory : ∃ code, m.served RamBus.device = .executed code ∧ (instruction code).mode.addressed = true
  · obtain ⟨code,ran,memory⟩ := memory
    rw [ran]
    exact addressedWrites m ran memory
  · have stepped := m.isStepped RamBus.device
    generalize m.served RamBus.device = served at stepped memory ⊢
    generalize m.accesses RamBus.device = log at stepped ⊢
    generalize (m.step RamBus.device).cpu = next at stepped
    cases stepped with
    | nmi pending lo hi => exact serviceWrites _ _ lo hi
    | irq quiet line clear lo hi => exact serviceWrites _ _ lo hi
    | executed free code log cost regs path =>
      have registers : (instruction code).mode.addressed = false := by
        rw [Bool.eq_false_iff]
        exact fun addressed => memory ⟨code,rfl,addressed⟩
      have writes := path _ (unaddressedWrites registers m.cpu)
      simp only [writable,if_neg (unaddressedOps code registers)]
      exact @writesAppend _ [_] _ (readsWriteNothing (List.forall_mem_singleton.mpr rfl) _) writes

theorem writesChange {cells : List Uint16} (writes : Writes cells (m.accesses RamBus.device)) (address : Uint16)
    (outside : address ∉ cells) : (m.step RamBus.device).memory address = m.memory address := by
  refine Program.runKeeps (I := fun bus : RamBus => bus.val.read address = m.memory address)
    (d := RamBus.device) (fun _ _ same => same) (p := m.cpu.step) (s := m.bus) rfl fun a v wrote bus same => ?_
  have apart : address ≠ a := fun here => outside (here ▸ writes a v wrote)
  exact (Bus.ramReadWrite bus.property a address v).trans ((if_neg apart).trans same)

/-! JMP ($nnnn): the high byte of its target comes from the vector's own page. -/

def vector (b : Bytes) : Nat × Nat := (b.absolute,b.absolute / 256 * 256 + (b.absolute + 1) % 256)

theorem vectorHigh (lo hi low high : Uint8) :
    (word lo hi &&& 0xff00) ||| ((word lo hi + 1) &&& 0x00ff) = busAddress (vector ⟨lo,hi,low,high⟩).2 := by
  have unfixed := Mode.unfixedAddress (word lo hi) 1
  rw [wordNat] at unfixed
  exact unfixed

theorem jmpIndirect (cpu : Processor) :
    (cpu.instructionBody 0x6c).Every fun log out => ∃ b lo hi,
      .read cpu.regs.pc 0x6c :: log = Mode.indirect.fetchLog cpu.regs 0x6c b ++
          [.read (busAddress (vector b).1) lo,.read (busAddress (vector b).2) hi] ∧ out.2.pc = word lo hi := by
  have entry : instruction 0x6c = ⟨.jmp,.indirect,5⟩ := by decide
  unfold Processor.instructionBody
  rw [entry]
  intro first second lo hi
  have vectorLow : word first second = busAddress (vector ⟨first,second,0,0⟩).1 := busAddressOf (wordNat _ _)
  refine ⟨⟨first,second,0,0⟩,lo,hi,?_,rfl⟩
  rw [← vectorLow,← vectorHigh]
  rfl

theorem ramJmpIndirect (ran : m.served RamBus.device = .executed 0x6c) :
    let cells := vector (m.bytes .indirect)
    let lo := m.memory (busAddress cells.1)
    let hi := m.memory (busAddress cells.2)
    m.accesses RamBus.device = Mode.indirect.fetchLog m.cpu.regs 0x6c (m.bytes .indirect) ++
        [.read (busAddress cells.1) lo,.read (busAddress cells.2) hi] ∧
      (m.step RamBus.device).cpu.regs.pc = word lo hi := by
  obtain ⟨log,cost,accesses,b,lo,hi,whole,target⟩ := m.executedEvery RamBus.device ran (jmpIndirect m.cpu)
  rw [← accesses] at whole
  have read := m.readsStand (whole.trans (List.append_nil _).symm) (by
    rw [List.forall_mem_append]
    exact ⟨fetchReads _ _ _ _,by simp [Access.isRead]⟩)
  obtain ⟨fetched,pointed⟩ := List.forall_mem_append.mp read
  have same := (fetchedStands fetched).1
  have bytes : b.first = (m.bytes .indirect).first ∧ b.second = (m.bytes .indirect).second := by
    simpa [Mode.fetchLog,Mode.operandLog,Mode.operandLength,Mode.pointerLog,bytes] using same
  have cells : vector b = vector (m.bytes .indirect) := by
    simp only [vector,Bytes.absolute,bytes.1,bytes.2]
  rw [cells] at whole pointed
  simp only [List.forall_mem_cons,Access.value,Access.address] at pointed
  obtain ⟨rfl,rfl,_⟩ := pointed
  exact ⟨whole.trans (congrArg (· ++ _) same),target⟩

/-- Every data access is at the effective address of the state before, JMP ($nnnn) fetches its
target from the vector, and a step changes no byte but the one stored to and the slots pushed. -/
theorem addressesAndFrame (m : Machine RamBus) :
    (∀ code, m.served RamBus.device = .executed code → (instruction code).mode.addressed = true →
      let i := instruction code
      let b := m.bytes i.mode
      let idle := i.op.template.idles i.mode (i.mode.carries m.cpu.regs b)
      ∃ skipped touched, m.accesses RamBus.device = i.mode.fetchLog m.cpu.regs code b ++
          i.mode.dummyLog m.cpu.regs b idle skipped ++ touched ∧
        touched ≠ [] ∧ ∀ access ∈ touched, access.address = m.effectiveAddress i.mode) ∧
    (m.served RamBus.device = .executed 0x6c →
      let cells := vector (m.bytes .indirect)
      let lo := m.memory (busAddress cells.1)
      let hi := m.memory (busAddress cells.2)
      m.accesses RamBus.device = Mode.indirect.fetchLog m.cpu.regs 0x6c (m.bytes .indirect) ++
          [.read (busAddress cells.1) lo,.read (busAddress cells.2) hi] ∧
        (m.step RamBus.device).cpu.regs.pc = word lo hi) ∧
    ∀ address, address ∉ m.writable (m.served RamBus.device) →
      (m.step RamBus.device).memory address = m.memory address := by
  refine ⟨fun code ran memory => ?_,m.ramJmpIndirect,m.writesChange m.writesWritable⟩
  obtain ⟨skipped,touched,whole,touches⟩ := ramSequence ran memory
  obtain ⟨some,one,_⟩ := touchesWrite touches
  exact ⟨skipped,touched,whole,some,one⟩

end Machine
end Emu6502
