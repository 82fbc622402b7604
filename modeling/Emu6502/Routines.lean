import Emu6502.InstructionSet
import Emu6502.RegisterFrame

/-! Machine code proved with the rules for triples: what a routine of the 6502 does for every
operand, wherever it lies, when the emulator runs it. The instruction set gives one rule for each
kind of instruction the routines are made of. -/
namespace Emu6502
open Total

namespace View
variable {v : View} {i : Instr}

/- The bytes stand in memory from `start` on. -/
def Code (memory : Uint16 → Uint8) (start : Uint16) (bytes : List Uint8) : Prop :=
  ∀ k, (within : k < bytes.length) → memory (start + BitVec.ofNat 16 k) = bytes.get ⟨k,within⟩

instance (memory start bytes) : Decidable (Code memory start bytes) := by unfold Code; infer_instance

section rules

theorem fetchedIs {code : Uint8} (byte : v.memory v.regs.pc = code) : v.fetched = instruction code := by
  rw [fetched,View.code,byte]

theorem passedIs (fetched : v.fetched = i) :
    v.passed = {v.regs with pc := v.regs.pc + BitVec.ofNat 16 (i.mode.operandLength + 1)} := by
  have next : v.regs.pc + 1 + BitVec.ofNat 16 i.mode.operandLength = v.regs.pc + BitVec.ofNat 16 (i.mode.operandLength + 1) := by
    rw [BitVec.add_assoc,Nat.add_comm,BitVec.ofNat_add]
    rfl
  simp only [passed,Registers.advance,fetched,next]

theorem operandByte (fetched : v.fetched = i) (one : i.mode.operandLength = 1) :
    v.operand = zeroPageAddress (v.memory (v.regs.pc + 1)) := by
  simp only [operand,fetched,one]

theorem operandWord (fetched : v.fetched = i) (two : i.mode.operandLength = 2) :
    v.operand = word (v.memory (v.regs.pc + 1)) (v.memory (v.regs.pc + 2)) := by
  have next : v.regs.pc + 1 + 1 = v.regs.pc + 2 := BitVec.add_assoc _ 1 1
  simp only [operand,fetched,two,next]

theorem impliedRule {apply : Registers → Registers} (fetched : v.fetched = i) (template : i.op.template = .implied apply) :
    v.next = ⟨apply v.passed,v.memory,v.cycles + i.cycles⟩ := by
  simp only [next,fetched,template]

theorem readRule {apply : Registers → Uint8 → Registers} (fetched : v.fetched = i) (template : i.op.template = .read apply) :
    v.next = ⟨apply v.passed v.value,v.memory,v.cycles + i.cycles + if i.mode.crosses v.regs v.pointer then 1 else 0⟩ := by
  simp only [next,fetched,template]

theorem storeRule {source : Registers → Uint8} (fetched : v.fetched = i) (template : i.op.template = .store source) :
    v.next = ⟨v.passed,v.store v.address (source v.passed),v.cycles + i.cycles⟩ := by
  simp only [next,fetched,template]

theorem branchRule {flag : Uint8} {set : Bool} (fetched : v.fetched = i) (template : i.op.template = .branch flag set) :
    v.next =
      let target := v.passed.pc + (lowByte v.operand).signExtend 16
      if v.passed.getStatus flag = set then
        ⟨{v.passed with pc := target},v.memory,
          v.cycles + i.cycles + if highByte target = highByte v.passed.pc then 1 else 2⟩
      else ⟨v.passed,v.memory,v.cycles + i.cycles⟩ := by
  simp only [next,fetched,template]

theorem indexedAddress (fetched : v.fetched = i) (mode : i.mode = .absoluteX ∨ i.mode = .absoluteY) :
    v.address = word (v.memory (v.regs.pc + 1)) (v.memory (v.regs.pc + 2)) + (i.mode.index v.regs).setWidth 16 := by
  have operand := operandWord fetched (by rcases mode with mode | mode <;> rw [mode] <;> rfl)
  rcases mode with mode | mode <;> simp only [address,pointer,fetched,mode,Mode.effective,operand]

section indexed
variable {code : Uint8} {base : Uint16} (first : v.memory v.regs.pc = code)
  (low : v.memory (v.regs.pc + 1) = lowByte base) (high : v.memory (v.regs.pc + 2) = highByte base)
  (mode : (instruction code).mode = .absoluteX ∨ (instruction code).mode = .absoluteY)
include first low high mode

theorem indexedCell : v.passed = {v.regs with pc := v.regs.pc + 3} ∧
    v.address = base + ((instruction code).mode.index v.regs).setWidth 16 := by
  have fetched := fetchedIs first
  have address := indexedAddress fetched mode
  rw [low,high,wordBytes] at address
  refine ⟨?_,address⟩
  rw [passedIs fetched]
  rcases mode with mode | mode <;> rw [mode] <;> rfl

theorem loadRule {apply : Registers → Uint8 → Registers} (template : (instruction code).op.template = .read apply) :
    v.next.regs = apply {v.regs with pc := v.regs.pc + 3}
        (v.memory (base + ((instruction code).mode.index v.regs).setWidth 16)) ∧ v.next.memory = v.memory := by
  have fetched := fetchedIs first
  obtain ⟨passed,address⟩ := indexedCell first low high mode
  have memory : v.fetched.mode.addressed = true := by
    rw [fetched]
    rcases mode with mode | mode <;> rw [mode] <;> rfl
  rw [readRule fetched template,passed,value,if_pos memory,address]
  exact ⟨rfl,rfl⟩

theorem saveRule {source : Registers → Uint8} (template : (instruction code).op.template = .store source) :
    v.next.regs = {v.regs with pc := v.regs.pc + 3} ∧
      v.next.memory = v.store (base + ((instruction code).mode.index v.regs).setWidth 16)
        (source {v.regs with pc := v.regs.pc + 3}) := by
  obtain ⟨passed,address⟩ := indexedCell first low high mode
  rw [storeRule (fetchedIs first) template,passed,address]
  exact ⟨rfl,rfl⟩

end indexed

/- An instruction that leaves Z for `counter`, and a BNE behind it. -/
theorem thenBranch {code offset : Uint8} {apply : Registers → Registers} {counter : Registers → Uint8}
    (first : v.memory v.regs.pc = code) (second : v.memory (v.regs.pc + 1) = 0xd0) (last : v.memory (v.regs.pc + 2) = offset)
    (template : (instruction code).op.template = .implied apply) (mode : (instruction code).mode = .null)
    (straight : ∀ regs, (apply regs).pc = regs.pc) (zero : ∀ regs, (apply regs).getStatus flagZ = (counter regs == 0)) :
    let regs := {v.regs with pc := v.regs.pc + 1}
    let target := v.regs.pc + 3 + offset.signExtend 16
    let out := v.next.next
    out.regs = {apply regs with pc := if counter regs = 0 then v.regs.pc + 3 else target} ∧ out.memory = v.memory ∧
      out.cycles = v.cycles + (instruction code).cycles + 2 +
        if counter regs = 0 then 0 else if highByte target = highByte (v.regs.pc + 3) then 1 else 2 := by
  intro regs target out
  have fetched := fetchedIs first
  have passed : v.passed = regs := by
    rw [passedIs fetched,mode]
    rfl
  have next : v.next = ⟨apply regs,v.memory,v.cycles + (instruction code).cycles⟩ := by
    rw [impliedRule fetched template,passed]
  have pc : v.next.regs.pc = v.regs.pc + 1 := by rw [next]; exact straight _
  have bne : v.next.fetched = instruction 0xd0 := fetchedIs (by rw [pc,next]; exact second)
  have ahead : v.next.regs.pc + BitVec.ofNat 16 2 = v.regs.pc + 3 := by rw [pc]; exact BitVec.add_assoc _ 1 2
  have offsets : lowByte v.next.operand = offset := by
    have further : v.regs.pc + 1 + 1 = v.regs.pc + 2 := BitVec.add_assoc _ 1 1
    rw [operandByte bne rfl,lowByteZeroPage,pc,further,next]
    exact last
  have behind : v.next.passed = {apply regs with pc := v.regs.pc + 3} := by
    rw [← ahead,passedIs bne,next]
    rfl
  have branch := branchRule bne rfl
  rw [behind,offsets] at branch
  have status : Registers.getStatus {apply regs with pc := v.regs.pc + 3} flagZ = (counter regs == 0) := zero regs
  dsimp only at branch
  rw [status] at branch
  change out = _ at branch
  rw [next] at branch
  by_cases done : counter regs = 0
  · rw [if_neg (by simp [done])] at branch
    rw [branch,if_pos done,if_pos done]
    exact ⟨rfl,rfl,rfl⟩
  · rw [if_pos (beq_eq_false_iff_ne.mpr done)] at branch
    rw [branch,if_neg done,if_neg done]
    exact ⟨rfl,rfl,rfl⟩

end rules
end View

theorem codeByte {memory : Uint16 → Uint8} {start : Uint16} {bytes : List Uint8} (code : View.Code memory start bytes)
    (k : Nat) {byte : Uint8} (here : bytes[k]? = some byte) : memory (start + BitVec.ofNat 16 k) = byte := by
  obtain ⟨within,same⟩ := List.getElem?_eq_some_iff.mp here
  exact (code k within).trans same

/-! DEX and a BNE back to it. -/

def delayCode : List Uint8 := [0xca,0xd0,0xfd]

def turnPenalty (start : Uint16) : Nat := if highByte start = highByte (start + 3) then 0 else 1

def View.decremented (v : View) : Registers := setNZ {v.regs with x := v.regs.x - 1} (v.regs.x - 1)

theorem zeroSet (regs : Registers) (val : Uint8) : (setNZ regs val).getStatus flagZ = (val == 0) :=
  (Registers.setStatusOther _ flagN _ (by decide)).trans (regs.setStatusReads flagZ _ (by decide))

theorem delayTurn {v : View} (code : View.Code v.memory v.regs.pc delayCode) :
    let out := v.next.next
    out.regs = {v.decremented with pc := if v.regs.x - 1 = 0 then v.regs.pc + 3 else v.regs.pc} ∧ out.memory = v.memory ∧
      out.cycles = v.cycles + if v.regs.x - 1 = 0 then 4 else 5 + turnPenalty v.regs.pc := by
  obtain ⟨regs,memory,cycles⟩ := View.thenBranch (by simpa using codeByte code 0 rfl) (codeByte code 1 rfl)
    (codeByte code 2 rfl) (show (instruction 0xca).op.template = _ from rfl) rfl (fun _ => rfl) fun _ => zeroSet _ _
  have back : v.regs.pc + 3 + (0xfd : Uint8).signExtend 16 = v.regs.pc := by
    rw [BitVec.add_assoc]
    exact BitVec.add_zero _
  rw [back] at regs cycles
  refine ⟨regs,memory,cycles.trans ?_⟩
  change v.cycles + 2 + 2 + _ = _
  unfold turnPenalty
  split
  · rfl
  · split <;> omega

def delayCycles (start : Uint16) : Nat → Nat
  | 0 => 0
  | turns+1 => turns * (5 + turnPenalty start) + 4

structure OnlyX (before after : View) : Prop where
  a : after.regs.a = before.regs.a
  y : after.regs.y = before.regs.y
  sp : after.regs.sp = before.regs.sp
  decimal : after.regs.decimalDisabled = before.regs.decimalDisabled
  flags : after.regs.sr &&& ~~~(flagN ||| flagZ) = before.regs.sr &&& ~~~(flagN ||| flagZ)
  memory : after.memory = before.memory

/- `k` turns to go. -/
structure Delaying (v : View) (total k : Nat) (w : View) : Prop where
  aside : OnlyX v w
  pc : w.regs.pc = if k = 0 then v.regs.pc + 3 else v.regs.pc
  x : w.regs.x = BitVec.ofNat 8 k
  cycles : w.cycles + delayCycles v.regs.pc k = v.cycles + total
  zero : k = 0 → w.regs.getStatus flagZ = true ∧ w.regs.getStatus flagN = false

theorem decrementedAside {v w : View} {pc : Uint16} (regs : w.regs = {v.decremented with pc := pc})
    (memory : w.memory = v.memory) : OnlyX v w := by
  refine ⟨?_,?_,?_,?_,?_,memory⟩ <;> rw [regs]
  all_goals first | rfl | exact setNZKeeps (by decide) (by decide) _ _

theorem onlyTrans {u v w : View} (first : OnlyX u v) (second : OnlyX v w) : OnlyX u w where
  a := second.a.trans first.a
  y := second.y.trans first.y
  sp := second.sp.trans first.sp
  decimal := second.decimal.trans first.decimal
  flags := second.flags.trans first.flags
  memory := second.memory.trans first.memory

theorem counterZero {k : Nat} (short : k < 256) : BitVec.ofNat 8 k = (0 : Uint8) ↔ k = 0 := by
  constructor
  · intro none
    have val := congrArg BitVec.toNat none
    rwa [BitVec.toNat_ofNat,Nat.mod_eq_of_lt short] at val
  · rintro rfl
    rfl

theorem counterLeft {y : Uint8} {k : Nat} (here : y = BitVec.ofNat 8 (k+1)) : y - 1 = BitVec.ofNat 8 k := by
  rw [here,BitVec.ofNat_add]
  exact BitVec.add_sub_cancel _ 1

theorem delayRound {v : View} (code : View.Code v.memory v.regs.pc delayCode) (total : Nat) {k : Nat} (short : k < 256) :
    Triple View.next (Delaying v total (k+1)) (Delaying v total k) := by
  intro w turning
  have start : w.regs.pc = v.regs.pc := turning.pc.trans (if_neg (Nat.succ_ne_zero k))
  have there : View.Code w.memory w.regs.pc delayCode := by rw [turning.aside.memory,start]; exact code
  obtain ⟨regs,memory,spent⟩ := delayTurn there
  have left := counterLeft turning.x
  have cycles := turning.cycles
  simp only [delayCycles] at cycles
  refine after (after (here ?_))
  have aside : OnlyX v w.next.next :=
    onlyTrans turning.aside (decrementedAside regs memory)
  cases k with
  | zero =>
    have zero : w.regs.x - 1 = 0 := left
    rw [if_pos zero] at spent
    refine ⟨aside,?_,?_,?_,fun _ => ?_⟩
    · rw [regs,if_pos zero,start]
      rfl
    · exact (congrArg Registers.x regs).trans left
    · rw [spent]
      simpa [delayCycles] using cycles
    · rw [regs,View.decremented,zero]
      exact ⟨zeroSet _ 0,Registers.setStatusReads _ flagN _ (by decide)⟩
  | succ k =>
    have more : w.regs.x - 1 ≠ 0 := by
      rw [left]
      exact fun none => Nat.succ_ne_zero k ((counterZero short).mp none)
    rw [if_neg more,start] at spent
    refine ⟨aside,?_,?_,?_,fun none => absurd none (Nat.succ_ne_zero k)⟩
    · rw [regs,if_neg more,start]
      rfl
    · exact (congrArg Registers.x regs).trans left
    · rw [spent]
      simp only [delayCycles,Nat.succ_mul] at cycles ⊢
      omega

/- X turns, 256 of them for an X of zero. -/
def turns (x : Uint8) : Nat := if x = 0 then 256 else x.toNat

theorem turnsOf (x : Uint8) : BitVec.ofNat 8 (turns x) = x ∧ 0 < turns x ∧ turns x ≤ 256 := by
  unfold turns
  split
  · rename_i zero
    subst zero
    decide
  · rename_i some
    have bound := x.isLt
    have positive : x.toNat ≠ 0 := fun none => some (BitVec.eq_of_toNat_eq none)
    exact ⟨by simp,by omega,by omega⟩

namespace Machine

/-- DEX and a BNE back to it, anywhere in memory, count X down to zero and go on behind the branch,
in a time that X and the page of the branch fix: five cycles a turn less one, and one more for
every jump back that leaves the page. Nothing but X, N, Z and pc changes. -/
theorem delayTimed (m : Machine RamBus) (calm : m.Calm) (code : View.Code m.memory m.cpu.regs.pc delayCode) :
    ∃ n, let out := m.steps n
      out.cpu.regs.pc = m.cpu.regs.pc + 3 ∧ out.cpu.regs.x = 0 ∧
      out.cpu.regs.getStatus flagZ = true ∧ out.cpu.regs.getStatus flagN = false ∧ OnlyX m.view out.view ∧
      out.cpu.cycles + 1 + turnPenalty m.cpu.regs.pc =
        m.cpu.cycles + turns m.cpu.regs.x * (5 + turnPenalty m.cpu.regs.pc) := by
  obtain ⟨x,some,most⟩ := turnsOf m.cpu.regs.x
  obtain ⟨before,count⟩ := Nat.exists_eq_add_one_of_ne_zero (Nat.pos_iff_ne_zero.mp some)
  rw [count] at x most ⊢
  have entered : Delaying m.view (delayCycles m.cpu.regs.pc (before+1)) (before+1) m.view :=
    ⟨⟨rfl,rfl,rfl,rfl,rfl,rfl⟩,(if_neg (Nat.succ_ne_zero _)).symm,x.symm,rfl,fun none => absurd none (Nat.succ_ne_zero _)⟩
  have spin := Triple.countdown (I := Delaying m.view (delayCycles m.cpu.regs.pc (before+1))) (delayRound code _) most
  obtain ⟨n,done⟩ := m.runsTo calm (spin m.view entered)
  obtain ⟨zero,negative⟩ := done.zero rfl
  refine ⟨n,done.pc,done.x,zero,negative,done.aside,?_⟩
  have cycles := done.cycles
  simp only [delayCycles] at cycles
  change (m.steps n).cpu.cycles + 0 = m.cpu.cycles + _ at cycles
  rw [Nat.succ_mul]
  omega

/- X is zero: 256 turns within one page. -/
theorem pageOfTurns :
    let m := ramRig [(0x0400,0xca),(0x0401,0xd0),(0x0402,0xfd)]
    ∃ n, (m.steps n).cpu.regs.pc = 0x0403 ∧ (m.steps n).cpu.cycles = 1279 := by
  intro m
  obtain ⟨n,pc,_,_,_,_,cycles⟩ := delayTimed m ⟨rfl,rfl⟩ (by decide)
  refine ⟨n,pc,?_⟩
  have penalty : turnPenalty m.cpu.regs.pc = 0 := by decide
  have count : turns m.cpu.regs.x = 256 := by decide
  have zero : m.cpu.cycles = 0 := rfl
  rw [penalty,count,zero] at cycles
  omega

end Machine

/-! LDA, STA, DEY and a BNE back to the LDA: a block copied from its end down. -/

def copyCode (src dst : Uint16) : List Uint8 :=
  [0xb9,lowByte src,highByte src,0x99,lowByte dst,highByte dst,0x88,0xd0,0xf7]

def cell (base : Uint16) (k : Nat) : Uint16 := base + (BitVec.ofNat 8 k).setWidth 16

theorem cellsApart {base : Uint16} {i j : Nat} (less : i < j) (near : j < i + 256) : cell base i ≠ cell base j := by
  intro same
  have bytes := congrArg BitVec.toNat ((BitVec.add_right_inj base).mp same)
  rw [BitVec.toNat_setWidth,BitVec.toNat_setWidth,BitVec.toNat_ofNat,BitVec.toNat_ofNat] at bytes
  omega

def View.copied (v : View) (val : Uint8) : Registers :=
  setNZ {setNZ {v.regs with a := val} val with y := v.regs.y - 1} (v.regs.y - 1)

/- Bytes `k` on from the start are `k - j` on from `j` past it. -/
theorem further (start : Uint16) (j k : Nat) : start + BitVec.ofNat 16 j + BitVec.ofNat 16 k = start + BitVec.ofNat 16 (j + k) := by
  rw [BitVec.add_assoc,BitVec.ofNat_add]

theorem copyRound {v : View} {src dst : Uint16} (code : View.Code v.memory v.regs.pc (copyCode src dst))
    (apart : ∀ k < 9, v.regs.pc + BitVec.ofNat 16 k ≠ dst + v.regs.y.setWidth 16) :
    let val := v.memory (src + v.regs.y.setWidth 16)
    let out := v.next.next.next.next
    out.regs = {v.copied val with pc := if v.regs.y - 1 = 0 then v.regs.pc + 9 else v.regs.pc} ∧
      out.memory = v.store (dst + v.regs.y.setWidth 16) val := by
  intro val out
  obtain ⟨loaded,kept⟩ := View.loadRule (v := v) (by simpa using codeByte code 0 rfl) (codeByte code 1 rfl)
    (codeByte code 2 rfl) (.inr rfl) (show (instruction 0xb9).op.template = _ from rfl)
  have second : v.next.regs.pc = v.regs.pc + 3 := by rw [loaded]; rfl
  have byte (k : Nat) {b : Uint8} (here : (copyCode src dst)[3+k]? = some b) :
      v.next.memory (v.next.regs.pc + BitVec.ofNat 16 k) = b := by
    rw [kept,second]
    exact (congrArg v.memory (further _ 3 k)).trans (codeByte code (3+k) here)
  obtain ⟨saved,stored⟩ := View.saveRule (v := v.next) (by simpa using byte 0 rfl) (byte 1 rfl) (byte 2 rfl)
    (.inr rfl) (show (instruction 0x99).op.template = _ from rfl)
  have third : v.next.next.regs.pc = v.regs.pc + 6 := by
    rw [saved]
    exact (congrArg (· + 3) second).trans (further _ 3 3)
  have memory : v.next.next.memory = v.store (dst + v.regs.y.setWidth 16) val := by
    rw [stored,View.store,kept,loaded]
    rfl
  have last (k : Nat) (inside : 6 + k < 9) {b : Uint8} (here : (copyCode src dst)[6+k]? = some b) :
      v.next.next.memory (v.next.next.regs.pc + BitVec.ofNat 16 k) = b := by
    rw [memory,third]
    refine (congrArg (v.store _ val) (further _ 6 k)).trans ?_
    exact (Function.update_of_ne (apart (6+k) inside) _ _).trans (codeByte code (6+k) here)
  obtain ⟨turned,same,_⟩ := View.thenBranch (v := v.next.next) (by simpa using last 0 (by decide) rfl)
    (last 1 (by decide) rfl) (last 2 (by decide) rfl) (show (instruction 0x88).op.template = _ from rfl) rfl (fun _ => rfl)
    fun _ => zeroSet _ _
  have regs : v.next.next.regs = {setNZ {v.regs with a := val} val with pc := v.regs.pc + 6} := by
    rw [← third,saved,loaded]
    rfl
  have past : v.regs.pc + 6 + 3 = v.regs.pc + 9 := BitVec.add_assoc _ 6 3
  have back : v.regs.pc + 9 + (0xf7 : Uint8).signExtend 16 = v.regs.pc := by
    rw [BitVec.add_assoc]
    exact BitVec.add_zero _
  rw [regs] at turned
  dsimp only at turned
  rw [past,back] at turned
  exact ⟨turned,same.trans memory⟩

/- `k` bytes to go, the highest first. -/
structure Copying (v : View) (src dst : Uint16) (total k : Nat) (w : View) : Prop where
  pc : w.regs.pc = if k = 0 then v.regs.pc + 9 else v.regs.pc
  y : w.regs.y = BitVec.ofNat 8 k
  x : w.regs.x = v.regs.x
  sp : w.regs.sp = v.regs.sp
  flags : w.regs.sr &&& ~~~(flagN ||| flagZ) = v.regs.sr &&& ~~~(flagN ||| flagZ)
  moved : ∀ j, k < j → j ≤ total → w.memory (cell dst j) = v.memory (cell src j)
  rest : ∀ a, (∀ j, k < j → j ≤ total → a ≠ cell dst j) → w.memory a = v.memory a

/- The loop stays off its own bytes, and reads nothing it has already written over. -/
structure CopyApart (start src dst : Uint16) (total : Nat) : Prop where
  code : ∀ j, 0 < j → j ≤ total → ∀ k < 9, start + BitVec.ofNat 16 k ≠ cell dst j
  block : ∀ i j, 0 < i → i < j → j ≤ total → cell src i ≠ cell dst j

theorem codeKept {memory other : Uint16 → Uint8} {start : Uint16} {bytes : List Uint8} (code : View.Code memory start bytes)
    (same : ∀ k < bytes.length, other (start + BitVec.ofNat 16 k) = memory (start + BitVec.ofNat 16 k)) :
    View.Code other start bytes :=
  fun k within => (same k within).trans (code k within)

theorem copyStep {v : View} {src dst : Uint16} {total : Nat} (code : View.Code v.memory v.regs.pc (copyCode src dst))
    (apart : CopyApart v.regs.pc src dst total) (most : total ≤ 256) {k : Nat} (short : k < total) :
    Triple View.next (Copying v src dst total (k+1)) (Copying v src dst total k) := by
  intro w copying
  have start : w.regs.pc = v.regs.pc := copying.pc.trans (if_neg (Nat.succ_ne_zero k))
  have there : View.Code w.memory w.regs.pc (copyCode src dst) := by
    rw [start]
    refine codeKept code fun i inside => copying.rest _ fun j later bound => ?_
    exact apart.code j (Nat.zero_lt_of_lt later) bound i inside
  have source : src + w.regs.y.setWidth 16 = cell src (k+1) := by rw [copying.y]; rfl
  have target : dst + w.regs.y.setWidth 16 = cell dst (k+1) := by rw [copying.y]; rfl
  have outside : ∀ i < 9, w.regs.pc + BitVec.ofNat 16 i ≠ dst + w.regs.y.setWidth 16 := by
    rw [start,target]
    exact apart.code (k+1) (Nat.succ_pos k) short
  obtain ⟨regs,memory⟩ := copyRound there outside
  have left := counterLeft copying.y
  have again := counterZero (Nat.lt_of_lt_of_le short most)
  have val : w.memory (cell src (k+1)) = v.memory (cell src (k+1)) :=
    copying.rest _ fun j later bound => apart.block (k+1) j (Nat.succ_pos k) later bound
  rw [source,target,val] at memory
  refine after (after (after (after (here ⟨?_,?_,?_,?_,?_,?_,?_⟩))))
  · rw [regs]
    simp only [left,again,start]
  · rw [regs]; exact left
  · rw [regs]; exact copying.x
  · rw [regs]; exact copying.sp
  · rw [regs]
    refine Eq.trans ?_ copying.flags
    exact (setNZKeeps (by decide) (by decide) _ _).trans (setNZKeeps (by decide) (by decide) _ _)
  · intro j later bound
    rw [memory]
    rcases Nat.eq_or_lt_of_le later with rfl | above
    · exact Function.update_self ..
    · refine (Function.update_of_ne ?_ _ _).trans (copying.moved j above bound)
      exact (cellsApart above (by omega)).symm
  · intro a outside
    rw [memory]
    refine (Function.update_of_ne (outside (k+1) (Nat.lt_succ_self k) short) _ _).trans ?_
    exact copying.rest a fun j later bound => outside j (Nat.lt_of_succ_lt later) bound

namespace Machine

/-- The copy loop, anywhere in memory and for any two blocks, moves as many bytes as Y says, 256 for
a Y of zero, and changes no other byte. The blocks may overlap as long as no byte is written
over before it is read. -/
theorem copyMoves (m : Machine RamBus) (calm : m.Calm) (src dst : Uint16)
    (code : View.Code m.memory m.cpu.regs.pc (copyCode src dst))
    (apart : CopyApart m.cpu.regs.pc src dst (turns m.cpu.regs.y)) :
    ∃ n, let out := m.steps n
      out.cpu.regs.pc = m.cpu.regs.pc + 9 ∧ out.cpu.regs.y = 0 ∧ out.cpu.regs.x = m.cpu.regs.x ∧
      out.cpu.regs.sp = m.cpu.regs.sp ∧
      out.cpu.regs.sr &&& ~~~(flagN ||| flagZ) = m.cpu.regs.sr &&& ~~~(flagN ||| flagZ) ∧
      (∀ j, 0 < j → j ≤ turns m.cpu.regs.y → out.memory (cell dst j) = m.memory (cell src j)) ∧
      ∀ a, (∀ j, 0 < j → j ≤ turns m.cpu.regs.y → a ≠ cell dst j) → out.memory a = m.memory a := by
  obtain ⟨y,some,most⟩ := turnsOf m.cpu.regs.y
  have entered : Copying m.view src dst (turns m.cpu.regs.y) (turns m.cpu.regs.y) m.view := {
    pc := (if_neg (Nat.pos_iff_ne_zero.mp some)).symm
    y := y.symm
    x := rfl
    sp := rfl
    flags := rfl
    moved := fun j later bound => absurd bound (Nat.not_le_of_lt later)
    rest := fun _ _ => rfl }
  have spin := Triple.countdown (I := Copying m.view src dst (turns m.cpu.regs.y)) (copyStep code apart most) (Nat.le_refl _)
  obtain ⟨n,done⟩ := m.runsTo calm (spin m.view entered)
  exact ⟨n,done.pc,done.y,done.x,done.sp,done.flags,done.moved,done.rest⟩

/- Two bytes from $0500 one up in place. -/
theorem pairMoves :
    let rig := ramRig [(0x0400,0xb9),(0x0401,0x00),(0x0402,0x05),(0x0403,0x99),(0x0404,0x01),(0x0405,0x05),(0x0406,0x88),
      (0x0407,0xd0),(0x0408,0xf7),(0x0501,0x11),(0x0502,0x22)]
    let m : Machine RamBus := ⟨{rig.cpu with regs := {rig.cpu.regs with y := 2}},rig.bus⟩
    ∃ n, (m.steps n).memory 0x0502 = 0x11 ∧ (m.steps n).memory 0x0503 = 0x22 := by
  intro rig m
  have apart : CopyApart 0x0400 0x0500 0x0501 2 := by
    constructor
    · intro j low high
      obtain rfl | rfl : j = 1 ∨ j = 2 := by omega
      all_goals decide
    · intro i j low less high
      obtain rfl : i = 1 := by omega
      obtain rfl : j = 2 := by omega
      decide
  obtain ⟨n,_,_,_,_,_,moved,_⟩ := copyMoves m ⟨rfl,rfl⟩ 0x0500 0x0501 (by decide) apart
  exact ⟨n,moved 1 (by decide) (by decide),moved 2 (by decide) (by decide)⟩

end Machine
end Emu6502
