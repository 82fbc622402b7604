import Emu6502.Routines
import Emu6502.MultiByte

/-! The addition of two numbers of any number of bytes as a 6502 program: a loop over ADC that
leaves the carry to the next turn. INX, DEY and BNE close the turn and do not touch it. -/
namespace Emu6502
open Total CarryChain

/- What ADC leaves in A and C comes from A, C and the decimal mode alone. -/
theorem adcSame (regs other : Registers) (a : regs.a = other.a) (carry : carryFlag regs = carryFlag other)
    (mode : regs.decimalMode = other.decimalMode) (val : Uint8) :
    (adcCore regs val).a = (adcCore other val).a ∧ carryFlag (adcCore regs val) = carryFlag (adcCore other val) := by
  unfold carryFlag at carry ⊢
  have result : adcResult regs val = adcResult other val := by simp only [adcResult,a,carry]
  have adjusted : adcAdjusted regs val = adcAdjusted other val := by simp only [adcAdjusted,result,a,carry]
  cases decimal : regs.decimalMode with
  | false =>
    have first := adcBinary decimal val
    have second := adcBinary (mode.symm.trans decimal) val
    rw [first.1,second.1,first.2.1,second.2.1,result]
    exact ⟨rfl,rfl⟩
  | true =>
    have first := adcDecimal decimal val
    have second := adcDecimal (mode.symm.trans decimal) val
    rw [first.1,second.1,first.2,second.2,adjusted]
    exact ⟨rfl,rfl⟩

/-! LDA, ADC, STA, INX, DEY and a BNE back to the LDA. -/

def addCode (left right sum : Uint16) : List Uint8 :=
  [0xbd,lowByte left,highByte left,0x7d,lowByte right,highByte right,0x9d,lowByte sum,highByte sum,0xe8,0x88,0xd0,0xf3]

def loadedWith (regs : Registers) (val : Uint8) : Registers := setNZ {regs with a := val} val

theorem carrySetNZ (regs : Registers) (val : Uint8) : carryFlag (setNZ regs val) = carryFlag regs :=
  (Registers.setStatusOther _ flagN _ (by decide)).trans (regs.setStatusOther flagZ _ (by decide))

theorem decimalSetNZ (regs : Registers) (val : Uint8) : (setNZ regs val).decimalMode = regs.decimalMode := by
  have flag : (setNZ regs val).getStatus flagD = regs.getStatus flagD :=
    (Registers.setStatusOther _ flagN _ (by decide)).trans (regs.setStatusOther flagZ _ (by decide))
  simp only [Registers.decimalMode,flag]
  rfl

theorem adcIndexes (regs : Registers) (val : Uint8) :
    (adcCore regs val).x = regs.x ∧ (adcCore regs val).y = regs.y ∧ (adcCore regs val).sp = regs.sp :=
  iteInduction (motive := fun out => Registers.x out = regs.x ∧ Registers.y out = regs.y ∧ Registers.sp out = regs.sp)
    (fun _ => ⟨rfl,rfl,rfl⟩) fun _ => ⟨rfl,rfl,rfl⟩

/- What a turn leaves that began in `v` and added `left` and `right`. -/
structure Added (v : View) (left right : Uint8) (w : View) : Prop where
  pc : w.regs.pc = if v.regs.y - 1 = 0 then v.regs.pc + 13 else v.regs.pc
  x : w.regs.x = v.regs.x + 1
  y : w.regs.y = v.regs.y - 1
  sp : w.regs.sp = v.regs.sp
  carry : carryFlag w.regs = carryFlag (adcCore (loadedWith v.regs left) right)
  mode : w.regs.decimalMode = v.regs.decimalMode

/- The sum of `left` and `right` is in A and C, the next instruction `k` bytes into the loop. -/
structure Summed (v : View) (left right : Uint8) (k : Nat) (w : View) : Prop where
  pc : w.regs.pc = v.regs.pc + BitVec.ofNat 16 k
  x : w.regs.x = v.regs.x
  y : w.regs.y = v.regs.y
  sp : w.regs.sp = v.regs.sp
  a : w.regs.a = (adcCore (loadedWith v.regs left) right).a
  carry : carryFlag w.regs = carryFlag (adcCore (loadedWith v.regs left) right)
  mode : w.regs.decimalMode = v.regs.decimalMode

section turn
variable {v : View} {left right sum : Uint16} (code : View.Code v.memory v.regs.pc (addCode left right sum))
include code

theorem sumLoaded :
    Summed v (v.memory (left + v.regs.x.setWidth 16)) (v.memory (right + v.regs.x.setWidth 16)) 6 v.next.next ∧
      v.next.next.memory = v.memory := by
  obtain ⟨loaded,kept⟩ := View.loadRule (v := v) (by simpa using codeByte code 0 rfl) (codeByte code 1 rfl)
    (codeByte code 2 rfl) (.inl rfl) (show (instruction 0xbd).op.template = _ from rfl)
  have second : v.next.regs.pc = v.regs.pc + 3 := by rw [loaded]; rfl
  have byte (k : Nat) {b : Uint8} (here : (addCode left right sum)[3+k]? = some b) :
      v.next.memory (v.next.regs.pc + BitVec.ofNat 16 k) = b := by
    rw [kept,second]
    exact (congrArg v.memory (further _ 3 k)).trans (codeByte code (3+k) here)
  obtain ⟨added,still⟩ := View.loadRule (v := v.next) (by simpa using byte 0 rfl) (byte 1 rfl) (byte 2 rfl)
    (.inl rfl) (show (instruction 0x7d).op.template = _ from rfl)
  generalize memoryLeft : v.memory (left + v.regs.x.setWidth 16) = x
  generalize memoryRight : v.memory (right + v.regs.x.setWidth 16) = y
  have whole : v.next.next.regs = adcCore {loadedWith v.regs x with pc := v.regs.pc + 6} y := by
    have third : v.regs.pc + 3 + 3 = v.regs.pc + 6 := further _ 3 3
    rw [← third,← memoryLeft,← memoryRight]
    rw [kept,loaded] at added
    exact added
  obtain ⟨a,carry⟩ := adcSame {loadedWith v.regs x with pc := v.regs.pc + 6} (loadedWith v.regs x) rfl rfl rfl y
  obtain ⟨indexX,indexY,sp⟩ := adcIndexes {loadedWith v.regs x with pc := v.regs.pc + 6} y
  refine ⟨⟨?_,?_,?_,?_,?_,?_,?_⟩,still.trans kept⟩ <;> rw [whole]
  · exact (adcCoreAside _ _).pc
  · exact indexX
  · exact indexY
  · exact sp
  · exact a
  · exact carry
  · exact (adcKeepsDecimal _ _).trans (decimalSetNZ {v.regs with a := x, pc := v.regs.pc + 6} x)

variable {x y : Uint8} {w : View}

theorem sumStored (summed : Summed v x y 6 w) (kept : w.memory = v.memory) :
    Summed v x y 9 w.next ∧ w.next.memory = v.store (sum + v.regs.x.setWidth 16) (adcCore (loadedWith v.regs x) y).a := by
  have byte (k : Nat) {b : Uint8} (here : (addCode left right sum)[6+k]? = some b) :
      w.memory (w.regs.pc + BitVec.ofNat 16 k) = b := by
    rw [kept,summed.pc,further]
    exact codeByte code (6+k) here
  obtain ⟨saved,stored⟩ := View.saveRule (v := w) (by simpa using byte 0 rfl) (byte 1 rfl) (byte 2 rfl)
    (.inl rfl) (show (instruction 0x9d).op.template = _ from rfl)
  refine ⟨⟨?_,?_,?_,?_,?_,?_,?_⟩,?_⟩
  · rw [saved,summed.pc]
    exact further _ 6 3
  · rw [saved]; exact summed.x
  · rw [saved]; exact summed.y
  · rw [saved]; exact summed.sp
  · rw [saved]; exact summed.a
  · rw [saved]; exact summed.carry
  · rw [saved]; exact summed.mode
  · rw [stored,View.store,kept]
    change Function.update v.memory (sum + w.regs.x.setWidth 16) w.regs.a = _
    rw [summed.x,summed.a]
    rfl

theorem sumClosed (summed : Summed v x y 9 w)
    (same : ∀ k, 9 ≤ k → k < 13 → w.memory (v.regs.pc + BitVec.ofNat 16 k) = v.memory (v.regs.pc + BitVec.ofNat 16 k)) :
    Added v x y w.next.next.next ∧ w.next.next.next.memory = w.memory := by
  have last (k : Nat) (low : 9 ≤ k) (inside : k < 13) {b : Uint8} (here : (addCode left right sum)[k]? = some b) :
      w.memory (v.regs.pc + BitVec.ofNat 16 k) = b := (same k low inside).trans (codeByte code k here)
  have inx : w.fetched = instruction 0xe8 :=
    View.fetchedIs (by rw [summed.pc]; exact last 9 (by decide) (by decide) rfl)
  have passed : w.passed = {w.regs with pc := v.regs.pc + 10} := by
    rw [View.passedIs inx,summed.pc,further]
    rfl
  have stepped : w.next = ⟨setNZ {w.regs with x := w.regs.x + 1, pc := v.regs.pc + 10} (w.regs.x + 1),w.memory,w.cycles + 2⟩ := by
    rw [View.impliedRule inx (show (instruction 0xe8).op.template = _ from rfl),passed]
    rfl
  have regs := congrArg View.regs stepped
  have fourth : w.next.regs.pc = v.regs.pc + 10 := congrArg Registers.pc regs
  have final (k : Nat) (inside : 10 + k < 13) {b : Uint8} (here : (addCode left right sum)[10+k]? = some b) :
      w.next.memory (w.next.regs.pc + BitVec.ofNat 16 k) = b := by
    rw [fourth,stepped]
    exact (congrArg w.memory (further _ 10 k)).trans (last (10+k) (by omega) inside here)
  obtain ⟨turned,kept,_⟩ := View.thenBranch (v := w.next) (by simpa using final 0 (by decide) rfl)
    (final 1 (by decide) rfl) (final 2 (by decide) rfl) (show (instruction 0x88).op.template = _ from rfl) rfl (fun _ => rfl)
    fun _ => zeroSet _ _
  have past : v.regs.pc + 10 + 3 = v.regs.pc + 13 := further _ 10 3
  have back : v.regs.pc + 13 + (0xf3 : Uint8).signExtend 16 = v.regs.pc := by
    rw [BitVec.add_assoc]
    exact BitVec.add_zero _
  have counter : w.next.regs.y = v.regs.y := (congrArg Registers.y regs).trans summed.y
  have status {keep : Uint8} (hN : flagN &&& keep = 0) (hZ : flagZ &&& keep = 0) :
      w.next.next.next.regs.sr &&& keep = w.regs.sr &&& keep := by
    refine (congrArg (fun r => Registers.sr r &&& keep) turned).trans ((setNZKeeps hN hZ _ _).trans ?_)
    exact (congrArg (fun r => Registers.sr r &&& keep) regs).trans (setNZKeeps hN hZ _ _)
  refine ⟨⟨?_,?_,?_,?_,?_,?_⟩,kept.trans (congrArg View.memory stepped :)⟩
  · refine (congrArg Registers.pc turned).trans ?_
    dsimp only
    rw [counter,fourth,past,back]
  · refine (congrArg Registers.x turned).trans ((congrArg Registers.x regs).trans ?_)
    exact congrArg (· + 1) summed.x
  · refine (congrArg Registers.y turned).trans ?_
    exact congrArg (· - 1) counter
  · exact (congrArg Registers.sp turned).trans ((congrArg Registers.sp regs).trans summed.sp)
  · exact (congrArg (· != 0) (status (by decide) (by decide))).trans summed.carry
  · refine Eq.trans ?_ summed.mode
    have counted : w.next.next.next.regs.decimalDisabled = w.next.regs.decimalDisabled :=
      (congrArg Registers.decimalDisabled turned :)
    have enabled : w.next.next.next.regs.decimalDisabled = w.regs.decimalDisabled :=
      counted.trans (congrArg Registers.decimalDisabled regs :)
    simp only [Registers.decimalMode,Registers.getStatus,enabled,status (show flagN &&& flagD = 0 by decide) (by decide)]

theorem addRound (apart : ∀ k < 13, v.regs.pc + BitVec.ofNat 16 k ≠ sum + v.regs.x.setWidth 16) :
    let x := v.memory (left + v.regs.x.setWidth 16)
    let y := v.memory (right + v.regs.x.setWidth 16)
    let out := v.next.next.next.next.next.next
    Added v x y out ∧ out.memory = v.store (sum + v.regs.x.setWidth 16) (adcCore (loadedWith v.regs x) y).a := by
  intro x y out
  obtain ⟨loaded,kept⟩ := sumLoaded code
  obtain ⟨stored,memory⟩ := sumStored code loaded kept
  obtain ⟨added,same⟩ := sumClosed code stored fun k _ inside => by
    rw [memory]
    exact Function.update_of_ne (apart k inside) _ _
  exact ⟨added,same.trans memory⟩

end turn

def number (memory : Uint16 → Uint8) (base : Uint16) (n : Nat) : List Uint8 :=
  (List.range n).map fun i => memory (cell base i)

def operands (memory : Uint16 → Uint8) (left right : Uint16) (n : Nat) : List (Uint8 × Uint8) :=
  (List.range n).map fun i => (memory (cell left i),memory (cell right i))

/- The loop stays off its own bytes, and a byte of the sum is not read as one of an operand later on. -/
structure AddApart (start left right sum : Uint16) (total : Nat) : Prop where
  code : ∀ i < total, ∀ k < 13, start + BitVec.ofNat 16 k ≠ cell sum i
  left : ∀ i j, i < j → j < total → cell left j ≠ cell sum i
  right : ∀ i j, i < j → j < total → cell right j ≠ cell sum i

/- `done` bytes added, `k` to go. -/
structure Adding (v : View) (left right sum : Uint16) (done k : Nat) (w : View) : Prop where
  pc : w.regs.pc = if k = 0 then v.regs.pc + 13 else v.regs.pc
  x : w.regs.x = BitVec.ofNat 8 done
  y : w.regs.y = BitVec.ofNat 8 k
  sp : w.regs.sp = v.regs.sp
  mode : w.regs.decimalMode = v.regs.decimalMode
  digits : number w.memory sum done = (chain (byteStep adcCore) v.regs (operands v.memory left right done)).1
  carry : carryFlag w.regs = carryFlag (chain (byteStep adcCore) v.regs (operands v.memory left right done)).2
  rest : ∀ a, (∀ i < done, a ≠ cell sum i) → w.memory a = v.memory a

theorem chainMode (regs : Registers) (pairs : List (Uint8 × Uint8)) :
    (chain (byteStep adcCore) regs pairs).2.decimalMode = regs.decimalMode := by
  have closed : Closed (byteStep adcCore) (fun r => r.decimalMode = regs.decimalMode) fun _ => True :=
    ⟨fun kept _ _ => (adcKeepsDecimal _ _).trans kept,fun _ _ _ => trivial⟩
  exact (chainClosed closed rfl fun _ _ => ⟨trivial,trivial⟩).1

theorem operandsNext (memory : Uint16 → Uint8) (left right : Uint16) (n : Nat) :
    operands memory left right (n+1) = operands memory left right n ++ [(memory (cell left n),memory (cell right n))] := by
  simp [operands,List.range_succ]

theorem numberNext (memory : Uint16 → Uint8) (base : Uint16) (n : Nat) :
    number memory base (n+1) = number memory base n ++ [memory (cell base n)] := by
  simp [number,List.range_succ]

theorem addStep {v w : View} {left right sum : Uint16} {total done k : Nat}
    (code : View.Code v.memory v.regs.pc (addCode left right sum)) (apart : AddApart v.regs.pc left right sum total)
    (most : total ≤ 256) (whole : done + (k+1) = total) (adding : Adding v left right sum done (k+1) w) :
    Reaches View.next (Adding v left right sum (done+1) k) w := by
  have start : w.regs.pc = v.regs.pc := adding.pc.trans (if_neg (Nat.succ_ne_zero k))
  have there : View.Code w.memory w.regs.pc (addCode left right sum) := by
    rw [start]
    exact codeKept code fun j inside => adding.rest _ fun i earlier => apart.code i (by omega) j inside
  have index (base : Uint16) : base + w.regs.x.setWidth 16 = cell base done := by rw [adding.x]; rfl
  have outside : ∀ j < 13, w.regs.pc + BitVec.ofNat 16 j ≠ sum + w.regs.x.setWidth 16 := by
    rw [start,index]
    exact apart.code done (by omega)
  obtain ⟨added,memory⟩ := addRound there outside
  have leftByte : w.memory (cell left done) = v.memory (cell left done) :=
    adding.rest _ fun i earlier => apart.left i done earlier (by omega)
  have rightByte : w.memory (cell right done) = v.memory (cell right done) :=
    adding.rest _ fun i earlier => apart.right i done earlier (by omega)
  rw [index,index,index,leftByte,rightByte] at memory
  rw [index,index,leftByte,rightByte] at added
  -- The byte and the carry are those of the chain, whose registers differ in what ADC does not read.
  generalize before : (chain (byteStep adcCore) v.regs (operands v.memory left right done)).2 = regs
  have mode : regs.decimalMode = v.regs.decimalMode := by
    rw [← before]
    exact chainMode _ _
  have flag : carryFlag w.regs = carryFlag regs := adding.carry.trans (congrArg carryFlag before :)
  obtain ⟨byte,carry⟩ := adcSame (loadedWith w.regs (v.memory (cell left done))) {regs with a := v.memory (cell left done)}
    rfl ((carrySetNZ _ _).trans flag)
    ((decimalSetNZ _ _).trans (adding.mode.trans mode.symm)) (v.memory (cell right done))
  have next := chainConcat (byteStep adcCore) v.regs (operands v.memory left right done) (v.memory (cell left done))
    (v.memory (cell right done))
  rw [← operandsNext] at next
  dsimp only at next
  rw [before] at next
  refine after (after (after (after (after (after (here ⟨?_,?_,?_,?_,?_,?_,?_,?_⟩))))))
  · refine added.pc.trans ?_
    simp only [counterLeft adding.y,counterZero (show k < 256 by omega),start]
  · rw [added.x,adding.x,BitVec.ofNat_add]
    rfl
  · rw [added.y]
    exact counterLeft adding.y
  · exact added.sp.trans adding.sp
  · exact added.mode.trans adding.mode
  · have earlier : number w.next.next.next.next.next.next.memory sum done = number w.memory sum done := by
      refine List.map_congr_left fun i member => ?_
      rw [memory]
      exact Function.update_of_ne (cellsApart (List.mem_range.mp member) (by omega)) _ _
    rw [numberNext,earlier,adding.digits,next,memory]
    exact congrArg (_ ++ [·]) ((Function.update_self ..).trans byte)
  · rw [added.carry,next]
    exact carry
  · intro a outer
    rw [memory]
    refine (Function.update_of_ne (outer done (Nat.lt_succ_self done)) _ _).trans ?_
    exact adding.rest a fun i earlier => outer i (Nat.lt_succ_of_lt earlier)

namespace Machine

end Machine
end Emu6502
