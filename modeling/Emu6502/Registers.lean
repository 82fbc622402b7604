/-! The architectural state of emu_base.h: fixed-width integers, the status bits
and the plain register record every instruction is handed. -/
namespace Emu6502

abbrev Uint8 := BitVec 8
abbrev Uint16 := BitVec 16

/-! Flags6502. -/
abbrev flagC : Uint8 := 0x01
abbrev flagZ : Uint8 := 0x02
abbrev flagI : Uint8 := 0x04
abbrev flagD : Uint8 := 0x08
abbrev flagB : Uint8 := 0x10
abbrev flagU : Uint8 := 0x20  -- FLAG__
abbrev flagV : Uint8 := 0x40
abbrev flagN : Uint8 := 0x80

def word (lo hi : Uint8) : Uint16 := lo.setWidth 16 ||| (hi.setWidth 16 <<< 8)

def lowByte (w : Uint16) : Uint8 := w.setWidth 8
def highByte (w : Uint16) : Uint8 := (w >>> 8).setWidth 8

theorem wordBytes (w : Uint16) : word (lowByte w) (highByte w) = w := by
  ext i hi
  simp only [word,lowByte,highByte,BitVec.getElem_or,BitVec.getElem_setWidth,BitVec.getElem_shiftLeft,
    BitVec.getLsbD_setWidth,BitVec.getLsbD_ushiftRight]
  by_cases low : i < 8
  · simp [low,BitVec.getLsbD_eq_getElem hi]
  · have back : 8 + (i-8) = i := by omega
    simp [low,back,BitVec.getLsbD_eq_getElem hi]
    omega

theorem wordLow (lo hi : Uint8) : lowByte (word lo hi) = lo := by
  apply BitVec.eq_of_getLsbD_eq
  intro i within
  simp [lowByte,word,within]

theorem wordHigh (lo hi : Uint8) : highByte (word lo hi) = hi := by
  apply BitVec.eq_of_getLsbD_eq
  intro i within
  simp [highByte,word,within,show 8 + i < 16 by omega]

theorem pageMask : ∀ i < 16, (0xff00 : Uint16).getLsbD i = decide (8 ≤ i) := by decide

theorem samePage (a b : Uint16) :
    a &&& (0xff00 : Uint16) = b &&& (0xff00 : Uint16) ↔ highByte a = highByte b := by
  constructor
  · intro same
    apply BitVec.eq_of_getLsbD_eq
    intro i hi
    have bit := congrArg (fun w => BitVec.getLsbD w (8+i)) same
    simp only [BitVec.getLsbD_and] at bit
    rw [pageMask (8+i) (by omega)] at bit
    simpa [highByte,hi] using bit
  · intro same
    apply BitVec.eq_of_getLsbD_eq
    intro i hi
    rw [BitVec.getLsbD_and,BitVec.getLsbD_and,pageMask i hi]
    by_cases low : i < 8
    · simp [show ¬ 8 ≤ i by omega]
    · have bit := congrArg (fun w => BitVec.getLsbD w (i-8)) same
      have back : 8 + (i-8) = i := by omega
      have small : i - 8 < 8 := by omega
      simp only [highByte,BitVec.getLsbD_setWidth,BitVec.getLsbD_ushiftRight,back,small,decide_true,
        Bool.true_and] at bit
      rw [bit]

structure Registers where
  a : Uint8
  x : Uint8
  y : Uint8
  sr : Uint8
  sp : Uint8
  pc : Uint16
  decimalDisabled : Bool := false
  deriving DecidableEq, Repr

namespace Registers

def setStatus (regs : Registers) (flag : Uint8) (v : Bool) : Registers :=
  {regs with sr := if v then regs.sr ||| flag else regs.sr &&& ~~~flag}

def getStatus (regs : Registers) (flag : Uint8) : Bool := (regs.sr &&& flag) != 0

section setStatus
variable (regs : Registers) (flag : Uint8) (v : Bool)

@[simp] theorem setStatusA : (regs.setStatus flag v).a = regs.a := rfl
@[simp] theorem setStatusX : (regs.setStatus flag v).x = regs.x := rfl
@[simp] theorem setStatusY : (regs.setStatus flag v).y = regs.y := rfl
@[simp] theorem setStatusSp : (regs.setStatus flag v).sp = regs.sp := rfl
@[simp] theorem setStatusPc : (regs.setStatus flag v).pc = regs.pc := rfl
@[simp] theorem setStatusDecimalDisabled :
    (regs.setStatus flag v).decimalDisabled = regs.decimalDisabled := rfl

theorem setStatusKeeps {keep : Uint8} (outside : flag &&& keep = 0) :
    (regs.setStatus flag v).sr &&& keep = regs.sr &&& keep := by
  have bitwise : ∀ i, flag.getLsbD i = true → keep.getLsbD i = false := by
    intro i set
    have h := congrArg (fun b => b.getLsbD i) outside
    simpa [set] using h
  apply BitVec.eq_of_getLsbD_eq
  intro i hi
  cases v <;> simp only [setStatus,if_true,Bool.false_eq_true,if_false,BitVec.getLsbD_and,
    BitVec.getLsbD_or,BitVec.getLsbD_not,hi] <;>
  · have h := bitwise i
    cases hf : flag.getLsbD i <;> cases hk : keep.getLsbD i <;> simp_all

theorem setStatusReads (single : flag ≠ 0) : (regs.setStatus flag v).getStatus flag = v := by
  cases v with
  | false =>
    have empty : regs.sr &&& ~~~flag &&& flag = 0 := by
      rw [BitVec.and_assoc]
      simp
    simp [setStatus,getStatus,empty]
  | true =>
    have whole : (regs.sr ||| flag) &&& flag = flag := by
      apply BitVec.eq_of_getLsbD_eq
      intro i hi
      cases h : flag.getLsbD i <;> simp [h]
    simpa [setStatus,getStatus,whole] using single

theorem setStatusOther {other : Uint8} (apart : flag &&& other = 0) :
    (regs.setStatus flag v).getStatus other = regs.getStatus other := by
  simp only [getStatus,setStatusKeeps regs flag v apart]

end setStatus

end Registers
end Emu6502
