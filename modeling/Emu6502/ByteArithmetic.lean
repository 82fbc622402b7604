import Emu6502.RegisterFrame

/-! One byte through adcCore and sbcCore: the equation between operands, result and carry,
in binary and, on packed decimal digits, in decimal; in binary also what V and N report. -/
namespace Emu6502

def Registers.decimalMode (regs : Registers) : Bool := !regs.decimalDisabled && regs.getStatus flagD

theorem binaryMode {regs : Registers} (binary : regs.getStatus flagD = false ∨ regs.decimalDisabled = true) :
    regs.decimalMode = false := by
  rcases binary with clear | disabled
  · simp only [Registers.decimalMode,clear,Bool.and_false]
  · simp only [Registers.decimalMode,disabled,Bool.not_true,Bool.false_and]

theorem topBit (w : Uint16) : ((w &&& 0x80) != 0) = (lowByte w).msb := by
  have mask : (0x80 : Uint16) = BitVec.twoPow 16 7 := by decide
  have bit : (lowByte w).msb = w.getLsbD 7 := by simp [lowByte,BitVec.msb_setWidth]
  rw [mask,BitVec.and_twoPow,bit]
  cases w.getLsbD 7 <;> decide

theorem overflowBit (a val : Uint8) (res : Uint16) :
    ((~~~(a.setWidth 16 ^^^ val.setWidth 16) &&& (a.setWidth 16 ^^^ res) &&& 0x80) != 0) =
      (a.msb == val.msb && a.msb != (lowByte res).msb) := by
  rw [topBit]
  cases left : a.msb <;> cases right : val.msb <;> simp [lowByte,left,right]

theorem underflowBit (a val : Uint8) (res : Uint16) :
    (((a.setWidth 16 ^^^ val.setWidth 16) &&& (a.setWidth 16 ^^^ res) &&& 0x80) != 0) =
      (a.msb != val.msb && a.msb != (lowByte res).msb) := by
  rw [topBit]
  simp [lowByte]

theorem lowNibble (v : Uint8) : (v &&& 0xf).toNat = v.toNat % 16 := by
  rw [BitVec.toNat_and]
  exact Nat.and_two_pow_sub_one_eq_mod v.toNat 4

/-! What the cores leave alone. -/

theorem adcKeepsDecimal (regs : Registers) (val : Uint8) : (adcCore regs val).decimalMode = regs.decimalMode := by
  have flag : (adcCore regs val).sr &&& flagD = regs.sr &&& flagD :=
    adcCoreKeeps (by decide) (by decide) (by decide) (by decide) regs val
  simp only [Registers.decimalMode,Registers.getStatus,flag,(adcCoreAside regs val).decimal]

theorem sbcKeepsDecimal (regs : Registers) (val : Uint8) : (sbcCore regs val).decimalMode = regs.decimalMode := by
  have flag : (sbcCore regs val).sr &&& flagD = regs.sr &&& flagD :=
    sbcCoreKeeps (by decide) (by decide) (by decide) (by decide) regs val
  simp only [Registers.decimalMode,Registers.getStatus,flag]
  rfl

/-! The 16-bit intermediates. -/

def adcResult (regs : Registers) (val : Uint8) : Uint16 :=
  regs.a.setWidth 16 + val.setWidth 16 + (if regs.getStatus flagC then 1 else 0)

def sbcResult (regs : Registers) (val : Uint8) : Uint16 :=
  regs.a.setWidth 16 - val.setWidth 16 - (if regs.getStatus flagC then 0 else 1)

theorem adcResultNat (regs : Registers) (val : Uint8) :
    (adcResult regs val).toNat = regs.a.toNat + val.toNat + (regs.getStatus flagC).toNat := by
  have := regs.a.isLt
  have := val.isLt
  unfold adcResult
  cases regs.getStatus flagC <;> simp <;> omega

theorem sbcResultNat (regs : Registers) (val : Uint8) :
    (sbcResult regs val).toNat =
      (regs.a.toNat + 65536 - val.toNat - (!regs.getStatus flagC).toNat) % 65536 := by
  have := regs.a.isLt
  have := val.isLt
  unfold sbcResult
  cases regs.getStatus flagC <;> simp <;> omega

theorem lowByteNat (w : Uint16) : (lowByte w).toNat = w.toNat % 256 := by simp [lowByte]

section binary
variable {regs : Registers} (binary : regs.decimalMode = false) (val : Uint8)
include binary

theorem adcCoreBinary :
    adcCore regs val =
      let res := adcResult regs val
      {(((regs.setStatus flagZ ((res &&& 0xff) == 0)).setStatus flagV
        ((~~~(regs.a.setWidth 16 ^^^ val.setWidth 16) &&& (regs.a.setWidth 16 ^^^ res) &&& 0x80) != 0)).setStatus
          flagC (decide (res > 0x00ff))).setStatus flagN ((res &&& 0x80) != 0) with a := lowByte res} := by
  have off (v : Bool) :
      (!(regs.setStatus flagZ v).decimalDisabled && (regs.setStatus flagZ v).getStatus flagD) ≠ true := by
    rw [Registers.setStatusOther regs flagZ v (by decide)]
    exact ne_true_of_eq_false binary
  simp only [adcCore]
  rw [if_neg (off _)]
  rfl

theorem sbcCoreBinary :
    sbcCore regs val =
      let res := sbcResult regs val
      {((regs.setStatus flagV
        (((regs.a.setWidth 16 ^^^ val.setWidth 16) &&& (regs.a.setWidth 16 ^^^ res) &&& 0x80) != 0)).setStatus
          flagN ((res &&& 0x80) != 0)).setStatus flagZ ((res &&& 0xff) == 0) with a := lowByte res}.setStatus
            flagC (decide (res < 0x100)) := by
  have off (v n z : Bool) :
      (!(((regs.setStatus flagV v).setStatus flagN n).setStatus flagZ z).decimalDisabled &&
        (((regs.setStatus flagV v).setStatus flagN n).setStatus flagZ z).getStatus flagD) ≠ true := by
    rw [Registers.setStatusOther _ flagZ z (by decide),Registers.setStatusOther _ flagN n (by decide),
      Registers.setStatusOther _ flagV v (by decide)]
    exact ne_true_of_eq_false binary
  simp only [sbcCore]
  rw [if_neg (off _ _ _)]
  rfl

theorem adcBinary :
    (adcCore regs val).a = lowByte (adcResult regs val) ∧
    (adcCore regs val).getStatus flagC = decide (adcResult regs val > 0x00ff) ∧
    (adcCore regs val).getStatus flagN = (adcCore regs val).a.msb ∧
    (adcCore regs val).getStatus flagV =
      (regs.a.msb == val.msb && regs.a.msb != (adcCore regs val).a.msb) := by
  rw [adcCoreBinary binary]
  refine ⟨rfl,?_,?_,?_⟩
  · refine (Registers.setStatusOther _ flagN _ (by decide)).trans ?_
    exact Registers.setStatusReads _ _ _ (by decide)
  · refine (Registers.setStatusReads _ flagN _ (by decide)).trans ?_
    exact topBit _
  · refine (Registers.setStatusOther _ flagN _ (by decide)).trans ?_
    refine (Registers.setStatusOther _ flagC _ (by decide)).trans ?_
    refine (Registers.setStatusReads _ flagV _ (by decide)).trans ?_
    exact overflowBit _ _ _

theorem sbcBinary :
    (sbcCore regs val).a = lowByte (sbcResult regs val) ∧
    (sbcCore regs val).getStatus flagC = decide (sbcResult regs val < 0x100) ∧
    (sbcCore regs val).getStatus flagN = (sbcCore regs val).a.msb ∧
    (sbcCore regs val).getStatus flagV =
      (regs.a.msb != val.msb && regs.a.msb != (sbcCore regs val).a.msb) := by
  rw [sbcCoreBinary binary]
  refine ⟨rfl,?_,?_,?_⟩
  · exact Registers.setStatusReads _ _ _ (by decide)
  · refine (Registers.setStatusOther _ flagC _ (by decide)).trans ?_
    refine (Registers.setStatusOther _ flagZ _ (by decide)).trans ?_
    refine (Registers.setStatusReads _ flagN _ (by decide)).trans ?_
    exact topBit _
  · refine (Registers.setStatusOther _ flagC _ (by decide)).trans ?_
    refine (Registers.setStatusOther _ flagZ _ (by decide)).trans ?_
    refine (Registers.setStatusOther _ flagN _ (by decide)).trans ?_
    refine (Registers.setStatusReads _ flagV _ (by decide)).trans ?_
    exact underflowBit _ _ _

theorem adcSum :
    (adcCore regs val).a.toNat + 256 * ((adcCore regs val).getStatus flagC).toNat =
      regs.a.toNat + val.toNat + (regs.getStatus flagC).toNat := by
  obtain ⟨result,carry,_,_⟩ := adcBinary binary val
  have wide := adcResultNat regs val
  rw [result,carry,lowByteNat,← wide]
  have bound : (adcResult regs val).toNat < 512 := by
    have := regs.a.isLt
    have := val.isLt
    have := Bool.toNat_le (regs.getStatus flagC)
    omega
  have carryNat : decide (adcResult regs val > 0x00ff) = decide (256 ≤ (adcResult regs val).toNat) := rfl
  rw [carryNat]
  by_cases carried : 256 ≤ (adcResult regs val).toNat
  · simp only [carried,decide_true,Bool.toNat_true]
    omega
  · simp only [carried,decide_false,Bool.toNat_false]
    omega

theorem sbcDifference :
    (sbcCore regs val).a.toNat + val.toNat + (!regs.getStatus flagC).toNat =
      regs.a.toNat + 256 * (!(sbcCore regs val).getStatus flagC).toNat := by
  obtain ⟨result,carry,_,_⟩ := sbcBinary binary val
  have wide := sbcResultNat regs val
  have := regs.a.isLt
  have := val.isLt
  have := Bool.toNat_le (!regs.getStatus flagC)
  rw [result,carry,lowByteNat]
  have carryNat : decide (sbcResult regs val < 0x100) = decide ((sbcResult regs val).toNat < 256) := rfl
  rw [carryNat]
  by_cases clear : (sbcResult regs val).toNat < 256
  · simp only [clear,decide_true,Bool.not_true,Bool.toNat_false]
    omega
  · simp only [clear,decide_false,Bool.not_false,Bool.toNat_true]
    omega

end binary
/-! Packed decimal. -/

def Bcd (v : Uint8) : Prop := v.toNat / 16 ≤ 9 ∧ v.toNat % 16 ≤ 9

def bcd (v : Uint8) : Nat := 10 * (v.toNat / 16) + v.toNat % 16

theorem bcdSmall {v : Uint8} (valid : Bcd v) : bcd v < 100 := by
  obtain ⟨high,low⟩ := valid
  unfold bcd
  omega

theorem encodedBcd {w : Uint16} {t : Nat} (top : Nat) (digits : w.toNat = 256 * top + 16 * (t % 100 / 10) + t % 10) :
    Bcd (lowByte w) ∧ bcd (lowByte w) = t % 100 := by
  have tens : t % 100 / 10 ≤ 9 := by omega
  have units : t % 10 ≤ 9 := by omega
  have whole : t % 100 = 10 * (t % 100 / 10) + t % 10 := by omega
  rw [whole,Bcd,bcd,lowByteNat,digits]
  generalize t % 100 / 10 = q at tens ⊢
  generalize t % 10 = m at units ⊢
  have low : (256 * top + 16 * q + m) % 256 = 16 * q + m := by omega
  rw [low]
  omega

/- The sum with its low digit corrected, of which N and V are taken. -/
def adcMiddle (regs : Registers) (val : Uint8) : Uint16 :=
  let digits := (regs.a &&& 0xf).toNat + (val &&& 0xf).toNat + (if regs.getStatus flagC then 1 else 0)
  if digits > 9 then adcResult regs val + 6 else adcResult regs val

def adcAdjusted (regs : Registers) (val : Uint8) : Uint16 :=
  let digits := (regs.a &&& 0xf).toNat + (val &&& 0xf).toNat + (if regs.getStatus flagC then 1 else 0)
  let res := if digits > 9 then adcResult regs val + 6 else adcResult regs val
  if res > 0x99 then res + 96 else res

def sbcAdjusted (regs : Registers) (val : Uint8) : Uint16 :=
  let borrow : Int := if regs.getStatus flagC then 0 else 1
  let res := if ((regs.a &&& 0x0f).toNat : Int) - borrow < ((val &&& 0x0f).toNat : Int) then sbcResult regs val - 6
    else sbcResult regs val
  if res > 0x99 then res - 0x60 else res

section decimal
variable {regs : Registers} (decimal : regs.decimalMode = true) (val : Uint8)
include decimal

theorem adcCoreDecimal :
    adcCore regs val =
      let middle := adcMiddle regs val
      let res := adcAdjusted regs val
      {(((regs.setStatus flagZ ((adcResult regs val &&& 0xff) == 0)).setStatus flagN ((middle &&& 0x80) != 0)).setStatus
        flagV (((regs.a ^^^ val) &&& 0x80) == 0 && ((regs.a.setWidth 16 ^^^ middle) &&& 0x80) != 0)).setStatus
          flagC (decide (res > 0x99)) with a := lowByte res} := by
  have on (v : Bool) :
      (!(regs.setStatus flagZ v).decimalDisabled && (regs.setStatus flagZ v).getStatus flagD) = true := by
    rw [Registers.setStatusOther regs flagZ v (by decide)]
    exact decimal
  have carryIn (v : Bool) : (regs.setStatus flagZ v).getStatus flagC = regs.getStatus flagC :=
    Registers.setStatusOther regs flagZ v (by decide)
  simp only [adcCore]
  rw [if_pos (on _)]
  simp only [carryIn]
  rfl

theorem sbcCoreDecimal :
    sbcCore regs val =
      let res := sbcResult regs val
      {((regs.setStatus flagV
        (((regs.a.setWidth 16 ^^^ val.setWidth 16) &&& (regs.a.setWidth 16 ^^^ res) &&& 0x80) != 0)).setStatus
          flagN ((res &&& 0x80) != 0)).setStatus flagZ ((res &&& 0xff) == 0) with
            a := lowByte (sbcAdjusted regs val)}.setStatus flagC (decide (sbcAdjusted regs val < 0x100)) := by
  have on (v n z : Bool) :
      (!(((regs.setStatus flagV v).setStatus flagN n).setStatus flagZ z).decimalDisabled &&
        (((regs.setStatus flagV v).setStatus flagN n).setStatus flagZ z).getStatus flagD) = true := by
    rw [Registers.setStatusOther _ flagZ z (by decide),Registers.setStatusOther _ flagN n (by decide),
      Registers.setStatusOther _ flagV v (by decide)]
    exact decimal
  have carryIn (v n z : Bool) :
      (((regs.setStatus flagV v).setStatus flagN n).setStatus flagZ z).getStatus flagC = regs.getStatus flagC := by
    rw [Registers.setStatusOther _ flagZ z (by decide),Registers.setStatusOther _ flagN n (by decide),
      Registers.setStatusOther _ flagV v (by decide)]
  simp only [sbcCore]
  rw [if_pos (on _ _ _)]
  simp only [carryIn]
  rfl

theorem adcDecimal :
    (adcCore regs val).a = lowByte (adcAdjusted regs val) ∧
    (adcCore regs val).getStatus flagC = decide (adcAdjusted regs val > 0x99) := by
  rw [adcCoreDecimal decimal]
  exact ⟨rfl,Registers.setStatusReads _ flagC _ (by decide)⟩

theorem sbcDecimal :
    (sbcCore regs val).a = lowByte (sbcAdjusted regs val) ∧
    (sbcCore regs val).getStatus flagC = decide (sbcAdjusted regs val < 0x100) := by
  rw [sbcCoreDecimal decimal]
  exact ⟨rfl,Registers.setStatusReads _ flagC _ (by decide)⟩

end decimal

/- The intermediates in decimal digits. Each correction turns a digit above nine into its
decimal digit and a carry, each borrow into a digit of the ten's complement. -/
section
variable (regs : Registers) {val : Uint8} (left : Bcd regs.a) (right : Bcd val)
include left right

theorem adcAdjustedNat (t : Nat) (sum : t = bcd regs.a + bcd val + (regs.getStatus flagC).toNat) :
    (adcAdjusted regs val).toNat = (if 100 ≤ t then 256 else 0) + 16 * (t % 100 / 10) + t % 10 := by
  obtain ⟨leftHigh,leftLow⟩ := left
  obtain ⟨rightHigh,rightLow⟩ := right
  have wide := adcResultNat regs val
  have bit (c : Bool) : (if c = true then 1 else 0) = c.toNat := by cases c <;> rfl
  have carry := Bool.toNat_le (regs.getStatus flagC)
  unfold bcd at sum
  simp only [adcAdjusted,gt_iff_lt,BitVec.lt_def,apply_ite BitVec.toNat,BitVec.toNat_add,lowNibble,bit,
    show (0x99 : Uint16).toNat = 153 from rfl,show (6 : Uint16).toNat = 6 from rfl,
    show (96 : Uint16).toNat = 96 from rfl]
  generalize (adcResult regs val).toNat = r at wide ⊢
  generalize (regs.getStatus flagC).toNat = c at wide carry sum ⊢
  by_cases low : 9 < regs.a.toNat % 16 + val.toNat % 16 + c
  · simp only [low,if_true]
    by_cases high : 100 ≤ t
    · rw [if_pos (by omega),if_pos high]
      omega
    · rw [if_neg (by omega),if_neg high]
      omega
  · simp only [low,if_false]
    by_cases high : 100 ≤ t
    · rw [if_pos (by omega),if_pos high]
      omega
    · rw [if_neg (by omega),if_neg high]
      omega

theorem sbcAdjustedNat (t : Nat)
    (difference : t + bcd val + (!regs.getStatus flagC).toNat = bcd regs.a + 100) :
    (sbcAdjusted regs val).toNat = (if 100 ≤ t then 0 else 65280) + 16 * (t % 100 / 10) + t % 10 := by
  obtain ⟨leftHigh,leftLow⟩ := left
  obtain ⟨rightHigh,rightLow⟩ := right
  have wide := sbcResultNat regs val
  have bit (c : Bool) : (if c = true then (0 : Int) else 1) = ((!c).toNat : Int) := by cases c <;> rfl
  have carry := Bool.toNat_le (!regs.getStatus flagC)
  unfold bcd at difference
  simp only [sbcAdjusted,gt_iff_lt,BitVec.lt_def,apply_ite BitVec.toNat,BitVec.toNat_sub,lowNibble,bit,
    show (0x99 : Uint16).toNat = 153 from rfl,show (6 : Uint16).toNat = 6 from rfl,
    show (0x60 : Uint16).toNat = 96 from rfl]
  generalize (sbcResult regs val).toNat = r at wide ⊢
  generalize (!regs.getStatus flagC).toNat = c at wide carry difference ⊢
  by_cases high : 100 ≤ t
  · have plain : r + val.toNat + c = regs.a.toNat := by omega
    rw [if_pos high]
    by_cases low : ((regs.a.toNat % 16 : Nat) : Int) - (c : Int) < ((val.toNat % 16 : Nat) : Int)
    · simp only [low,if_true]
      have back : (2 ^ 16 - 6 + r) % 2 ^ 16 = r - 6 := by omega
      rw [back,if_neg (by omega)]
      omega
    · simp only [low,if_false]
      rw [if_neg (by omega)]
      omega
  · have plain : r + val.toNat + c = regs.a.toNat + 65536 := by omega
    rw [if_neg high]
    by_cases low : ((regs.a.toNat % 16 : Nat) : Int) - (c : Int) < ((val.toNat % 16 : Nat) : Int)
    · simp only [low,if_true]
      have back : (2 ^ 16 - 6 + r) % 2 ^ 16 = r - 6 := by omega
      rw [back,if_pos (by omega)]
      omega
    · simp only [low,if_false]
      rw [if_pos (by omega)]
      omega

end

section
variable {regs : Registers} (decimal : regs.decimalMode = true) {val : Uint8} (left : Bcd regs.a) (right : Bcd val)
include decimal left right

theorem adcDecimalSum :
    Bcd (adcCore regs val).a ∧
    bcd (adcCore regs val).a + 100 * ((adcCore regs val).getStatus flagC).toNat =
      bcd regs.a + bcd val + (regs.getStatus flagC).toNat := by
  obtain ⟨result,carry⟩ := adcDecimal decimal val
  obtain ⟨t,sum⟩ : ∃ t, t = bcd regs.a + bcd val + (regs.getStatus flagC).toNat := ⟨_,rfl⟩
  have adjusted := adcAdjustedNat regs left right t sum
  have carryNat : decide (adcAdjusted regs val > 0x99) = decide (153 < (adcAdjusted regs val).toNat) := rfl
  have bound : t < 200 := by
    have := bcdSmall left
    have := bcdSmall right
    have := Bool.toNat_le (regs.getStatus flagC)
    omega
  rw [result,carry,carryNat,← sum]
  by_cases high : 100 ≤ t
  · rw [if_pos high] at adjusted
    obtain ⟨valid,encoded⟩ := encodedBcd 1 adjusted
    rw [encoded,decide_eq_true (by omega),Bool.toNat_true]
    exact ⟨valid,by omega⟩
  · rw [if_neg high] at adjusted
    obtain ⟨valid,encoded⟩ := encodedBcd 0 adjusted
    rw [encoded,decide_eq_false (by omega),Bool.toNat_false]
    exact ⟨valid,by omega⟩

theorem sbcDecimalDifference :
    Bcd (sbcCore regs val).a ∧
    bcd (sbcCore regs val).a + bcd val + (!regs.getStatus flagC).toNat =
      bcd regs.a + 100 * (!(sbcCore regs val).getStatus flagC).toNat := by
  obtain ⟨result,carry⟩ := sbcDecimal decimal val
  have minuend := bcdSmall left
  have subtrahend := bcdSmall right
  have borrow := Bool.toNat_le (!regs.getStatus flagC)
  obtain ⟨t,difference⟩ : ∃ t, t + bcd val + (!regs.getStatus flagC).toNat = bcd regs.a + 100 :=
    ⟨bcd regs.a + 100 - bcd val - (!regs.getStatus flagC).toNat,by omega⟩
  have adjusted := sbcAdjustedNat regs left right t difference
  have carryNat : decide (sbcAdjusted regs val < 0x100) = decide ((sbcAdjusted regs val).toNat < 256) := rfl
  rw [result,carry,carryNat]
  by_cases high : 100 ≤ t
  · rw [if_pos high] at adjusted
    obtain ⟨valid,encoded⟩ := encodedBcd 0 adjusted
    rw [encoded,decide_eq_true (by omega),Bool.not_true,Bool.toNat_false]
    exact ⟨valid,by omega⟩
  · rw [if_neg high] at adjusted
    obtain ⟨valid,encoded⟩ := encodedBcd 255 adjusted
    rw [encoded,decide_eq_false (by omega),Bool.not_false,Bool.toNat_true]
    exact ⟨valid,by omega⟩

end
end Emu6502
