import Emu6502.AccessSequence
import Emu6502.HostSession

/-! Decimal ADC and SBC beside the NMOS 6502's, digits above nine included: the chip's own
algorithm, and exactly where adcCore and sbcCore agree with it. -/
namespace Emu6502
open Interaction

structure DecimalResult where
  a : Nat
  n : Bool
  v : Bool
  z : Bool
  c : Bool
  deriving DecidableEq, Repr

def Registers.decimalResult (regs : Registers) : DecimalResult :=
  ⟨regs.a.toNat,regs.getStatus flagN,regs.getStatus flagV,regs.getStatus flagZ,regs.getStatus flagC⟩

def bit7 (n : Nat) : Bool := n / 128 % 2 = 1

/-! The chip. -/

def nmosAdc (a m : Nat) (carry : Bool) : DecimalResult :=
  let low := a % 16 + m % 16 + carry.toNat
  let low := if 10 ≤ low then (low + 6) % 16 + 16 else low
  let s := a / 16 * 16 + m / 16 * 16 + low
  let result := if 0xa0 ≤ s then s + 0x60 else s
  { a := result % 256
    n := bit7 s
    v := bit7 a == bit7 m && bit7 a != bit7 s
    z := (a + m + carry.toNat) % 256 = 0
    c := 0x100 ≤ result }

def nmosSbc (a m : Nat) (carry : Bool) : DecimalResult :=
  let low : Int := ((a % 16 : Nat) : Int) - ((m % 16 : Nat) : Int) + carry.toNat - 1
  let low := if low < 0 then (low - 6) % 16 - 16 else low
  let s : Int := ((a / 16 * 16 : Nat) : Int) - ((m / 16 * 16 : Nat) : Int) + low
  let result := if s < 0 then s - 0x60 else s
  let binary : Int := (a : Int) - m + carry.toNat - 1
  let wrapped := (binary % 256).toNat
  { a := (result % 256).toNat
    n := bit7 wrapped
    v := bit7 a != bit7 m && bit7 a != bit7 wrapped
    z := wrapped = 0
    c := 0 ≤ binary }

/-! Where the code agrees. -/

/- The low digits carry at most 9, and the sum with its low digit corrected misses $9A-$9F. -/
def AdcAgrees (a m : Nat) (carry : Bool) : Prop :=
  let low := a % 16 + m % 16 + carry.toNat
  let sum := a + m + carry.toNat + (if 10 ≤ low then 6 else 0)
  low ≤ 25 ∧ ¬ (0x9a ≤ sum ∧ sum ≤ 0x9f)

/- The low digits borrow at most 10, and the difference with its low digit corrected is no
more than $99. -/
def SbcAgrees (a m : Nat) (carry : Bool) : Prop :=
  let low : Int := ((a % 16 : Nat) : Int) - ((m % 16 : Nat) : Int) + carry.toNat - 1
  let difference : Int := (a : Int) - m + carry.toNat - 1 - (if low < 0 then 6 else 0)
  difference ≤ 0x99 ∧ -10 ≤ low

section
variable {regs : Registers} (decimal : regs.decimalMode = true) (val : Uint8)

theorem msbBit (w : Uint16) : (lowByte w).msb = bit7 w.toNat := by
  rw [BitVec.msb_eq_decide,lowByteNat,bit7]
  congr 1
  rw [eq_iff_iff]
  omega

theorem msbByte (v : Uint8) : v.msb = bit7 v.toNat := by
  have := v.isLt
  rw [BitVec.msb_eq_decide,bit7]
  congr 1
  rw [eq_iff_iff]
  omega

theorem bit7Byte (n : Nat) : bit7 (n % 256) = bit7 n := by
  unfold bit7
  congr 1
  rw [eq_iff_iff]
  omega

theorem zeroByte (w : Uint16) : ((w &&& 0xff) == 0) = decide (w.toNat % 256 = 0) := by
  have low : (w &&& 0xff).toNat = w.toNat % 256 := by
    rw [BitVec.toNat_and]
    exact Nat.and_two_pow_sub_one_eq_mod w.toNat 8
  rw [Bool.eq_iff_iff,beq_iff_eq,decide_eq_true_iff,← low]
  exact ⟨fun zero => congrArg BitVec.toNat zero,fun zero => BitVec.eq_of_toNat_eq zero⟩

theorem signBits (a val : Uint8) (res : Uint16) :
    (((a ^^^ val) &&& 0x80) == 0 && ((a.setWidth 16 ^^^ res) &&& 0x80) != 0) =
      (bit7 a.toNat == bit7 val.toNat && bit7 a.toNat != bit7 res.toNat) := by
  have top (v : Uint8) : ((v &&& 0x80) == 0) = !v.msb := by revert v; decide
  rw [top,topBit,← msbBit,← msbByte,← msbByte]
  cases left : a.msb <;> cases right : val.msb <;> simp [lowByte,left,right]

include decimal in
theorem adcDecimalFlags :
    (adcCore regs val).getStatus flagN = bit7 (adcMiddle regs val).toNat ∧
    (adcCore regs val).getStatus flagV =
      (bit7 regs.a.toNat == bit7 val.toNat && bit7 regs.a.toNat != bit7 (adcMiddle regs val).toNat) ∧
    (adcCore regs val).getStatus flagZ = decide ((adcResult regs val).toNat % 256 = 0) := by
  rw [← zeroByte,← signBits,← msbBit,← topBit,adcCoreDecimal decimal]
  refine ⟨?_,?_,?_⟩
  · refine (Registers.setStatusOther _ flagC _ (by decide)).trans ?_
    refine (Registers.setStatusOther _ flagV _ (by decide)).trans ?_
    exact Registers.setStatusReads _ flagN _ (by decide)
  · refine (Registers.setStatusOther _ flagC _ (by decide)).trans ?_
    exact Registers.setStatusReads _ flagV _ (by decide)
  · refine (Registers.setStatusOther _ flagC _ (by decide)).trans ?_
    refine (Registers.setStatusOther _ flagV _ (by decide)).trans ?_
    refine (Registers.setStatusOther _ flagN _ (by decide)).trans ?_
    exact Registers.setStatusReads _ flagZ _ (by decide)

end

theorem sbcDecimalFlags (regs : Registers) (val : Uint8) :
    (sbcCore regs val).getStatus flagN = bit7 (sbcResult regs val).toNat ∧
    (sbcCore regs val).getStatus flagV =
      (bit7 regs.a.toNat != bit7 val.toNat && bit7 regs.a.toNat != bit7 (sbcResult regs val).toNat) ∧
    (sbcCore regs val).getStatus flagZ = decide ((sbcResult regs val).toNat % 256 = 0) := by
  rw [← zeroByte,← msbBit,← msbByte,← msbByte,← underflowBit,← topBit]
  simp only [sbcCore]
  refine ⟨?_,?_,?_⟩
  · refine (Registers.setStatusOther _ flagC _ (by decide)).trans ?_
    refine (Registers.setStatusOther _ flagZ _ (by decide)).trans ?_
    exact Registers.setStatusReads _ flagN _ (by decide)
  · refine (Registers.setStatusOther _ flagC _ (by decide)).trans ?_
    refine (Registers.setStatusOther _ flagZ _ (by decide)).trans ?_
    refine (Registers.setStatusOther _ flagN _ (by decide)).trans ?_
    exact Registers.setStatusReads _ flagV _ (by decide)
  · refine (Registers.setStatusOther _ flagC _ (by decide)).trans ?_
    exact Registers.setStatusReads _ flagZ _ (by decide)

/-! The two cores as numbers. -/

def codeAdc (a m : Nat) (carry : Bool) : DecimalResult :=
  let sum := a + m + carry.toNat
  let middle := sum + (if 10 ≤ a % 16 + m % 16 + carry.toNat then 6 else 0)
  let result := if 0x99 < middle then middle + 96 else middle
  { a := result % 256
    n := bit7 middle
    v := bit7 a == bit7 m && bit7 a != bit7 middle
    z := sum % 256 = 0
    c := 0x99 < result }

theorem adcMiddleNat (regs : Registers) (val : Uint8) :
    (adcMiddle regs val).toNat = regs.a.toNat + val.toNat + (regs.getStatus flagC).toNat +
      (if 10 ≤ regs.a.toNat % 16 + val.toNat % 16 + (regs.getStatus flagC).toNat then 6 else 0) := by
  have := regs.a.isLt
  have := val.isLt
  have := Bool.toNat_le (regs.getStatus flagC)
  have bit (c : Bool) : (if c = true then 1 else 0) = c.toNat := by cases c <;> rfl
  have wide := adcResultNat regs val
  have six : (6 : Uint16).toNat = 6 := rfl
  simp only [adcMiddle,lowNibble,bit]
  by_cases carries : 10 ≤ regs.a.toNat % 16 + val.toNat % 16 + (regs.getStatus flagC).toNat
  · rw [if_pos (Nat.lt_of_succ_le carries),if_pos carries,BitVec.toNat_add,wide,six]
    exact Nat.mod_eq_of_lt (by omega)
  · rw [if_neg fun more => carries (Nat.succ_le_of_lt more),if_neg carries,wide]
    rfl

theorem adcAdjustedMiddle (regs : Registers) (val : Uint8) :
    (adcAdjusted regs val).toNat =
      if 0x99 < (adcMiddle regs val).toNat then (adcMiddle regs val).toNat + 96 else (adcMiddle regs val).toNat := by
  have := regs.a.isLt
  have := val.isLt
  have := Bool.toNat_le (regs.getStatus flagC)
  have small := adcMiddleNat regs val
  have whole : adcAdjusted regs val = if adcMiddle regs val > 0x99 then adcMiddle regs val + 96 else adcMiddle regs val :=
    rfl
  have top : (0x99 : Uint16).toNat = 0x99 := rfl
  have sixty : (96 : Uint16).toNat = 96 := rfl
  simp only [whole,gt_iff_lt,BitVec.lt_def,top]
  split
  · rw [BitVec.toNat_add,sixty]
    refine Nat.mod_eq_of_lt ?_
    split at small <;> omega
  · rfl

theorem adcCoreResult {regs : Registers} (decimal : regs.decimalMode = true) (val : Uint8) :
    (adcCore regs val).decimalResult = codeAdc regs.a.toNat val.toNat (regs.getStatus flagC) := by
  obtain ⟨a,c⟩ := adcDecimal decimal val
  obtain ⟨n,v,z⟩ := adcDecimalFlags decimal val
  have carryOut : decide (adcAdjusted regs val > 0x99) = decide (0x99 < (adcAdjusted regs val).toNat) := rfl
  simp only [Registers.decimalResult,a,c,n,v,z,lowByteNat,carryOut,adcAdjustedMiddle,adcResultNat,codeAdc,
    adcMiddleNat]

/- The chip masks the low digit it corrects: from 26 on, that loses 16. -/
theorem nmosLow {a m c low : Nat} (sum : low = a % 16 + m % 16 + c) (carry : c ≤ 1) :
    a / 16 * 16 + m / 16 * 16 + (if 10 ≤ low then (low + 6) % 16 + 16 else low) + (if 26 ≤ low then 16 else 0) =
      a + m + c + (if 10 ≤ low then 6 else 0) := by
  by_cases carries : 10 ≤ low
  · rw [if_pos carries,if_pos carries]
    split <;> omega
  · rw [if_neg carries,if_neg carries,if_neg (by omega)]
    omega

theorem adcAgreement {a m : Nat} (left : a < 256) (right : m < 256) (carry : Bool) :
    codeAdc a m carry = nmosAdc a m carry ↔ AdcAgrees a m carry := by
  have bit := Bool.toNat_le carry
  obtain ⟨low,sum⟩ : ∃ low, low = a % 16 + m % 16 + carry.toNat := ⟨_,rfl⟩
  have chip := nmosLow sum bit
  simp only [codeAdc,nmosAdc,AdcAgrees,DecimalResult.mk.injEq,← sum]
  have bound : a + m + carry.toNat + (if 10 ≤ low then 6 else 0) ≤ 517 := by split <;> omega
  generalize a + m + carry.toNat + (if 10 ≤ low then 6 else 0) = middle at chip bound ⊢
  generalize a / 16 * 16 + m / 16 * 16 + (if 10 ≤ low then (low + 6) % 16 + 16 else low) = s at chip ⊢
  by_cases far : 26 ≤ low
  · rw [if_pos far] at chip
    constructor
    · rintro ⟨result,_⟩
      split at result <;> split at result <;> omega
    · rintro ⟨near,_⟩
      omega
  · rw [if_neg far] at chip
    have same : s = middle := chip
    subst same
    constructor
    · rintro ⟨result,_⟩
      refine ⟨by omega,fun ⟨above,below⟩ => ?_⟩
      rw [if_pos (by omega),if_neg (by omega)] at result
      omega
    · rintro ⟨_,gap⟩
      by_cases high : 0xa0 ≤ s
      · rw [if_pos (by omega),if_pos high]
        exact ⟨rfl,rfl,rfl,trivial,by rw [decide_eq_decide]; omega⟩
      · rw [if_neg (by omega),if_neg high]
        exact ⟨rfl,rfl,rfl,trivial,by rw [decide_eq_decide]; omega⟩

/-! The same of the difference. -/

def codeSbc (a m : Nat) (carry : Bool) : DecimalResult :=
  let binary : Int := (a : Int) - m + carry.toNat - 1
  let low : Int := ((a % 16 : Nat) : Int) - ((m % 16 : Nat) : Int) + carry.toNat - 1
  let middle := binary - (if low < 0 then 6 else 0)
  let result := if middle < 0 ∨ 0x99 < middle then middle - 0x60 else middle
  let wrapped := (binary % 256).toNat
  { a := (result % 256).toNat
    n := bit7 wrapped
    v := bit7 a != bit7 m && bit7 a != bit7 wrapped
    z := wrapped = 0
    c := 0 ≤ middle }

theorem sbcResultInt (regs : Registers) (val : Uint8) :
    ((sbcResult regs val).toNat : Int) =
      ((regs.a.toNat : Int) - val.toNat + (regs.getStatus flagC).toNat - 1) % 65536 := by
  have := regs.a.isLt
  have := val.isLt
  rw [sbcResultNat]
  cases regs.getStatus flagC <;> simp only [Bool.not_true,Bool.not_false,Bool.toNat_true,Bool.toNat_false] <;> omega

def sbcMiddle (regs : Registers) (val : Uint8) : Uint16 :=
  let borrow : Int := if regs.getStatus flagC then 0 else 1
  if ((regs.a &&& 0x0f).toNat : Int) - borrow < ((val &&& 0x0f).toNat : Int) then sbcResult regs val - 6
  else sbcResult regs val

theorem sbcMiddleInt (regs : Registers) (val : Uint8) :
    let low : Int := ((regs.a.toNat % 16 : Nat) : Int) - ((val.toNat % 16 : Nat) : Int) +
      (regs.getStatus flagC).toNat - 1
    ((sbcMiddle regs val).toNat : Int) =
      ((regs.a.toNat : Int) - val.toNat + (regs.getStatus flagC).toNat - 1 - (if low < 0 then 6 else 0)) % 65536 := by
  intro low
  have bit (c : Bool) : (if c = true then (0 : Int) else 1) = 1 - (c.toNat : Int) := by cases c <;> rfl
  have wide := sbcResultInt regs val
  have six : (6 : Uint16).toNat = 6 := rfl
  simp only [sbcMiddle,lowNibble,bit]
  by_cases borrows : low < 0
  · rw [if_pos borrows,if_pos (by omega),BitVec.toNat_sub,six]
    omega
  · rw [if_neg borrows,if_neg (by omega),wide]
    omega

theorem sbcAdjustedInt (regs : Registers) (val : Uint8) (middle : Int) (low : -512 < middle) (high : middle < 256)
    (found : ((sbcMiddle regs val).toNat : Int) = middle % 65536) :
    ((sbcAdjusted regs val).toNat : Int) =
        (if middle < 0 ∨ 0x99 < middle then middle - 0x60 else middle) % 65536 ∧
      ((sbcAdjusted regs val).toNat < 0x100 ↔ 0 ≤ middle) := by
  have whole : sbcAdjusted regs val = if sbcMiddle regs val > 0x99 then sbcMiddle regs val - 0x60 else sbcMiddle regs val :=
    rfl
  have top : (0x99 : Uint16).toNat = 0x99 := rfl
  have sixty : (0x60 : Uint16).toNat = 0x60 := rfl
  simp only [whole,gt_iff_lt,BitVec.lt_def,top]
  by_cases corrected : middle < 0 ∨ 0x99 < middle
  · rw [if_pos corrected,if_pos (by omega),BitVec.toNat_sub,sixty]
    omega
  · rw [if_neg corrected,if_neg (by omega)]
    omega

theorem sbcCoreResult {regs : Registers} (decimal : regs.decimalMode = true) (val : Uint8) :
    (sbcCore regs val).decimalResult = codeSbc regs.a.toNat val.toNat (regs.getStatus flagC) := by
  have := regs.a.isLt
  have := val.isLt
  have := Bool.toNat_le (regs.getStatus flagC)
  obtain ⟨a,c⟩ := sbcDecimal decimal val
  obtain ⟨n,v,z⟩ := sbcDecimalFlags regs val
  have binary := sbcResultInt regs val
  have middle := sbcMiddleInt regs val
  obtain ⟨result,borrow⟩ := sbcAdjustedInt regs val _ (by split <;> omega) (by split <;> omega) middle
  have wrapped : (((regs.a.toNat : Int) - val.toNat + (regs.getStatus flagC).toNat - 1) % 256).toNat =
      (sbcResult regs val).toNat % 256 := by omega
  have carryOut : decide (sbcAdjusted regs val < 0x100) = decide ((sbcAdjusted regs val).toNat < 0x100) := rfl
  simp only [Registers.decimalResult,a,c,n,v,z,lowByteNat,carryOut,codeSbc,wrapped,bit7Byte,borrow,
    DecimalResult.mk.injEq,and_self,and_true]
  omega

/- The chip masks here too: a low digit of -11 and less gains 16. -/
theorem nmosBorrow {a m c : Nat} {low : Int}
    (difference : low = ((a % 16 : Nat) : Int) - ((m % 16 : Nat) : Int) + c - 1) (carry : c ≤ 1) :
    ((a / 16 * 16 : Nat) : Int) - ((m / 16 * 16 : Nat) : Int) + (if low < 0 then (low - 6) % 16 - 16 else low) =
      (a : Int) - m + c - 1 - (if low < 0 then 6 else 0) + (if low < -10 then 16 else 0) := by
  by_cases borrows : low < 0
  · rw [if_pos borrows,if_pos borrows]
    split <;> omega
  · rw [if_neg borrows,if_neg borrows,if_neg (by omega)]
    omega

theorem sbcAgreement {a m : Nat} (left : a < 256) (right : m < 256) (carry : Bool) :
    codeSbc a m carry = nmosSbc a m carry ↔ SbcAgrees a m carry := by
  have bit := Bool.toNat_le carry
  obtain ⟨low,difference⟩ : ∃ low : Int, low = ((a % 16 : Nat) : Int) - ((m % 16 : Nat) : Int) + carry.toNat - 1 :=
    ⟨_,rfl⟩
  have chip := nmosBorrow difference bit
  simp only [codeSbc,nmosSbc,SbcAgrees,DecimalResult.mk.injEq,← difference]
  have bound : (a : Int) - m + carry.toNat - 1 - (if low < 0 then 6 else 0) < 256 := by split <;> omega
  have least : -262 ≤ (a : Int) - m + carry.toNat - 1 - (if low < 0 then 6 else 0) := by split <;> omega
  have sign : -10 ≤ low → (0 ≤ (a : Int) - m + carry.toNat - 1 - (if low < 0 then 6 else 0) ↔
      0 ≤ (a : Int) - m + carry.toNat - 1) := by
    intro near
    split <;> omega
  generalize (a : Int) - m + carry.toNat - 1 - (if low < 0 then 6 else 0) = middle at chip bound least sign ⊢
  generalize ((a / 16 * 16 : Nat) : Int) - ((m / 16 * 16 : Nat) : Int) +
    (if low < 0 then (low - 6) % 16 - 16 else low) = s at chip ⊢
  by_cases far : low < -10
  · rw [if_pos far] at chip
    constructor
    · rintro ⟨result,_⟩
      split at result <;> split at result <;> omega
    · rintro ⟨_,near⟩
      omega
  · rw [if_neg far] at chip
    have same : s = middle := by omega
    subst same
    constructor
    · rintro ⟨result,_⟩
      refine ⟨Int.not_lt.mp fun above => ?_,by omega⟩
      rw [if_pos (by omega),if_neg (by omega)] at result
      omega
    · rintro ⟨within,near⟩
      refine ⟨?_,trivial,trivial,trivial,decide_eq_decide.mpr (sign near)⟩
      by_cases negative : s < 0
      · rw [if_pos (by omega),if_pos negative]
      · rw [if_neg (by omega),if_neg negative]

/-! ADC, SBC, RRA and ISC as executed. -/

def decimalOps : List Op := [.adc,.sbc,.rra,.isc]

/- The byte added or subtracted and the carry in, from the byte read. -/
def Op.addend (op : Op) (m : Nat) (carry : Bool) : Nat × Bool :=
  match op with
  | .rra => (m / 2 + 128 * carry.toNat,m % 2 = 1)
  | .isc => ((m + 1) % 256,carry)
  | _ => (m,carry)

def Op.subtracts (op : Op) : Bool := op = .sbc || op = .isc

def nmosDecimal (op : Op) (a m : Nat) (carry : Bool) : DecimalResult :=
  let (m,carry) := op.addend m carry
  if op.subtracts then nmosSbc a m carry else nmosAdc a m carry

def DecimalAgrees (op : Op) (a m : Nat) (carry : Bool) : Prop :=
  let (m,carry) := op.addend m carry
  if op.subtracts then SbcAgrees a m carry else AdcAgrees a m carry

/- The byte of the last read: the operand, of an instruction that reads one. -/
def lastRead (log : List (Access Uint16 Uint8)) : Nat :=
  log.foldl (fun last access => if access.isRead then access.value.toNat else last) 0

theorem lastReadLoad (before : List (Access Uint16 Uint8)) (address : Uint16) (val : Uint8) :
    lastRead (before ++ [.read address val]) = val.toNat := by
  simp [lastRead,Access.isRead,Access.value]

theorem lastReadRewrite (before : List (Access Uint16 Uint8)) (address : Uint16) (orig old val : Uint8) :
    lastRead (before ++ [.read address orig,.write address old,.write address val]) = orig.toNat := by
  simp [lastRead,Access.isRead,Access.value]

section
variable {σ : Type} (d : Device Uint16 Uint8 σ) {m : Machine σ} {code : Uint8}

theorem readStep {apply : Registers → Uint8 → Registers} (ran : m.served d = .executed code)
    (template : (instruction code).op.template = .read apply) :
    ∃ val, lastRead (m.accesses d) = val.toNat ∧ (m.step d).cpu.regs = apply (m.cpu.passed code) val := by
  have admitted := tableAdmits code
  rw [template,Template.admits,Bool.or_eq_true,beq_iff_eq] at admitted
  rcases admitted with immediate | memory
  · obtain ⟨log,cost,accesses,val,rfl,left⟩ := m.executedEvery d ran (immediateSequence immediate (.inl template) m.cpu)
    exact ⟨val,by rw [accesses]; rfl,left⟩
  · obtain ⟨b,skipped,touched,whole,touches⟩ := stepSequence d ran memory
    obtain ⟨val,rfl,left⟩ := touches.loaded (.inl template)
    exact ⟨val,by rw [whole,lastReadLoad],left⟩

theorem rmwStep {result : Registers → Uint8 → Uint8} {before : Registers → Uint8 → Uint8 → Registers}
    {after : Registers → Uint8 → Registers} (ran : m.served d = .executed code)
    (memory : (instruction code).mode.addressed = true)
    (template : (instruction code).op.template = .rmw result before after) :
    ∃ orig, lastRead (m.accesses d) = orig.toNat ∧
      let val := result (m.cpu.passed code) orig
      (m.step d).cpu.regs = after (before (m.cpu.passed code) orig val) val := by
  obtain ⟨b,skipped,touched,whole,touches⟩ := stepSequence d ran memory
  rw [template] at touches
  obtain ⟨orig,rfl,left⟩ := touches.rewritten
  exact ⟨orig,by rw [whole,lastReadRewrite],left⟩

end

theorem rraInMemory : ∀ code, (instruction code).op = .rra ∨ (instruction code).op = .isc →
    (instruction code).mode.addressed = true := by
  decide

theorem lowBit (v : Uint8) : ((v &&& 0x01) != 0) = decide (v.toNat % 2 = 1) := by
  revert v
  decide

theorem carriedDecimal {regs : Registers} (decimal : regs.decimalMode = true) (carry : Bool) :
    (regs.setStatus flagC carry).decimalMode = true := by
  unfold Registers.decimalMode at decimal ⊢
  rw [Registers.setStatusOther regs flagC carry (by decide)]
  exact decimal

theorem adcCoreAgrees {regs : Registers} (decimal : regs.decimalMode = true) (val : Uint8) :
    (adcCore regs val).decimalResult = nmosAdc regs.a.toNat val.toNat (regs.getStatus flagC) ↔
      AdcAgrees regs.a.toNat val.toNat (regs.getStatus flagC) := by
  rw [adcCoreResult decimal]
  exact adcAgreement regs.a.isLt val.isLt _

theorem sbcCoreAgrees {regs : Registers} (decimal : regs.decimalMode = true) (val : Uint8) :
    (sbcCore regs val).decimalResult = nmosSbc regs.a.toNat val.toNat (regs.getStatus flagC) ↔
      SbcAgrees regs.a.toNat val.toNat (regs.getStatus flagC) := by
  rw [sbcCoreResult decimal]
  exact sbcAgreement regs.a.isLt val.isLt _

/-- With D set and honoured, ADC, SBC, RRA and ISC leave the accumulator and flags an NMOS 6502
does on exactly the operands that agree, packed decimal digits among them. -/
theorem decimalAgreesIff {σ : Type} (d : Device Uint16 Uint8 σ) (m : Machine σ) (code : Uint8)
    (ran : m.served d = .executed code) (arithmetic : (instruction code).op ∈ decimalOps)
    (flag : m.cpu.regs.getStatus flagD = true) (enabled : m.cpu.regs.decimalDisabled = false) :
    let op := (instruction code).op
    let a := m.cpu.regs.a.toNat
    let carry := m.cpu.regs.getStatus flagC
    (m.step d).cpu.regs.decimalResult = nmosDecimal op a (lastRead (m.accesses d)) carry ↔
      DecimalAgrees op a (lastRead (m.accesses d)) carry := by
  intro op a carry
  have decimal : (m.cpu.passed code).decimalMode = true := by
    have held : m.cpu.regs.decimalMode = true := by
      rw [Registers.decimalMode,enabled,flag]
      rfl
    exact held
  simp only [decimalOps,List.mem_cons,List.not_mem_nil,or_false] at arithmetic
  rcases arithmetic with adc | sbc | rra | isc
  · obtain ⟨val,operand,left⟩ := readStep d ran (by rw [adc]; rfl)
    rw [left,operand]
    simp only [op,adc]
    exact adcCoreAgrees decimal val
  · obtain ⟨val,operand,left⟩ := readStep d ran (by rw [sbc]; rfl)
    rw [left,operand]
    simp only [op,sbc]
    exact sbcCoreAgrees decimal val
  · obtain ⟨orig,operand,left⟩ := rmwStep d ran (rraInMemory code (.inl rra)) (by rw [rra]; rfl)
    have rotated := @rmwResult .rra _ _ _ rfl (m.cpu.passed code) orig
    have carryIn := Registers.setStatusReads (m.cpu.passed code) flagC ((orig &&& 0x01) != 0) (by decide)
    have agrees := adcCoreAgrees (carriedDecimal decimal ((orig &&& 0x01) != 0)) (rotateRight (m.cpu.passed code) orig)
    rw [rotated,carryIn,lowBit] at agrees
    rw [left,operand]
    simp only [op,rra]
    unfold carryFromBottom
    rw [lowBit]
    exact agrees
  · obtain ⟨orig,operand,left⟩ := rmwStep d ran (rraInMemory code (.inr isc)) (by rw [isc]; rfl)
    have next := @rmwResult .isc _ _ _ rfl (m.cpu.passed code) orig
    have agrees := sbcCoreAgrees decimal (increment (m.cpu.passed code) orig)
    rw [next] at agrees
    rw [left,operand]
    simp only [op,isc]
    exact agrees

theorem bcdAdcAgrees {a m : Uint8} (left : Bcd a) (right : Bcd m) (carry : Bool) :
    AdcAgrees a.toNat m.toNat carry := by
  obtain ⟨leftHigh,leftLow⟩ := left
  obtain ⟨rightHigh,rightLow⟩ := right
  have bit := Bool.toNat_le carry
  refine ⟨by omega,?_⟩
  rintro ⟨above,below⟩
  split at above <;> split at below <;> omega

theorem bcdSbcAgrees {a m : Uint8} (left : Bcd a) (right : Bcd m) (carry : Bool) :
    SbcAgrees a.toNat m.toNat carry := by
  obtain ⟨leftHigh,leftLow⟩ := left
  obtain ⟨rightHigh,rightLow⟩ := right
  have bit := Bool.toNat_le carry
  refine ⟨?_,by omega⟩
  split <;> omega

theorem decimalDigitsAgree {op : Op} (direct : op = .adc ∨ op = .sbc) {a m : Uint8} (left : Bcd a) (right : Bcd m)
    (carry : Bool) : DecimalAgrees op a.toNat m.toNat carry := by
  rcases direct with rfl | rfl
  · exact bcdAdcAgrees left right carry
  · exact bcdSbcAgrees left right carry

/- ADC #$27 to $58: an operand of decimal digits. -/
def decimalRig (a operand : Uint8) : Machine Bus :=
  (Machine.rig [(0x0400,0x69),(0x0401,operand)]).mapRegs fun regs => {regs with a := a, sr := flagU ||| flagD}

theorem decimalDigitsAdded :
    ((decimalRig 0x58 0x27).step Bus.device).cpu.regs.decimalResult = nmosDecimal .adc 0x58 0x27 false := by
  have iff := decimalAgreesIff Bus.device (decimalRig 0x58 0x27) 0x69 (rfl) (by decide)
    (rfl) rfl
  exact iff.mpr (@decimalDigitsAgree .adc (.inl rfl) 0x58 0x27 ⟨by decide,by decide⟩ ⟨by decide,by decide⟩ false)

/- ADC #$0F to $0F: the chip leaves $14, the code $24. -/
theorem decimalLowDigitCarriesTwice :
    let m := decimalRig 0x0f 0x0f
    m.served Bus.device = .executed 0x69 ∧ m.cpu.regs.getStatus flagD = true ∧ m.cpu.regs.decimalDisabled = false ∧
      (m.step Bus.device).cpu.regs.decimalResult ≠
        nmosDecimal .adc m.cpu.regs.a.toNat (lastRead (m.accesses Bus.device)) (m.cpu.regs.getStatus flagC) := by
  decide

end Emu6502
