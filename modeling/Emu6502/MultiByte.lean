import Emu6502.ByteArithmetic
import Emu6502.Lib.CarryChain

/-! Multi-byte arithmetic through adcCore and sbcCore, low byte first, C left from each byte
to the next: binary sums and differences of any length, and packed decimal ones. -/
namespace Emu6502
open CarryChain

/- One byte of the chain: A is loaded with `x`, the core runs on `y`, A is the result byte. -/
def byteStep (core : Registers → Uint8 → Registers) (regs : Registers) (x y : Uint8) : Uint8 × Registers :=
  let out := core {regs with a := x} y
  (out.a,out)

def carryFlag (regs : Registers) : Bool := regs.getStatus flagC

def little (bytes : List Uint8) : Nat := numeral 256 BitVec.toNat bytes

def littleBcd (bytes : List Uint8) : Nat := numeral 100 bcd bytes

theorem littleBound (bytes : List Uint8) : little bytes < 256 ^ bytes.length :=
  numeralBound 256 BitVec.toNat (by decide) fun d _ => d.isLt

theorem littleBcdBound {bytes : List Uint8} (valid : ∀ d ∈ bytes, Bcd d) : littleBcd bytes < 100 ^ bytes.length :=
  numeralBound 100 bcd (by decide) fun d member => bcdSmall (valid d member)

/- The last byte of a numeral has its sign. -/
theorem signOfLast (bytes : List Uint8) (d : Uint8) :
    128 * 256 ^ bytes.length ≤ little (bytes ++ [d]) ↔ d.msb = true := by
  have low := littleBound bytes
  have place : 0 < 256 ^ bytes.length := Nat.pow_pos (by decide)
  rw [little,numeralConcat,BitVec.msb_eq_decide,decide_eq_true_iff]
  change 128 * 256 ^ bytes.length ≤ little bytes + _ ↔ _
  rw [← Nat.le_div_iff_mul_le place,Nat.add_mul_div_left _ _ place,Nat.div_eq_of_lt low,Nat.zero_add]

theorem adcAdds : Adds (byteStep adcCore) 256 BitVec.toNat carryFlag (fun regs => regs.decimalMode = false)
    fun _ => True where
  keeps binary _ _ := (adcKeepsDecimal _ _).trans binary
  yields _ _ _ := trivial
  sum {regs x y} binary _ _ := by
    have loaded : Registers.decimalMode {regs with a := x} = false := binary
    exact adcSum loaded y

theorem sbcSubtracts : Subtracts (byteStep sbcCore) 256 BitVec.toNat carryFlag
    (fun regs => regs.decimalMode = false) fun _ => True where
  keeps binary _ _ := (sbcKeepsDecimal _ _).trans binary
  yields _ _ _ := trivial
  difference {regs x y} binary _ _ := by
    have loaded : Registers.decimalMode {regs with a := x} = false := binary
    exact sbcDifference loaded y

theorem adcAddsDecimal : Adds (byteStep adcCore) 100 bcd carryFlag (fun regs => regs.decimalMode = true) Bcd where
  keeps decimal _ _ := (adcKeepsDecimal _ _).trans decimal
  yields {regs x y} decimal left right := by
    have loaded : Registers.decimalMode {regs with a := x} = true := decimal
    exact (adcDecimalSum loaded left right).1
  sum {regs x y} decimal left right := by
    have loaded : Registers.decimalMode {regs with a := x} = true := decimal
    exact (adcDecimalSum loaded left right).2

theorem sbcSubtractsDecimal : Subtracts (byteStep sbcCore) 100 bcd carryFlag
    (fun regs => regs.decimalMode = true) Bcd where
  keeps decimal _ _ := (sbcKeepsDecimal _ _).trans decimal
  yields {regs x y} decimal left right := by
    have loaded : Registers.decimalMode {regs with a := x} = true := decimal
    exact (sbcDecimalDifference loaded left right).1
  difference {regs x y} decimal left right := by
    have loaded : Registers.decimalMode {regs with a := x} = true := decimal
    exact (sbcDecimalDifference loaded left right).2

def signPlace (n : Nat) : Nat := 128 * 256 ^ (n - 1)

theorem signPlaceDouble {n : Nat} (some : 0 < n) : 256 ^ n = 2 * signPlace n := by
  obtain ⟨k,rfl⟩ := Nat.exists_eq_add_one_of_ne_zero (Nat.pos_iff_ne_zero.mp some)
  simp only [signPlace,Nat.add_sub_cancel,Nat.pow_succ]
  omega

/- A chain ends in the core at its last operands, whose signs are the signs of the numerals. -/
theorem chainLastByte {core : Registers → Uint8 → Registers}
    (keeps : ∀ regs val, (core regs val).decimalMode = regs.decimalMode) (regs : Registers)
    {operands : List (Uint8 × Uint8)} (some : operands ≠ []) :
    let out := chain (byteStep core) regs operands
    ∃ before y, before.decimalMode = regs.decimalMode ∧ out.2 = core before y ∧
      (signPlace operands.length ≤ little (operands.map Prod.fst) ↔ before.a.msb = true) ∧
      (signPlace operands.length ≤ little (operands.map Prod.snd) ↔ y.msb = true) ∧
      (signPlace operands.length ≤ little out.1 ↔ (core before y).a.msb = true) := by
  obtain ⟨first,⟨x,y⟩,split⟩ := (List.eq_nil_or_concat operands).resolve_left some
  subst split
  have closed : Closed (byteStep core) (fun r => r.decimalMode = regs.decimalMode) fun _ => True :=
    ⟨fun kept _ _ => (keeps _ _).trans kept,fun _ _ _ => trivial⟩
  have mode := (chainClosed closed rfl fun pair (_ : pair ∈ first) => ⟨trivial,trivial⟩).1
  have length := chainLength (byteStep core) regs first
  simp only [List.concat_eq_append,chainConcat,List.map_append,List.map_singleton,List.length_append,
    List.length_singleton,signPlace,Nat.add_sub_cancel]
  refine ⟨{(chain (byteStep core) regs first).2 with a := x},y,mode,rfl,?_,?_,?_⟩
  · simpa using signOfLast (first.map Prod.fst) x
  · simpa using signOfLast (first.map Prod.snd) y
  · rw [← length]
    exact signOfLast _ _

theorem chainBounds (core : Registers → Uint8 → Registers) (regs : Registers) (operands : List (Uint8 × Uint8)) :
    little (chain (byteStep core) regs operands).1 < 256 ^ operands.length ∧
    little (operands.map Prod.fst) < 256 ^ operands.length ∧
    little (operands.map Prod.snd) < 256 ^ operands.length := by
  have result := littleBound (chain (byteStep core) regs operands).1
  have left := littleBound (operands.map Prod.fst)
  have right := littleBound (operands.map Prod.snd)
  rw [chainLength] at result
  rw [List.length_map] at left right
  exact ⟨result,left,right⟩

section
variable {regs : Registers} (binary : regs.decimalMode = false) (operands : List (Uint8 × Uint8))
include binary

theorem adcChainSum :
    little (chain (byteStep adcCore) regs operands).1 +
        256 ^ operands.length * (carryFlag (chain (byteStep adcCore) regs operands).2).toNat =
      little (operands.map Prod.fst) + little (operands.map Prod.snd) + (carryFlag regs).toNat :=
  chainSum adcAdds binary fun _ _ => ⟨trivial,trivial⟩

theorem sbcChainDifference :
    little (chain (byteStep sbcCore) regs operands).1 + little (operands.map Prod.snd) + (!carryFlag regs).toNat =
      little (operands.map Prod.fst) +
        256 ^ operands.length * (!carryFlag (chain (byteStep sbcCore) regs operands).2).toNat :=
  chainDifference sbcSubtracts binary fun _ _ => ⟨trivial,trivial⟩

theorem adcChainSigns (some : operands ≠ []) :
    ((chain (byteStep adcCore) regs operands).2.getStatus flagN = true ↔
      signed (256 ^ operands.length) (little (chain (byteStep adcCore) regs operands).1) < 0) ∧
    ((chain (byteStep adcCore) regs operands).2.getStatus flagV = true ↔
      ¬ Fits (256 ^ operands.length) (signed (256 ^ operands.length) (little (operands.map Prod.fst)) +
        signed (256 ^ operands.length) (little (operands.map Prod.snd)) + (carryFlag regs).toNat)) := by
  obtain ⟨before,y,mode,last,left,right,result⟩ := chainLastByte adcKeepsDecimal regs some
  obtain ⟨_,_,negative,overflow⟩ := adcBinary (mode.trans binary) y
  obtain ⟨bound,boundLeft,boundRight⟩ := chainBounds adcCore regs operands
  have sum := adcChainSum binary operands
  have width := signPlaceDouble (List.length_pos_iff.mpr some)
  rw [width] at bound boundLeft boundRight sum ⊢
  refine ⟨?_,?_⟩
  · rw [signedNegative bound,last,negative,← result,Nat.mul_le_mul_left_iff (by decide)]
  · rw [sumFits boundLeft boundRight bound sum,left,right,result,last,overflow]
    cases before.a.msb <;> cases y.msb <;> cases (adcCore before y).a.msb <;> decide

theorem sbcChainSigns (some : operands ≠ []) :
    ((chain (byteStep sbcCore) regs operands).2.getStatus flagN = true ↔
      signed (256 ^ operands.length) (little (chain (byteStep sbcCore) regs operands).1) < 0) ∧
    ((chain (byteStep sbcCore) regs operands).2.getStatus flagV = true ↔
      ¬ Fits (256 ^ operands.length) (signed (256 ^ operands.length) (little (operands.map Prod.fst)) -
        signed (256 ^ operands.length) (little (operands.map Prod.snd)) - (!carryFlag regs).toNat)) := by
  obtain ⟨before,y,mode,last,left,right,result⟩ := chainLastByte sbcKeepsDecimal regs some
  obtain ⟨_,_,negative,overflow⟩ := sbcBinary (mode.trans binary) y
  obtain ⟨bound,boundLeft,boundRight⟩ := chainBounds sbcCore regs operands
  have difference := sbcChainDifference binary operands
  have width := signPlaceDouble (List.length_pos_iff.mpr some)
  rw [width] at bound boundLeft boundRight difference ⊢
  refine ⟨?_,?_⟩
  · rw [signedNegative bound,last,negative,← result,Nat.mul_le_mul_left_iff (by decide)]
  · rw [differenceFits boundLeft boundRight bound difference,left,right,result,last,overflow]
    cases before.a.msb <;> cases y.msb <;> cases (sbcCore before y).a.msb <;> decide

end

theorem borrowOf (c : Bool) : ((!c).toNat : Int) = 1 - (c.toNat : Int) := by cases c <;> rfl

/-- In binary mode a chain of n bytes adds and subtracts modulo 256^n. C is the carry out,
or the absence of a borrow; N and V, of which no bytes have none, are those of n-byte
two's complement. -/
theorem binaryChains (regs : Registers) (binary : regs.getStatus flagD = false ∨ regs.decimalDisabled = true)
    (operands : List (Uint8 × Uint8)) :
    let whole := 256 ^ operands.length
    let x := little (operands.map Prod.fst)
    let y := little (operands.map Prod.snd)
    let c := (carryFlag regs).toNat
    let sum := chain (byteStep adcCore) regs operands
    let difference := chain (byteStep sbcCore) regs operands
    (sum.1.length = operands.length ∧
      little sum.1 = (x + y + c) % whole ∧
      (carryFlag sum.2 = true ↔ whole ≤ x + y + c) ∧
      (operands ≠ [] →
        (sum.2.getStatus flagN = true ↔ signed whole (little sum.1) < 0) ∧
        (sum.2.getStatus flagV = true ↔ ¬ Fits whole (signed whole x + signed whole y + c)))) ∧
    (difference.1.length = operands.length ∧
      (little difference.1 : Int) = ((x : Int) - y - (1 - c)) % whole ∧
      (carryFlag difference.2 = true ↔ 0 ≤ (x : Int) - y - (1 - c)) ∧
      (operands ≠ [] →
        (difference.2.getStatus flagN = true ↔ signed whole (little difference.1) < 0) ∧
        (difference.2.getStatus flagV = true ↔ ¬ Fits whole (signed whole x - signed whole y - (1 - c))))) := by
  intro whole x y c sum difference
  have mode := binaryMode binary
  refine ⟨⟨chainLength _ _ _,?_⟩,chainLength _ _ _,?_⟩
  · obtain ⟨value,carry⟩ := sumResolved (chainBounds adcCore regs operands).1 (adcChainSum mode operands)
    exact ⟨value,carry,adcChainSigns mode operands⟩
  · obtain ⟨value,carry⟩ := differenceResolved (chainBounds sbcCore regs operands).1
      (sbcChainDifference mode operands)
    have signs := sbcChainSigns mode operands
    rw [borrowOf] at value signs
    refine ⟨value,carry.trans ?_,signs⟩
    have borrow := borrowOf (carryFlag regs)
    omega

theorem wordSumOverflows :
    let regs : Registers := {a := 0, x := 0, y := 0, sr := flagU, sp := 0xfd, pc := 0}
    let sum := chain (byteStep adcCore) regs [(0xff,0x01),(0x7f,0x00)]
    let difference := chain (byteStep sbcCore) regs [(0x00,0x00),(0x80,0x00)]
    little sum.1 = 32768 ∧ sum.2.getStatus flagV = true ∧
      (little difference.1 : Int) = 32767 ∧ difference.2.getStatus flagV = true := by
  intro regs sum difference
  have added := (binaryChains regs (.inl (by decide)) [(0xff,0x01),(0x7f,0x00)]).1
  have subtracted := (binaryChains regs (.inl (by decide)) [(0x00,0x00),(0x80,0x00)]).2
  refine ⟨added.2.1.trans (by decide),?_,subtracted.2.1.trans (by decide),?_⟩
  · exact (added.2.2.2 (by simp)).2.mpr (by unfold Fits signed; decide)
  · exact (subtracted.2.2.2 (by simp)).2.mpr (by unfold Fits signed; decide)

/-- On packed decimal digits, in decimal mode, a chain of n bytes adds and subtracts modulo
100^n and yields packed decimal digits. -/
theorem decimalChains (regs : Registers) (set : regs.getStatus flagD = true)
    (enabled : regs.decimalDisabled = false) (operands : List (Uint8 × Uint8))
    (digits : ∀ pair ∈ operands, Bcd pair.1 ∧ Bcd pair.2) :
    let whole := 100 ^ operands.length
    let x := littleBcd (operands.map Prod.fst)
    let y := littleBcd (operands.map Prod.snd)
    let c := (carryFlag regs).toNat
    let sum := chain (byteStep adcCore) regs operands
    let difference := chain (byteStep sbcCore) regs operands
    (sum.1.length = operands.length ∧ (∀ d ∈ sum.1, Bcd d) ∧
      littleBcd sum.1 = (x + y + c) % whole ∧
      (carryFlag sum.2 = true ↔ whole ≤ x + y + c)) ∧
    (difference.1.length = operands.length ∧ (∀ d ∈ difference.1, Bcd d) ∧
      (littleBcd difference.1 : Int) = ((x : Int) - y - (1 - c)) % whole ∧
      (carryFlag difference.2 = true ↔ 0 ≤ (x : Int) - y - (1 - c))) := by
  intro whole x y c sum difference
  have mode : regs.decimalMode = true := by simp only [Registers.decimalMode,enabled,set]; rfl
  have summed : sum.1.length = operands.length := chainLength _ _ _
  have subtracted : difference.1.length = operands.length := chainLength _ _ _
  have sumDigits := (chainClosed adcAddsDecimal.toClosed mode digits).2
  have differenceDigits := (chainClosed sbcSubtractsDecimal.toClosed mode digits).2
  have sumBound := littleBcdBound sumDigits
  have differenceBound := littleBcdBound differenceDigits
  rw [chainLength] at sumBound differenceBound
  refine ⟨⟨summed,sumDigits,?_⟩,subtracted,differenceDigits,?_⟩
  · exact sumResolved sumBound (chainSum adcAddsDecimal mode digits)
  · have equation : littleBcd difference.1 + y + (!carryFlag regs).toNat =
        x + whole * (!carryFlag difference.2).toNat := chainDifference sbcSubtractsDecimal mode digits
    obtain ⟨value,carry⟩ := differenceResolved differenceBound equation
    rw [borrowOf] at value
    refine ⟨value,carry.trans ?_⟩
    have borrow := borrowOf (carryFlag regs)
    omega

theorem decimalWordWraps :
    let regs : Registers := {a := 0, x := 0, y := 0, sr := flagU ||| flagD, sp := 0xfd, pc := 0}
    let sum := chain (byteStep adcCore) regs [(0x99,0x01),(0x99,0x00)]
    littleBcd sum.1 = 0 ∧ carryFlag sum.2 = true := by
  intro regs sum
  have digits : ∀ pair ∈ [((0x99 : Uint8),(0x01 : Uint8)),(0x99,0x00)], Bcd pair.1 ∧ Bcd pair.2 := by
    simp [Bcd]
  have added := (decimalChains regs (by decide) rfl _ digits).1
  exact ⟨added.2.2.1.trans (by decide),added.2.2.2.mpr (by decide)⟩

end Emu6502
