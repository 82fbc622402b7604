import Mathlib.Data.List.Nodup
import Mathlib.Logic.Function.Basic
import Emu6502.Lib.WrappingStack

/-! Values written one after another through a cursor that wraps around a memory of 2^w
cells. -/
namespace Emu6502.WrappingCursor
variable {w : Nat} {V : Type}

def place (cells : BitVec w → V) (start : BitVec w) : List V → BitVec w → V
  | [] => cells
  | v :: vs => place (Function.update cells start v) (start + 1) vs

/- The cells the first n values go to, in order. -/
def addresses (start : BitVec w) (n : Nat) : List (BitVec w) := (List.range n).map fun k => start + BitVec.ofNat w k

theorem nextCell (start : BitVec w) (k : Nat) : start + 1 + BitVec.ofNat w k = start + BitVec.ofNat w (k+1) := by
  rw [BitVec.add_assoc,Nat.add_comm k,BitVec.ofNat_add]
  rfl

theorem firstCell (start : BitVec w) : start + BitVec.ofNat w 0 = start := BitVec.add_zero start

theorem cellsApart (start : BitVec w) {i j : Nat} (less : i < j) (within : j < 2^w) :
    start + BitVec.ofNat w j ≠ start + BitVec.ofNat w i := by
  have above := WrappingStack.aboveApart (start + BitVec.ofNat w i) (k := j - i) (by omega) (by omega)
  rwa [BitVec.add_assoc,← BitVec.ofNat_add,Nat.add_sub_cancel' (Nat.le_of_lt less)] at above

theorem placeOutside {cells : BitVec w → V} {start cell : BitVec w} {vs : List V}
    (outside : ∀ k < vs.length, start + BitVec.ofNat w k ≠ cell) : place cells start vs cell = cells cell := by
  induction vs generalizing cells start with
  | nil => rfl
  | cons v vs ih =>
    have later : ∀ k < vs.length, start + 1 + BitVec.ofNat w k ≠ cell := fun k within => by
      rw [nextCell]
      exact outside (k+1) (Nat.succ_lt_succ within)
    have first := outside 0 (Nat.succ_pos _)
    rw [firstCell] at first
    exact (ih later).trans (Function.update_of_ne first.symm v cells)

theorem placeInside {cells : BitVec w → V} {start : BitVec w} {vs : List V} (fits : vs.length ≤ 2^w) {k : Nat}
    (within : k < vs.length) : place cells start vs (start + BitVec.ofNat w k) = vs[k] := by
  induction vs generalizing cells start k with
  | nil => contradiction
  | cons v vs ih =>
    rw [List.length_cons] at fits within
    cases k with
    | zero =>
      have outside : ∀ j < vs.length, start + 1 + BitVec.ofNat w j ≠ start + BitVec.ofNat w 0 := fun j below => by
        rw [nextCell]
        exact cellsApart start (Nat.succ_pos j) (by omega)
      rw [place,placeOutside outside,firstCell]
      exact Function.update_self start v cells
    | succ k =>
      rw [place,← nextCell]
      exact ih (by omega) (by omega)

theorem placeAppend (cells : BitVec w → V) (start : BitVec w) (vs ws : List V) :
    place cells start (vs ++ ws) = place (place cells start vs) (start + BitVec.ofNat w vs.length) ws := by
  induction vs generalizing cells start with
  | nil => rw [List.length_nil,firstCell]; rfl
  | cons v vs ih => rw [List.cons_append,place,ih,nextCell]; rfl

theorem addressesNodup (start : BitVec w) (n : Nat) : (addresses start n).Nodup ↔ n ≤ 2^w := by
  constructor
  · intro apart
    by_contra long
    have positive := Nat.two_pow_pos w
    have whole : BitVec.ofNat w (2^w) = BitVec.ofNat w 0 := by
      apply BitVec.eq_of_toNat_eq
      rw [BitVec.toNat_ofNat,BitVec.toNat_ofNat,Nat.mod_self,Nat.zero_mod]
    have same := List.inj_on_of_nodup_map apart (List.mem_range.mpr (show 2^w < n by omega))
      (List.mem_range.mpr (show 0 < n by omega)) (congrArg (start + ·) whole)
    omega
  · intro fits
    refine List.nodup_map_iff_inj_on List.nodup_range |>.mpr fun i first j second same => ?_
    have first := List.mem_range.mp first
    have second := List.mem_range.mp second
    rcases Nat.lt_trichotomy i j with less | rfl | more
    · exact absurd same.symm (cellsApart start less (by omega))
    · rfl
    · exact absurd same (cellsApart start more (by omega))

end Emu6502.WrappingCursor
