import Emu6502.CompileImage

/-! The image as something to reset into. The vector is stored before the code and the
cursor wraps in silence, so a run that reaches $FFFC leaves no vector, and one longer than
the memory writes over itself. -/
namespace Emu6502
open WrappingCursor

structure Resettable (base : Uint16) (bytes image : List Uint8) : Prop where
  present : ∀ k (within : k < bytes.length), image[(base.toNat + k) % 65536]? = some bytes[k]
  vector : image[0xfffc]? = some (lowByte base) ∧ image[0xfffd]? = some (highByte base)
  apart : (addresses base bytes.length).Nodup
  clear : 0xfffc ∉ addresses base bytes.length ∧ 0xfffd ∉ addresses base bytes.length

/- What fits between the base and the vector, by way of address 0 for a base above it. -/
def room (base : Uint16) : Nat := if base = 0xfffd then 0 else (0xfffc - base).toNat

theorem roomOutside {base : Uint16} {k : Nat} (within : k < room base) :
    (base.toNat + k) % 65536 ≠ 0xfffc ∧ (base.toNat + k) % 65536 ≠ 0xfffd := by
  unfold room at within
  split at within
  · contradiction
  · rename_i notVector
    have differ : base.toNat ≠ 0xfffd := fun same => notVector (BitVec.eq_of_toNat_eq same)
    have bound := base.isLt
    have gap : (0xfffc - base).toNat = (2^16 - base.toNat + 0xfffc) % 2^16 := BitVec.toNat_sub 0xfffc base
    omega

theorem roomHits (base : Uint16) :
    base + BitVec.ofNat 16 (room base) = 0xfffc ∨ base + BitVec.ofNat 16 (room base) = 0xfffd := by
  unfold room
  split
  · rename_i vector
    exact Or.inr ((BitVec.add_zero base).trans vector)
  · refine Or.inl ?_
    rw [BitVec.ofNat_toNat,BitVec.setWidth_eq,BitVec.add_comm,BitVec.sub_add_cancel]

theorem roomEnough {base : Uint16} {bytes : List Uint8} (fits : bytes.length ≤ room base) :
    Resettable base bytes (imageOf base bytes) := by
  have small : room base ≤ 65536 := by
    unfold room
    split
    · decide
    · exact Nat.le_of_lt (0xfffc - base).isLt
  have spec : ImageSpec base bytes (imageOf base bytes) := imageSpec (by omega)
  have outside : ∀ k < bytes.length, (base.toNat + k) % 65536 ≠ 0xfffc ∧ (base.toNat + k) % 65536 ≠ 0xfffd :=
    fun k within => roomOutside (by omega)
  have missed : ∀ cell : Uint16, (∀ k < bytes.length, (base.toNat + k) % 65536 ≠ cell.toNat) →
      cell ∉ addresses base bytes.length := fun cell misses member => by
    obtain ⟨k,below,same⟩ := List.mem_map.mp member
    exact misses k (List.mem_range.mp below) ((cellNat base k).symm.trans (congrArg BitVec.toNat same))
  exact {
    present := spec.code
    vector := ⟨spec.vectorLow fun k within => (outside k within).1,spec.vectorHigh fun k within => (outside k within).2⟩
    apart := (addressesNodup base _).mpr (by omega)
    clear := ⟨missed 0xfffc fun k within => (outside k within).1,missed 0xfffd fun k within => (outside k within).2⟩}

theorem roomNeeded {base : Uint16} {bytes image : List Uint8} (resettable : Resettable base bytes image) :
    bytes.length ≤ room base := by
  by_contra long
  have member : base + BitVec.ofNat 16 (room base) ∈ addresses base bytes.length :=
    List.mem_map.mpr ⟨room base,List.mem_range.mpr (by omega),rfl⟩
  rcases roomHits base with low | high
  · exact resettable.clear.1 (low ▸ member)
  · exact resettable.clear.2 (high ▸ member)

section reset
variable (beyond : List Char → BitVec 32)

/- compile either throws or returns an image the whole of the program can be reset into. -/
def ResetsInto (base : Uint16) (lines : List (List Char)) : Prop :=
  ∀ image, compile beyond base lines = .ok image →
    ∃ bytes, program beyond lines = some bytes ∧ Resettable base bytes image

theorem resetsIntoIff (base : Uint16) (lines : List (List Char)) :
    ResetsInto beyond base lines ↔ ∀ bytes, program beyond lines = some bytes → bytes.length ≤ room base := by
  constructor
  · intro resets bytes accepted
    obtain ⟨bytes',same,resettable⟩ := resets _ (compileImage beyond accepted base)
    obtain rfl := Option.some.inj (accepted.symm.trans same)
    exact roomNeeded resettable
  · intro fits image returned
    rcases acceptedOrRejected beyond lines with ⟨bytes,accepted⟩ | ⟨k,rejected⟩
    · have same := (compileImage beyond accepted base).symm.trans returned
      obtain rfl := Except.ok.inj same
      exact ⟨bytes,accepted,roomEnough (fits bytes accepted)⟩
    · rw [compileError beyond rejected base] at returned
      contradiction

end reset

theorem vectorOverwritten : ¬ ResetsInto (fun _ => 0) 0xfffc [['n','o','p']] := by
  intro resets
  have accepted : program (fun _ => 0) [['n','o','p']] = some [0xea] := rfl
  obtain ⟨bytes,same,resettable⟩ := resets _ (compileImage _ accepted 0xfffc)
  obtain rfl := Option.some.inj (accepted.symm.trans same)
  exact resettable.clear.1 (by decide)

end Emu6502
