import Mathlib.Algebra.Group.Nat.Defs

/-! Stacks that grow down through a store, with a pointer of fixed width that wraps. The
pointer names the next free cell; a frame is what lies above it, nearest first. -/
namespace Emu6502.WrappingStack

structure Store (w : Nat) (V S : Type) where
  read : S → BitVec w → V
  write : S → BitVec w → V → S
  readWrite : ∀ s cell other v, read (write s cell v) other = if other = cell then v else read s other

variable {w : Nat} {V S : Type} (store : Store w V S)

def Holds (s : S) (sp : BitVec w) : List V → Prop
  | [] => True
  | v :: rest => store.read s (sp + 1#w) = v ∧ Holds s (sp + 1#w) rest

theorem aboveApart (sp : BitVec w) {k : Nat} (positive : 0 < k) (below : k < 2^w) :
    sp + BitVec.ofNat w k ≠ sp := by
  intro same
  have whole : sp.toNat + k < sp.toNat + 2^w := by omega
  have val := congrArg BitVec.toNat same
  rw [BitVec.toNat_add,BitVec.toNat_ofNat,Nat.add_mod_mod] at val
  have small := sp.isLt
  by_cases wraps : sp.toNat + k < 2^w
  · rw [Nat.mod_eq_of_lt wraps] at val
    omega
  · rw [Nat.mod_eq_sub_mod (by omega),Nat.mod_eq_of_lt (by omega)] at val
    omega

theorem aboveNext (sp : BitVec w) (k : Nat) : sp + 1#w + BitVec.ofNat w k = sp + BitVec.ofNat w (k+1) := by
  rw [BitVec.add_assoc,BitVec.ofNat_add_ofNat,Nat.add_comm]

theorem holdsAgree {s t : S} {sp : BitVec w} {frame : List V}
    (agree : ∀ k, 0 < k → k ≤ frame.length →
      store.read t (sp + BitVec.ofNat w k) = store.read s (sp + BitVec.ofNat w k))
    (held : Holds store s sp frame) : Holds store t sp frame := by
  induction frame generalizing sp with
  | nil => trivial
  | cons v rest ih =>
    refine ⟨(agree 1 (by omega) (by simp)).trans held.1,ih ?_ held.2⟩
    intro k positive short
    rw [aboveNext]
    exact agree (k+1) (by omega) (by simpa using short)

theorem holdsPush {s : S} {sp : BitVec w} {frame : List V} (room : frame.length < 2^w) (v : V)
    (held : Holds store s sp frame) : Holds store (store.write s sp v) (sp - 1#w) (v :: frame) := by
  have back : sp - 1#w + 1#w = sp := BitVec.sub_add_cancel sp 1#w
  refine ⟨?_,?_⟩
  · rw [back,store.readWrite,if_pos rfl]
  · rw [back]
    refine holdsAgree store (fun k positive short => ?_) held
    rw [store.readWrite,if_neg (aboveApart sp positive (by omega))]

end Emu6502.WrappingStack
