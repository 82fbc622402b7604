import Emu6502.Registers
import Emu6502.Lib.Interaction

/-! Memory.cpp and emu_bus.cpp: a zero-filled block of 256-byte pages that mirrors
addresses past its end, and the base Bus that forwards to one such block. The buffer
is indexed by its own size, so an access outside it cannot be written down. -/
namespace Emu6502
open Interaction

def maxBytesPerPage : Nat := 256

structure Memory where
  pages : Uint16
  size : Nat
  sized : size = pages.toNat * maxBytesPerPage
  nonzero : pages ≠ 0
  bytes : Fin size → Uint8

namespace Memory

theorem sizePositive (m : Memory) : 0 < m.size := by
  have h : m.pages.toNat ≠ 0 := fun h => m.nonzero (BitVec.eq_of_toNat_eq h)
  rw [m.sized]
  exact Nat.mul_pos (Nat.pos_of_ne_zero h) (by decide)

def ofPages (pages : Uint16) : Memory where
  pages := if pages = 0 then 1 else pages
  size := (if pages = 0 then 1 else pages).toNat * maxBytesPerPage
  sized := rfl
  nonzero := by
    split
    · decide
    · assumption
  bytes _ := 0

def checkAddress (m : Memory) (ad : Uint16) : Fin m.size :=
  if h : ad.toNat < m.size then ⟨ad.toNat,h⟩ else ⟨ad.toNat % m.size,Nat.mod_lt _ m.sizePositive⟩

def read (m : Memory) (address : Uint16) : Uint8 := m.bytes (m.checkAddress address)

def write (m : Memory) (address : Uint16) (value : Uint8) : Memory :=
  {m with bytes := fun i => if i = m.checkAddress address then value else m.bytes i}

/- The length of a bulk access, cut to what fits from the offset on. -/
def clamp (m : Memory) (length : Int) (offset : Uint16) : Int :=
  if m.size - offset.toNat < length then m.size - offset.toNat else length

theorem clampLe (m : Memory) (length : Int) (offset : Uint16) : m.clamp length offset ≤ length := by
  unfold clamp
  split <;> omega

/- The bulk write. A source that is not null has `length` bytes behind it. -/
def writeBulk (m : Memory) {length : Int} (src : Option {block : List Uint8 // length ≤ block.length})
    (offsetDest : Uint16) : Memory :=
  match src with
  | none => m
  | some block =>
    if length ≤ 0 ∨ m.size ≤ offsetDest.toNat then m
    else {m with bytes := fun i =>
      if copied : offsetDest.toNat ≤ i.val ∧ i.val - offsetDest.toNat < m.clamp length offsetDest then
        block.val.get ⟨i.val - offsetDest.toNat,by
          have := block.property
          have := m.clampLe length offsetDest
          omega⟩
      else m.bytes i}

@[simp] theorem writePages (m : Memory) (address value) : (m.write address value).pages = m.pages := rfl

theorem checkAddressVal (m : Memory) (ad : Uint16) : (m.checkAddress ad).val = ad.toNat % m.size := by
  unfold checkAddress
  split
  · rename_i h; exact (Nat.mod_eq_of_lt h).symm
  · rfl

theorem readWriteSame (m : Memory) (address value) : (m.write address value).read address = value := by
  simp only [read,write]
  exact if_pos rfl

theorem readWriteOther (m : Memory) {address other : Uint16} (value)
    (apart : m.checkAddress other ≠ m.checkAddress address) :
    (m.write address value).read other = m.read other := by
  simp only [read,write]
  exact if_neg apart

theorem fullSize {m : Memory} (full : m.pages = 256) : m.size = 65536 := by
  simp [m.sized,full,maxBytesPerPage]

theorem fullDistinct {m : Memory} (full : m.pages = 256) {a b : Uint16} (h : a ≠ b) :
    m.checkAddress a ≠ m.checkAddress b := by
  intro same
  have size := fullSize full
  have vals := congrArg Fin.val same
  rw [checkAddressVal,checkAddressVal,size] at vals
  have := a.isLt
  have := b.isLt
  exact h (BitVec.eq_of_toNat_eq (by omega))

theorem bulkPages (m : Memory) {length : Int} (src : Option {block : List Uint8 // length ≤ block.length})
    (offsetDest : Uint16) : (m.writeBulk src offsetDest).pages = m.pages := by
  cases src with
  | none => rfl
  | some block =>
    unfold writeBulk
    dsimp only
    split <;> rfl

theorem bulkInside {m : Memory} {length : Int} (block : {block : List Uint8 // length ≤ block.length})
    {offsetDest address : Uint16} {k : Nat} (cell : (m.checkAddress address).val = offsetDest.toNat + k)
    (within : k < m.clamp length offsetDest) :
    some ((m.writeBulk (some block) offsetDest).read address) = block.val[k]? := by
  have short := m.clampLe length offsetDest
  have bound := (m.checkAddress address).isLt
  have starts : ¬ (length ≤ 0 ∨ m.size ≤ offsetDest.toNat) := by omega
  have index : (m.checkAddress address).val - offsetDest.toNat = k := by omega
  have copied : offsetDest.toNat ≤ (m.checkAddress address).val ∧
      (m.checkAddress address).val - offsetDest.toNat < m.clamp length offsetDest := by omega
  rw [writeBulk,if_neg starts]
  refine (congrArg some (dif_pos copied)).trans ?_
  rw [List.get_eq_getElem,← List.getElem?_eq_getElem]
  exact congrArg (block.val[·]?) index

/- A block as long as the memory, written from the start. -/
theorem bulkWhole {m : Memory} (full : m.pages = 256) (block : {block : List Uint8 // (65536 : Int) ≤ block.length})
    (address : Uint16) : some ((m.writeBulk (some block) 0).read address) = block.val[address.toNat]? := by
  have size := fullSize full
  have inside := address.isLt
  have clamped : m.clamp 65536 0 = 65536 := by
    rw [clamp,size]
    decide
  refine bulkInside block ?_ ?_
  · rw [checkAddressVal,size,Nat.mod_eq_of_lt inside]
    exact (Nat.zero_add _).symm
  · rw [clamped]
    omega

end Memory

structure Bus where
  mem : Option Memory

namespace Bus

def read (bus : Bus) (address : Uint16) : Uint8 :=
  match bus.mem with
  | some mem => mem.read address
  | none => 0

def write (bus : Bus) (address : Uint16) (value : Uint8) : Bus :=
  match bus.mem with
  | some mem => {bus with mem := some (mem.write address value)}
  | none => bus

def device : Device Uint16 Uint8 Bus where
  read bus address := (bus.read address,bus)
  write bus address value := bus.write address value

/- 64 KB of RAM behind the base Bus: every address is one byte, and only it. -/
def Ram (bus : Bus) : Prop := ∃ m, bus.mem = some m ∧ m.pages = 256

theorem ramWrite {bus : Bus} (ram : bus.Ram) (address value) : (bus.write address value).Ram := by
  obtain ⟨m,connected,full⟩ := ram
  exact ⟨m.write address value,by simp only [write,connected],full⟩

theorem ramReadWrite {bus : Bus} (ram : bus.Ram) (address other : Uint16) (value) :
    (bus.write address value).read other = if other = address then value else bus.read other := by
  obtain ⟨m,connected,full⟩ := ram
  simp only [write,read,connected]
  split
  · rename_i same; subst other; exact m.readWriteSame address value
  · rename_i apart; exact m.readWriteOther value (Memory.fullDistinct full apart)

end Bus

abbrev RamBus := {bus : Bus // bus.Ram}

def RamBus.device : Device Uint16 Uint8 RamBus where
  read bus address := (bus.val.read address,bus)
  write bus address value := ⟨bus.val.write address value,Bus.ramWrite bus.property address value⟩

end Emu6502
