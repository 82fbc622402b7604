import Emu6502.Memory
import Emu6502.Lib.Overlay

/-! Both access paths of Memory over one buffer: single accesses mirror, bulk transfers
clamp. Any sequence of them is an array of `size` bytes. -/
namespace Emu6502
namespace Memory

/- A block behind a pointer that may be null, and that the caller says has `length` bytes. -/
abbrev Block (length : Int) := Option {block : List Uint8 // length ≤ block.length}

theorem clampFits (m : Memory) (length : Int) (offset : Uint16) : m.clamp length offset ≤ m.size - offset.toNat := by
  unfold clamp
  split <;> omega

def copied (m : Memory) (length : Int) (offsetSrc : Uint16) : List Uint8 :=
  List.ofFn fun k : Fin (m.clamp length offsetSrc).toNat => m.bytes ⟨offsetSrc.toNat + k.val,by
    have fits := m.clampFits length offsetSrc
    have inside := k.isLt
    omega⟩

def readBulk (m : Memory) {length : Int} (dst : Block length) (offsetSrc : Uint16) : Block length :=
  match dst with
  | none => none
  | some block =>
    if length ≤ 0 ∨ m.size ≤ offsetSrc.toNat then some block
    else some ⟨m.copied length offsetSrc ++ block.val.drop (m.clamp length offsetSrc).toNat,by
      have room := block.property
      have short := m.clampLe length offsetSrc
      simp only [copied,List.length_append,List.length_ofFn,List.length_drop]
      omega⟩

end Memory

/-- The four access functions of Memory. -/
inductive MemoryCall where
  | read (address : Uint16)
  | write (address : Uint16) (value : Uint8)
  | readBulk (length : Int) (dst : Memory.Block length) (offsetSrc : Uint16)
  | writeBulk (length : Int) (src : Memory.Block length) (offsetDest : Uint16)

namespace Memory

def call (m : Memory) : MemoryCall → Memory
  | .read _ | .readBulk _ _ _ => m
  | .write address value => m.write address value
  | .writeBulk _ src offsetDest => m.writeBulk src offsetDest

def calls (m : Memory) (sequence : List MemoryCall) : Memory := Transition.run call m sequence

/- The positions a call touches, computed as the code does: memcpy runs from the offset on. -/
def span (m : Memory) {length : Int} (block : Block length) (offset : Uint16) : List Nat :=
  if block.isNone ∨ length ≤ 0 ∨ m.size ≤ offset.toNat then []
  else (List.range (m.clamp length offset).toNat).map (offset.toNat + ·)

def touched (m : Memory) : MemoryCall → List Nat
  | .read address | .write address _ => [if address.toNat < m.size then address.toNat else address.toNat % m.size]
  | .readBulk _ block offset | .writeBulk _ block offset => m.span block offset

theorem spanMem {m : Memory} {length : Int} {block : Block length} {offset : Uint16} {i : Nat} :
    i ∈ m.span block offset ↔ block.isSome ∧ offset.toNat ≤ i ∧ (i - offset.toNat : Int) < length ∧ i < m.size := by
  cases block with
  | none => simp [span]
  | some block =>
    simp only [span,Option.isNone_some,Option.isSome_some,Bool.false_eq_true,false_or,true_and]
    split
    · simp only [List.not_mem_nil,false_iff]
      omega
    · simp only [List.mem_map,List.mem_range,clamp]
      constructor
      · rintro ⟨k,short,rfl⟩
        split at short <;> omega
      · rintro ⟨from_,short,fits⟩
        refine ⟨i - offset.toNat,?_,by omega⟩
        split <;> omega

theorem touchedSingle (m : Memory) (address : Uint16) : m.touched (.read address) = [address.toNat % m.size] := by
  rw [touched]
  split
  · rename_i low
    rw [Nat.mod_eq_of_lt low]
  · rfl

theorem touchedInside (m : Memory) (call : MemoryCall) : ∀ i ∈ m.touched call, i < m.size := by
  cases call with
  | readBulk length block offset => exact fun i member => (spanMem.mp member).2.2.2
  | writeBulk length block offset => exact fun i member => (spanMem.mp member).2.2.2
  | read address | write address value =>
    intro i member
    obtain rfl := List.mem_singleton.mp (m.touchedSingle address ▸ member)
    exact Nat.mod_lt _ m.sizePositive

/- The byte at a position of the buffer; no position from `size` on is ever asked for. -/
def cell (m : Memory) (i : Nat) : Uint8 := if h : i < m.size then m.bytes ⟨i,h⟩ else 0

theorem readCell (m : Memory) (address : Uint16) : m.read address = m.cell (address.toNat % m.size) := by
  have inside := Nat.mod_lt address.toNat m.sizePositive
  rw [read,cell,dif_pos inside]
  exact congrArg m.bytes (Fin.ext (m.checkAddressVal address))

/- What a call stores at a position of a buffer of `size` bytes. -/
def stores (size : Nat) : MemoryCall → Nat → Option Uint8
  | .read _,_ | .readBulk _ _ _,_ | .writeBulk _ none _,_ => none
  | .write address value,i => if i = address.toNat % size then some value else none
  | .writeBulk length (some src) offset,i =>
    if offset.toNat ≤ i ∧ i - offset.toNat < min length (size - offset.toNat) then
      src.val[i - offset.toNat]?
    else none

theorem callPages (m : Memory) (call : MemoryCall) : (m.call call).pages = m.pages := by
  cases call with
  | writeBulk length src offset => exact m.bulkPages src offset
  | _ => rfl

theorem callSize (m : Memory) (call : MemoryCall) : (m.call call).size = m.size := by
  rw [sized,sized,callPages]

theorem writeCell (m : Memory) (address : Uint16) (value : Uint8) (i : Nat) :
    (m.write address value).cell i = if i = address.toNat % m.size then value else m.cell i := by
  have wrapped := Nat.mod_lt address.toNat m.sizePositive
  by_cases inside : i < m.size
  · have same : (⟨i,inside⟩ : Fin m.size) = m.checkAddress address ↔ i = address.toNat % m.size := by
      rw [Fin.ext_iff,checkAddressVal]
    simp only [cell,write,dif_pos inside,same]
  · rw [if_neg (by omega),cell,cell,dif_neg inside]
    exact dif_neg inside

theorem bulkCell (m : Memory) {length : Int} (src : {block : List Uint8 // length ≤ block.length})
    (offset : Uint16) (i : Nat) :
    (m.writeBulk (some src) offset).cell i =
      (stores m.size (.writeBulk length (some src) offset) i).getD (m.cell i) := by
  have room := src.property
  simp only [writeBulk,stores]
  by_cases skipped : length ≤ 0 ∨ m.size ≤ offset.toNat
  · rw [if_pos skipped,if_neg (by omega)]
    rfl
  · rw [if_neg skipped]
    by_cases inside : i < m.size
    · simp only [cell,dif_pos inside]
      by_cases copied : offset.toNat ≤ i ∧ i - offset.toNat < min length (m.size - offset.toNat)
      · have clamped : offset.toNat ≤ i ∧ i - offset.toNat < m.clamp length offset := by
          unfold clamp
          split <;> omega
        have within : i - offset.toNat < src.val.length := by omega
        rw [dif_pos clamped,if_pos copied,List.getElem?_eq_getElem within]
        rfl
      · have clamped : ¬ (offset.toNat ≤ i ∧ i - offset.toNat < m.clamp length offset) := by
          unfold clamp
          split <;> omega
        rw [dif_neg clamped,if_neg copied]
        rfl
    · rw [if_neg (by omega)]
      simp only [cell,dif_neg inside]
      rfl

theorem storesTouched {m : Memory} {call : MemoryCall} {i : Nat} (stored : (stores m.size call i).isSome) :
    i ∈ m.touched call := by
  cases call with
  | read address => contradiction
  | readBulk length dst offset => contradiction
  | write address value =>
    rw [stores] at stored
    split at stored
    · rename_i here
      exact m.touchedSingle address ▸ List.mem_singleton.mpr here
    · contradiction
  | writeBulk length src offset =>
    cases src with
    | none => contradiction
    | some src =>
      rw [stores] at stored
      split at stored
      · exact spanMem.mpr ⟨rfl,by omega⟩
      · contradiction

theorem callOverlays (size : Nat) :
    Overlay.Overlays call (fun m => m.size = size) cell (stores size) where
  kept m c sized := (m.callSize c).trans sized
  stored m c i sized := by
    subst sized
    cases c with
    | read address => rfl
    | readBulk length dst offset => rfl
    | write address value =>
      rw [call,writeCell,stores]
      split <;> rfl
    | writeBulk length src offset =>
      cases src with
      | none => rfl
      | some src => exact m.bulkCell src offset i

theorem callFrame {m : Memory} {call : MemoryCall} {i : Nat} (apart : i ∉ m.touched call) :
    (m.call call).cell i = m.cell i := by
  rw [(callOverlays m.size).stored m call i rfl]
  cases stored : stores m.size call i with
  | none => rfl
  | some v => exact absurd (storesTouched (stored ▸ rfl)) apart

theorem callsSize (m : Memory) (sequence : List MemoryCall) : (m.calls sequence).size = m.size :=
  Transition.runInvariant call (I := fun later => later.size = m.size) rfl
    fun met _ sized => (met.1.callSize met.2).trans sized

theorem callsCell (pages : Uint16) (sequence : List MemoryCall) (i : Nat) :
    ((ofPages pages).calls sequence).cell i =
      (Overlay.lastStored (stores (ofPages pages).size) i sequence).getD 0 := by
  have fresh : (ofPages pages).cell i = 0 := by
    rw [cell]
    split <;> rfl
  rw [calls,Overlay.runHolds (callOverlays _) rfl,fresh]

theorem copiedAt (m : Memory) (length : Int) (offset : Uint16) {i : Nat} (within : i < m.clamp length offset) :
    (m.copied length offset)[i]? = some (m.cell (offset.toNat + i)) := by
  have fits := m.clampFits length offset
  have inside : offset.toNat + i < m.size := by omega
  rw [copied,List.getElem?_ofFn,dif_pos (by omega),cell,dif_pos inside]

theorem copiedLength (m : Memory) (length : Int) (offset : Uint16) :
    (m.copied length offset).length = (m.clamp length offset).toNat := List.length_ofFn

theorem readBulkAt (m : Memory) {length : Int} (dst : {block : List Uint8 // length ≤ block.length})
    (offset : Uint16) :
    ∃ filled, m.readBulk (some dst) offset = some filled ∧ filled.val.length = dst.val.length ∧
      ∀ i : Nat, filled.val[i]? =
        if i < min length (m.size - offset.toNat) then some (m.cell (offset.toNat + i)) else dst.val[i]? := by
  have room := dst.property
  have short := m.clampLe length offset
  simp only [readBulk]
  by_cases skipped : length ≤ 0 ∨ m.size ≤ offset.toNat
  · rw [if_pos skipped]
    refine ⟨dst,rfl,rfl,fun i => ?_⟩
    rw [if_neg (by omega)]
  · rw [if_neg skipped]
    have clamped : m.clamp length offset = min length (m.size - offset.toNat) := by
      unfold clamp
      split <;> omega
    refine ⟨_,rfl,?_,fun i => ?_⟩
    · simp only [List.length_append,copiedLength,List.length_drop]
      omega
    · split
      · rename_i within
        have copied := m.copiedAt length offset (clamped ▸ within)
        rw [List.getElem?_append_left (List.getElem?_eq_some_iff.mp copied).1,copied]
      · rw [List.getElem?_append_right (by rw [copiedLength]; omega),List.getElem?_drop,copiedLength]
        congr 1
        omega

/-! Two buffers of one size that agree on what a call touches give it the same answer. -/

def Agrees (m n : Memory) (call : MemoryCall) : Prop := n.size = m.size ∧ ∀ i ∈ m.touched call, n.cell i = m.cell i

theorem readAgrees {m n : Memory} {address : Uint16} (agrees : m.Agrees n (.read address)) : n.read address = m.read address := by
  obtain ⟨size,same⟩ := agrees
  rw [readCell,readCell,size]
  exact same _ (m.touchedSingle address ▸ List.mem_singleton_self _)

theorem readBulkAgrees {m n : Memory} {length : Int} {dst : Block length} {offset : Uint16}
    (agrees : m.Agrees n (.readBulk length dst offset)) : n.readBulk dst offset = m.readBulk dst offset := by
  obtain ⟨size,same⟩ := agrees
  have clamps : n.clamp length offset = m.clamp length offset := by
    unfold clamp
    rw [size]
  cases dst with
  | none => rfl
  | some block =>
    simp only [readBulk,size,clamps]
    split
    · rfl
    · rename_i copying
      have read : n.copied length offset = m.copied length offset := by
        refine List.ext_getElem? fun i => ?_
        by_cases within : (i : Int) < m.clamp length offset
        · have short := m.clampLe length offset
          have fits := m.clampFits length offset
          rw [m.copiedAt length offset within,n.copiedAt length offset (clamps ▸ within),
            same _ (spanMem.mpr ⟨rfl,by omega⟩)]
        · rw [List.getElem?_eq_none (by rw [copiedLength]; omega),List.getElem?_eq_none (by rw [copiedLength]; omega)]
      simp only [read]

theorem freshSize (pages : Uint16) : (ofPages pages).size = max 1 pages.toNat * maxBytesPerPage := by
  by_cases none : pages = 0
  · subst none
    rfl
  · have positive : pages.toNat ≠ 0 := fun zero => none (BitVec.eq_of_toNat_eq zero)
    rw [Nat.max_eq_right (Nat.one_le_iff_ne_zero.mpr positive)]
    exact congrArg (fun counted : Uint16 => counted.toNat * maxBytesPerPage) (if_neg none)

/-- After any calls on a fresh memory, a single read returns the byte last stored at its address
mod the size, a bulk read fills its clamped part with what single reads return and leaves the rest,
and a further call changes and depends on the positions it touches only, all inside the buffer. -/
theorem oneArray (pages : Uint16) (sequence : List MemoryCall) :
    let m := (ofPages pages).calls sequence
    m.size = max 1 pages.toNat * maxBytesPerPage ∧
    (∀ a, m.read a = (Overlay.lastStored (stores m.size) (a.toNat % m.size) sequence).getD 0) ∧
    (∀ call, ∀ i ∈ m.touched call, i < m.size) ∧
    (∀ (length : Int) (dst : {block : List Uint8 // length ≤ block.length}) (offset : Uint16),
      ∃ filled, m.readBulk (some dst) offset = some filled ∧ filled.val.length = dst.val.length ∧
        ∀ i : Nat,
          (i < min length (m.size - offset.toNat) → offset.toNat + i ≤ 65535 →
            filled.val[i]? = some (m.read (BitVec.ofNat 16 (offset.toNat + i)))) ∧
          (¬ i < min length (m.size - offset.toNat) → filled.val[i]? = dst.val[i]?)) ∧
    (∀ call i, i ∉ m.touched call → (m.call call).cell i = m.cell i) ∧
    (∀ n a, m.Agrees n (.read a) → n.read a = m.read a) ∧
    ∀ n length (dst : Block length) offset, m.Agrees n (.readBulk length dst offset) →
      n.readBulk dst offset = m.readBulk dst offset := by
  intro m
  have size : m.size = (ofPages pages).size := callsSize _ sequence
  refine ⟨size.trans (freshSize pages),fun a => ?_,m.touchedInside,fun length dst offset => ?_,fun _ _ => callFrame,
    fun _ _ => readAgrees,fun _ _ _ _ => readBulkAgrees⟩
  · rw [readCell,size]
    exact callsCell pages sequence _
  · obtain ⟨filled,read,long,bytes⟩ := m.readBulkAt dst offset
    refine ⟨filled,read,long,fun i => ⟨fun within addressed => ?_,fun beyond => ?_⟩⟩
    · have inside : offset.toNat + i < m.size := by omega
      have low : (BitVec.ofNat 16 (offset.toNat + i)).toNat = offset.toNat + i := by
        rw [BitVec.toNat_ofNat]
        omega
      rw [bytes,if_pos within,readCell,low,Nat.mod_eq_of_lt inside]
    · rw [bytes,if_neg beyond]

example : ((ofPages 2).calls [.write 0xffff 0x77]).read 0x01ff = 0x77 := by decide

end Memory
end Emu6502
