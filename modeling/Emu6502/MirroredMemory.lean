import Emu6502.MemoryArray
import Emu6502.RunLocality
import Emu6502.Lib.Folding

/-! A run on a Memory of any number of pages, against the run on 64 KB. The smaller block mirrors
addresses, the larger one has bytes no address comes to. And a run with no Memory at all. -/
namespace Emu6502
open Interaction

namespace Bus

def cell (bus : Bus) (i : Nat) : Uint8 :=
  match bus.mem with
  | some mem => mem.cell i
  | none => 0

def Sized (size : Nat) (bus : Bus) : Prop := ∃ mem, bus.mem = some mem ∧ mem.size = size

theorem folds (size : Nat) : Bus.device.Folds (Sized size) (fun a => a.toNat % size) cell where
  read bus a sized := by
    obtain ⟨mem,connected,rfl⟩ := sized
    have answer : bus.read a = bus.cell (a.toNat % mem.size) := by
      simp only [read,cell,connected]
      exact mem.readCell a
    exact congrArg (·,bus) answer
  kept bus a v sized := by
    obtain ⟨mem,connected,rfl⟩ := sized
    refine ⟨mem.write a v,?_,rfl⟩
    show (bus.write a v).mem = some (mem.write a v)
    simp only [write,connected]
  write bus a v k sized := by
    obtain ⟨mem,connected,rfl⟩ := sized
    show (bus.write a v).cell k = _
    simp only [write,cell,connected]
    exact mem.writeCell a v k

end Bus

namespace Machine

def onMemory (cpu : Processor) (mem : Memory) : Machine Bus := ⟨cpu,⟨some mem⟩⟩

section run
variable {m : Machine RamBus} {mem : Memory} {events : List Event}

theorem foldedRun (apart : Apart (fun a => a.toNat % mem.size) (m.runLog RamBus.device events))
    (agree : ∀ a, asks a (m.runLog RamBus.device events) = true → mem.read a = m.byte a) :
    ((onMemory m.cpu mem).run Bus.device events).cpu = (m.run RamBus.device events).cpu ∧
      (onMemory m.cpu mem).runLog Bus.device events = m.runLog RamBus.device events ∧
      ∀ a, writes a (m.runLog RamBus.device events) = true →
        ((onMemory m.cpu mem).run Bus.device events).bus.cell (a.toNat % mem.size) = (m.run RamBus.device events).byte a := by
  have ram := runSession RamBus.device m events
  have paged := runSession Bus.device (onMemory m.cpu mem) events
  have folded := Program.runFolded ramStore (Bus.folds mem.size) (Program.session Processor.react m.cpu events)
    (s := m.bus) (t := ⟨some mem⟩) ⟨mem,rfl,rfl⟩ (by rw [ram]; exact apart)
    (by rw [ram]; exact fun a asked => (mem.readCell a).symm.trans (agree a asked))
  rw [ram] at folded
  simp only [onMemory] at paged ⊢
  rw [paged] at folded
  exact folded

theorem apartPrefix {cell : Uint16 → Nat} {before : List Event} (within : before <+: events)
    (apart : Apart cell (m.runLog RamBus.device events)) : Apart cell (m.runLog RamBus.device before) := by
  obtain ⟨rest,rfl⟩ := within
  rw [runLogAppend] at apart
  exact fun x here y there => apart x (List.mem_append_left _ here) y (List.mem_append_left _ there)

theorem asksWithin {before : List Event} (within : before <+: events) {a : Uint16}
    (asked : asks a (m.runLog RamBus.device before) = true) : asks a (m.runLog RamBus.device events) = true := by
  cases silent : asks a (m.runLog RamBus.device events) with
  | true => rfl
  | false =>
    rw [asksPrefix within silent] at asked
    contradiction

theorem foldedLeft (apart : Apart (fun a => a.toNat % mem.size) (m.runLog RamBus.device events))
    (agree : ∀ a, asks a (m.runLog RamBus.device events) = true → mem.read a = m.byte a) :
    ∃ left : Memory, ((onMemory m.cpu mem).run Bus.device events).bus = ⟨some left⟩ ∧ left.size = mem.size ∧
      (∀ a, writes a (m.runLog RamBus.device events) = true → left.read a = (m.run RamBus.device events).byte a) ∧
      ∀ i, (∀ a, writes a (m.runLog RamBus.device events) = true → a.toNat % mem.size ≠ i) → left.cell i = mem.cell i := by
  obtain ⟨_,log,written⟩ := foldedRun apart agree
  have session := runSession Bus.device (onMemory m.cpu mem) events
  have start : Bus.Sized mem.size (onMemory m.cpu mem).bus := ⟨mem,rfl,rfl⟩
  have kept := Program.foldedKept (Bus.folds mem.size) (Program.session Processor.react m.cpu events) start
  have frame := fun i => Program.foldedFrame (Bus.folds mem.size) (Program.session Processor.react m.cpu events) start (k := i)
  rw [show (onMemory m.cpu mem).cpu = m.cpu from rfl] at session
  rw [session] at kept frame
  obtain ⟨left,connected,size⟩ := kept
  have bus : ((onMemory m.cpu mem).run Bus.device events).bus = ⟨some left⟩ := congrArg Bus.mk connected
  rw [bus] at written frame
  refine ⟨left,bus,size,fun a wrote => ?_,fun i unwritten => frame i fun a wrote => unwritten a (log ▸ wrote)⟩
  rw [left.readCell,size]
  exact written a wrote

end run

/-- A program written for 64 KB on a Memory of any number of pages. Where no two addresses of its run
fall on one byte of the block and the bytes it reads ahead of writing them are there, it makes
the same accesses through the same processor states, and of the block it changes only the
bytes it wrote, to what the 64 KB have there. -/
theorem mirroredRun (m : Machine RamBus) (mem : Memory) (events : List Event)
    (apart : Apart (fun a => a.toNat % mem.size) (m.runLog RamBus.device events))
    (agree : ∀ a, asks a (m.runLog RamBus.device events) = true → mem.read a = m.byte a) :
    (onMemory m.cpu mem).runLog Bus.device events = m.runLog RamBus.device events ∧
    (∀ before, before <+: events →
      ((onMemory m.cpu mem).run Bus.device before).cpu = (m.run RamBus.device before).cpu) ∧
    ∃ left : Memory, ((onMemory m.cpu mem).run Bus.device events).bus = ⟨some left⟩ ∧ left.size = mem.size ∧
      (∀ a, writes a (m.runLog RamBus.device events) = true → left.read a = (m.run RamBus.device events).byte a) ∧
      ∀ i, (∀ a, writes a (m.runLog RamBus.device events) = true → a.toNat % mem.size ≠ i) → left.cell i = mem.cell i := by
  refine ⟨(foldedRun apart agree).2.1,fun before within => ?_,foldedLeft apart agree⟩
  exact (foldedRun (apartPrefix within apart) fun a asked => agree a (asksWithin within asked)).1

/- With 256 pages or more nothing is mirrored, and the rest of the block is out of reach. -/

theorem wideCell {mem : Memory} (wide : 65536 ≤ mem.size) {a b : Uint16} (shared : a.toNat % mem.size = b.toNat % mem.size) :
    a = b := by
  have left := a.isLt
  have right := b.isLt
  rw [Nat.mod_eq_of_lt (by omega),Nat.mod_eq_of_lt (by omega)] at shared
  exact BitVec.eq_of_toNat_eq shared

theorem wideRun (m : Machine RamBus) (mem : Memory) (events : List Event) (wide : 65536 ≤ mem.size)
    (same : ∀ a, mem.read a = m.byte a) :
    ((onMemory m.cpu mem).run Bus.device events).cpu = (m.run RamBus.device events).cpu ∧
      ∀ a, ((onMemory m.cpu mem).run Bus.device events).bus.read a = (m.run RamBus.device events).byte a := by
  have apart : Apart (fun a => a.toNat % mem.size) (m.runLog RamBus.device events) :=
    fun x _ y _ shared => wideCell wide shared
  obtain ⟨left,bus,size,written,frame⟩ := foldedLeft apart fun a _ => same a
  refine ⟨(foldedRun apart fun a _ => same a).1,fun a => ?_⟩
  rw [bus]
  show left.read a = _
  cases wrote : writes a (m.runLog RamBus.device events) with
  | true => exact written a wrote
  | false =>
    have aside : left.cell (a.toNat % mem.size) = mem.cell (a.toNat % mem.size) := by
      refine frame _ fun b other shared => ?_
      rw [wideCell wide shared,wrote] at other
      contradiction
    rw [left.readCell,size,aside,← mem.readCell,same,byteFrame wrote]

def smallMemory : Memory := (((Memory.ofPages 8).write 0x07fb 0x05).write 0x0500 0x40)

theorem vectorMirrored :
    let m := ramRig [(0xfffb,0x05),(0x0500,0x40)]
    ((onMemory m.cpu smallMemory).run Bus.device [.nmi,.step,.step]).cpu = (m.run RamBus.device [.nmi,.step,.step]).cpu := by
  intro m
  have apart : Apart (fun a => a.toNat % smallMemory.size) (m.runLog RamBus.device [.nmi,.step,.step]) := by decide
  have here : ∀ x ∈ m.runLog RamBus.device [.nmi,.step,.step], smallMemory.read x.address = m.byte x.address := by decide
  refine (mirroredRun m smallMemory [.nmi,.step,.step] apart fun a asked => ?_).2.1 _ List.prefix_rfl
  obtain ⟨access,member,address⟩ := asksMember asked
  exact address ▸ here access member

def unconnected (cpu : Processor) : Machine Bus := ⟨cpu,⟨none⟩⟩

/- Whatever a step has to serve, it goes the way of a BRK, with nothing kept of what it pushes. -/
structure Breaks (cpu : Processor) (later : Machine Bus) : Prop where
  bus : later.bus = ⟨none⟩
  regs : later.cpu.regs = serviceRegs cpu.regs 0 0
  cycles : later.cpu.cycles = cpu.cycles + 7

theorem unconnectedStep (cpu : Processor) : Breaks cpu ((unconnected cpu).step Bus.device) := by
  cases pending : cpu.nmiPending with
  | true =>
    rw [step,stepped,unconnected,Processor.stepNmi pending,servicePattern]
    exact ⟨rfl,rfl,rfl⟩
  | false =>
    cases free : cpu.executes with
    | true =>
      have whole := steppedExecute Bus.device (m := unconnected cpu) free
      have fetched : Bus.device.read (unconnected cpu).bus (unconnected cpu).cpu.regs.pc = (0,⟨none⟩) := rfl
      rw [fetched] at whole
      rw [step,whole]
      exact ⟨rfl,rfl,rfl⟩
    | false =>
      have taken : cpu.irqLine = true ∧ cpu.masked = false := by simpa [Processor.executes,pending] using free
      rw [step,stepped,unconnected,Processor.stepIrq pending taken.1 taken.2,servicePattern]
      exact ⟨rfl,rfl,rfl⟩

def afterBreaks (regs : Registers) : Nat → Registers
  | 0 => regs
  | n + 1 => {regs.setStatus flagI true with sp := regs.sp - BitVec.ofNat 8 (3 * (n + 1)), pc := 0}

theorem breakAgain (regs : Registers) (n : Nat) : afterBreaks (serviceRegs regs 0 0) n = afterBreaks regs (n + 1) := by
  cases n with
  | zero =>
    have sp : regs.sp - 1 - 1 - 1 = regs.sp - BitVec.ofNat 8 (3 * (0 + 1)) := by bv_omega
    have target : word 0 0 = 0 := by decide
    rw [afterBreaks,serviceRegs,sp,target,afterBreaks]
  | succ n =>
    have sp : regs.sp - 1 - 1 - 1 - BitVec.ofNat 8 (3 * (n + 1)) = regs.sp - BitVec.ofNat 8 (3 * (n + 1 + 1)) := by
      bv_omega
    have sr : ((regs.setStatus flagI true).setStatus flagI true).sr = (regs.setStatus flagI true).sr := by
      simp only [Registers.setStatus,if_true,BitVec.or_assoc,BitVec.or_self]
    simp only [afterBreaks,serviceRegs,Registers.mk.injEq,Registers.setStatusA,Registers.setStatusX,Registers.setStatusY,
      Registers.setStatusDecimalDisabled,true_and,and_true]
    exact ⟨sr,sp⟩

/-- Over no Memory the calls make no difference: every step takes seven cycles, moves the stack
pointer by three, sets I and leaves pc at the vector read as zero. -/
theorem unconnectedRun (cpu : Processor) (events : List Event) :
    let later := (unconnected cpu).run Bus.device events
    later.bus = ⟨none⟩ ∧ later.cpu.regs = afterBreaks cpu.regs (events.count .step) ∧
      later.cpu.cycles = cpu.cycles + 7 * events.count .step := by
  induction events generalizing cpu with
  | nil => exact ⟨rfl,rfl,rfl⟩
  | cons e events ih =>
    cases e with
    | step =>
      have breaks := unconnectedStep cpu
      have next : (unconnected cpu).step Bus.device = unconnected ((unconnected cpu).step Bus.device).cpu :=
        congrArg (Machine.mk _) breaks.bus
      obtain ⟨bus,regs,cycles⟩ := ih ((unconnected cpu).step Bus.device).cpu
      simp only [runCons,apply,List.count_cons_self]
      rw [next]
      refine ⟨bus,?_,?_⟩
      · rw [regs,breaks.regs,breakAgain]
      · rw [cycles,breaks.cycles]
        omega
    | nmi => exact ih cpu.nmi
    | irq asserted => exact ih (cpu.irq asserted)

end Machine
end Emu6502
