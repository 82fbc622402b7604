import Emu6502.Session
import Emu6502.Lib.Locality

/-! What a run on 64 KB of RAM owes to the memory it starts on: the bytes it reads before it
writes them, and nothing else. Steps, nmi() and irq() calls are one program over the bus. -/
namespace Emu6502
open Interaction

theorem ramStore : RamBus.device.IsStore fun bus a => bus.val.read a where
  read _ _ := rfl
  write bus a v b := Bus.ramReadWrite bus.property a b v

def Processor.react (cpu : Processor) : Event → Program Uint16 Uint8 Processor
  | .step => cpu.step >>= fun out => .done out.2
  | .nmi => .done cpu.nmi
  | .irq asserted => .done (cpu.irq asserted)

namespace Machine
section device
variable {σ : Type} (d : Device Uint16 Uint8 σ)

/- What one event puts on the bus. -/
def eventLog (met : Machine σ × Event) : List (Access Uint16 Uint8) :=
  match met.2 with
  | .step => met.1.accesses d
  | _ => []

/- Every access of a run, oldest first. -/
def runLog (m : Machine σ) (events : List Event) : List (Access Uint16 Uint8) :=
  (m.history d events).flatMap (eventLog d)

theorem reacts (m : Machine σ) (e : Event) :
    (m.cpu.react e).run d m.bus = ⟨(m.apply d e).cpu,(m.apply d e).bus,eventLog d (m,e)⟩ := by
  cases e with
  | step =>
    simp only [Processor.react,Program.runBind,Program.runDone,List.append_nil]
    rfl
  | nmi => rfl
  | irq asserted => rfl

theorem runSession (m : Machine σ) (events : List Event) :
    (Program.session Processor.react m.cpu events).run d m.bus =
      ⟨(m.run d events).cpu,(m.run d events).bus,m.runLog d events⟩ := by
  induction events generalizing m with
  | nil => rfl
  | cons e events ih =>
    rw [Program.sessionCons,Program.runBind,reacts]
    dsimp only
    rw [ih (m.apply d e)]
    rfl

theorem runLogAppend (m : Machine σ) (first last : List Event) :
    m.runLog d (first ++ last) = m.runLog d first ++ (m.run d first).runLog d last := by
  rw [runLog,history,Transition.historyAppend,List.flatMap_append]
  rfl

end device

def byte (m : Machine RamBus) (a : Uint16) : Uint8 := m.bus.val.read a

section ram
variable {m n : Machine RamBus} {events : List Event}

/- Whatever the events do not write is left as it was. -/
theorem byteFrame {a : Uint16} (unwritten : writes a (m.runLog RamBus.device events) = false) :
    (m.run RamBus.device events).byte a = m.byte a := by
  have session := runSession RamBus.device m events
  have kept := Program.runFrame ramStore (Program.session Processor.react m.cpu events) m.bus (a := a)
  rw [session] at kept
  exact kept unwritten

theorem localRun (cpu : n.cpu = m.cpu)
    (apart : ∀ a, n.byte a ≠ m.byte a → asks a (m.runLog RamBus.device events) = false) :
    (n.run RamBus.device events).cpu = (m.run RamBus.device events).cpu ∧
      n.runLog RamBus.device events = m.runLog RamBus.device events ∧
      ∀ a, (n.run RamBus.device events).byte a =
        if writes a (m.runLog RamBus.device events) then (m.run RamBus.device events).byte a else n.byte a := by
  have first := runSession RamBus.device m events
  have second := runSession RamBus.device n events
  rw [cpu] at second
  obtain ⟨result,log⟩ := Program.runLocal ramStore (Program.session Processor.react m.cpu events) (s := m.bus)
    (t := n.bus) (by rw [first]; exact apart)
  have state := Program.runLocalState ramStore _ log
  rw [first,second] at result log state
  exact ⟨result,log,state⟩

theorem asksPrefix {before : List Event} (within : before <+: events) {a : Uint16}
    (silent : asks a (m.runLog RamBus.device events) = false) : asks a (m.runLog RamBus.device before) = false := by
  obtain ⟨rest,rfl⟩ := within
  rw [runLogAppend,asksAppend] at silent
  exact (Bool.or_eq_false_iff.mp silent).1

end ram

end Machine
end Emu6502
