import Emu6502.Session
import Emu6502.RegisterFrame
import Mathlib.Data.List.DropRight

/-! Which interrupt a step() services, over every run in which nmi() and irq() are
called between the steps. The gate remembers one instruction: the invariant behind the
masking results is that I is set and, if its last change was late, was set before. -/
namespace Emu6502
open Interaction

def flagClearers : List Uint8 := [0x58,0x28,0x40]

theorem clearersApart : ∀ code, code ∉ flagClearers → code ≠ 0x00 → code ≠ 0x78 →
    (instruction code).op.statusWrites &&& flagI = 0 := by decide +kernel

theorem serviceSetsFlag (regs : Registers) (lo hi : Uint8) : (serviceRegs regs lo hi).getStatus flagI = true :=
  Registers.setStatusReads regs flagI true (by decide)

theorem statusKeptReads {flag : Uint8} {before after : Registers} (kept : StatusKept flag before after) :
    after.getStatus flag = before.getStatus flag := by
  unfold StatusKept at kept
  simp only [Registers.getStatus,kept]

theorem flagHeld (cpu : Processor) {code : Uint8} (other : code ∉ flagClearers)
    (set : cpu.regs.getStatus flagI = true) :
    (cpu.instructionBody code).Every fun _ out => out.2.getStatus flagI = true := by
  by_cases brk : code = 0x00
  · subst brk
    intro lo hi
    exact Registers.setStatusReads cpu.regs flagI true (by decide)
  by_cases sei : code = 0x78
  · subst sei
    exact Registers.setStatusReads cpu.regs flagI true (by decide)
  · have kept := instructionFrame (statusFrame flagI) cpu code
      (opStatusWithin _ (clearersApart code other brk sei))
    exact Program.everyMono kept fun _ out h => (statusKeptReads h).trans set

namespace Stepped
variable {cpu next : Processor} {log : List (Access Uint16 Uint8)} {served : Served}

theorem nmiSequence (h : Stepped cpu log served next) (nmi : served = .nmi) :
    ∃ lo hi, log = serviceLog 0xfffa cpu.regs lo hi := by
  cases h with
  | nmi pending lo hi => exact ⟨lo,hi,rfl⟩
  | irq quiet line clear lo hi => simp at nmi
  | executed free code log cost regs path => simp at nmi

theorem nmiTaken (h : Stepped cpu log served next) : next.nmiPending = false := by
  cases h with
  | nmi pending lo hi => rfl
  | irq quiet line clear lo hi => rfl
  | executed free code log cost regs path =>
    simp only [Processor.executes,Bool.and_eq_true,Bool.not_eq_true'] at free
    exact free.1

theorem serviceMasks (h : Stepped cpu log served next) (service : served = .nmi ∨ served = .irq) :
    next.regs.getStatus flagI = true ∧ next.iFlagDelayed = false := by
  cases h with
  | nmi pending lo hi => exact ⟨serviceSetsFlag cpu.regs lo hi,rfl⟩
  | irq quiet line clear lo hi => exact ⟨serviceSetsFlag cpu.regs lo hi,rfl⟩
  | executed free code log cost regs path => simp at service

theorem executedDelay (h : Stepped cpu log served next) {code : Uint8} (ran : served = .executed code) :
    next.iFlagDelayed = (code == 0x58 || code == 0x78 || code == 0x28) ∧
      next.iFlagBefore = cpu.regs.getStatus flagI := by
  cases h with
  | nmi pending lo hi => simp at ran
  | irq quiet line clear lo hi => simp at ran
  | executed free code' log cost regs path =>
    cases ran
    exact ⟨rfl,rfl⟩

theorem flagKept (h : Stepped cpu log served next) (set : cpu.regs.getStatus flagI = true)
    (unreleased : ¬((∃ code ∈ flagClearers, served = .executed code) ∧ next.regs.getStatus flagI = false)) :
    next.regs.getStatus flagI = true := by
  cases h with
  | nmi pending lo hi => exact serviceSetsFlag cpu.regs lo hi
  | irq quiet line clear lo hi => exact serviceSetsFlag cpu.regs lo hi
  | executed free code log cost regs path =>
    by_cases clearer : code ∈ flagClearers
    · have notClear : ¬ regs.getStatus flagI = false :=
        fun clear => unreleased ⟨⟨code,clearer,rfl⟩,clear⟩
      exact eq_true_of_ne_false notClear
    · exact path _ (flagHeld cpu clearer set)

end Stepped

/- I is set, and was set ahead of an instruction whose change of it is still late. -/
structure Held (cpu : Processor) : Prop where
  set : cpu.regs.getStatus flagI = true
  before : cpu.iFlagDelayed = true → cpu.iFlagBefore = true

theorem Held.masked {cpu : Processor} (held : Held cpu) : cpu.masked = true := by
  unfold Processor.masked
  split
  · rename_i delayed; exact held.before delayed
  · exact held.set

theorem Stepped.holds {cpu next : Processor} {log : List (Access Uint16 Uint8)} {served : Served}
    (h : Stepped cpu log served next) (set : cpu.regs.getStatus flagI = true)
    (unreleased : ¬((∃ code ∈ flagClearers, served = .executed code) ∧ next.regs.getStatus flagI = false)) :
    Held next := by
  refine ⟨h.flagKept set unreleased,fun delayed => ?_⟩
  cases h with
  | nmi pending lo hi => contradiction
  | irq quiet line clear lo hi => contradiction
  | executed free code log cost regs path => exact set

namespace Machine
variable {σ : Type} (d : Device Uint16 Uint8 σ)

/- The calls made since the last step(). -/
def sinceStep (events : List Event) : List Event := events.rtakeWhile (· != .step)

theorem nmiLatched {m : Machine σ} (quiet : m.cpu.nmiPending = false) (events : List Event) :
    (m.run d events).cpu.nmiPending = true ↔ .nmi ∈ sinceStep events := by
  induction events using List.reverseRecOn with
  | nil => simp [quiet,sinceStep]
  | append_singleton events e ih =>
    rw [runAppend,runCons,runNil]
    cases e with
    | step => simp [apply,sinceStep,((m.run d events).isStepped d).nmiTaken]
    | nmi => simp [apply,Processor.nmi,sinceStep]
    | irq asserted => simpa [apply,Processor.irq,sinceStep,List.rtakeWhile_concat] using ih

theorem callsKeep (m : Machine σ) {calls : List Event} (noStep : .step ∉ calls) :
    (m.run d calls).cpu.masked = m.cpu.masked ∧ (m.run d calls).iFlag = m.iFlag := by
  refine Transition.runInvariant (I := fun n => n.cpu.masked = m.cpu.masked ∧ n.iFlag = m.iFlag)
    (apply d) ⟨rfl,rfl⟩ fun met member kept => ?_
  have call : met.2 ∈ calls := by
    rw [← Transition.historyEvents (apply d) m calls]
    exact List.mem_map_of_mem member
  obtain ⟨n,e⟩ := met
  cases e with
  | step => exact absurd call noStep
  | nmi => exact kept
  | irq asserted => exact kept

theorem maskedUntilStep {m : Machine σ} (shut : m.cpu.masked = true) {calls : List Event}
    (noStep : .step ∉ calls) : (m.run d calls).served d ≠ .irq := by
  intro irq
  obtain ⟨_,_,clear⟩ := ((m.run d calls).isStepped d).irqIff.mp irq
  rw [(m.callsKeep d noStep).1,shut] at clear
  contradiction

def Releases (m : Machine σ) : Prop := m.Executes d flagClearers ∧ (m.step d).iFlag = false

theorem heldUnlessReleased {m : Machine σ} (held : Held m.cpu) (events : List Event) :
    Held (m.run d events).cpu ∨ ∃ met ∈ m.history d events, met.2 = .step ∧ met.1.Releases d := by
  refine Transition.runUnless (apply d) (I := fun n => Held n.cpu)
    (R := fun met => met.2 = .step ∧ met.1.Releases d) held fun met member holds kept => ?_
  obtain ⟨n,e⟩ := met
  cases e with
  | nmi => exact ⟨holds.set,holds.before⟩
  | irq asserted => exact ⟨holds.set,holds.before⟩
  | step => exact (n.isStepped d).holds holds.set fun released => kept ⟨rfl,released⟩

theorem irqNeverTwice {m : Machine σ} (irq : m.served d = .irq) {calls : List Event} (noStep : .step ∉ calls) :
    ((m.step d).run d calls).served d ≠ .irq := by
  obtain ⟨set,inTime⟩ := (m.isStepped d).serviceMasks (.inr irq)
  have shut : (m.step d).cpu.masked = true := by
    simp only [Processor.masked,inTime,set,Bool.false_eq_true,if_false]
  exact maskedUntilStep d shut noStep

/- After SEI or PLP has left I set, the next IRQ is either at the very next step(), where
the old clear flag still counts, or behind a release. -/
theorem irqAfterSet {m : Machine σ} (set : (m.step d).iFlag = true) {rest : List Event}
    (late : m.Executes d [0x78,0x28]) (irq : ((m.step d).run d rest).served d = .irq) :
    (.step ∉ rest ∧ m.iFlag = false) ∨
      ∃ met ∈ (m.step d).history d rest, met.2 = .step ∧ met.1.Releases d := by
  have before : (m.step d).cpu.iFlagBefore = m.iFlag := by
    obtain ⟨code,_,ran⟩ := late
    exact ((m.isStepped d).executedDelay ran).2
  have notHeld (n : Machine σ) (served : n.served d = .irq) : ¬ Held n.cpu := fun held => by
    have clear := ((n.isStepped d).irqIff.mp served).2.2
    rw [held.masked] at clear
    contradiction
  cases flag : m.iFlag with
  | true =>
    right
    have held : Held (m.step d).cpu := ⟨set,fun _ => before.trans flag⟩
    exact (heldUnlessReleased d held rest).resolve_left (notHeld _ irq)
  | false =>
    by_cases steps : Event.step ∈ rest
    · -- The first step behind the late one holds the gate, unless it is the release itself.
      right
      obtain ⟨calls,later,split,noStep⟩ := List.eq_append_cons_of_mem steps
      subst split
      rw [historySplit]
      by_cases release : ((m.step d).run d calls).Releases d
      · exact ⟨((m.step d).run d calls,.step),by simp,rfl,release⟩
      · have still := ((m.step d).callsKeep d noStep).2.trans set
        have held := (((m.step d).run d calls).isStepped d).holds still release
        rw [runAppend] at irq
        rcases heldUnlessReleased d held later with held | ⟨met,member,released⟩
        · exact absurd held (notHeld _ irq)
        · exact ⟨met,List.mem_append_right _ (List.mem_cons_of_mem _ member),released⟩
    · exact .inl ⟨steps,rfl⟩

theorem noIrqAfterClear {m : Machine σ} (set : m.iFlag = true) (late : m.Executes d [0x58,0x28])
    {calls : List Event} (noStep : .step ∉ calls) : ((m.step d).run d calls).served d ≠ .irq := by
  obtain ⟨code,among,ran⟩ := late
  obtain ⟨delayed,before⟩ := (m.isStepped d).executedDelay ran
  have isLate : (m.step d).cpu.iFlagDelayed = true := by
    rw [delayed]
    rcases List.mem_pair.mp among with rfl | rfl <;> rfl
  have shut : (m.step d).cpu.masked = true := by
    simp only [Processor.masked,isLate,if_true,before]
    exact set
  exact maskedUntilStep d shut noStep

theorem irqAfterRti {m : Machine σ} (ran : m.served d = .executed 0x40) (clear : (m.step d).iFlag = false)
    {calls : List Event} (noStep : .step ∉ calls) (line : ((m.step d).run d calls).cpu.irqLine = true)
    (quiet : ((m.step d).run d calls).cpu.nmiPending = false) : ((m.step d).run d calls).served d = .irq := by
  have inTime : (m.step d).cpu.iFlagDelayed = false := ((m.isStepped d).executedDelay ran).1
  have opened : (m.step d).cpu.masked = false := by
    simp only [Processor.masked,inTime,Bool.false_eq_true,if_false]
    exact clear
  refine (((m.step d).run d calls).isStepped d).irqIff.mpr ⟨quiet,line,?_⟩
  rw [((m.step d).callsKeep d noStep).1]
  exact opened

/-- Interrupt delivery over a run of step(), nmi() and irq() calls, from a machine with no
NMI latched. `m.run d events` is the machine a step() is called on after `events`. -/
theorem interruptDelivery {m : Machine σ} (quiet : m.cpu.nmiPending = false) (events : List Event) :
    let met := m.run d events
    let left := m.run d (events ++ [.step])
    (met.served d = .nmi ↔ .nmi ∈ sinceStep events) ∧
    (met.served d = .nmi → ∃ lo hi, met.accesses d = serviceLog 0xfffa met.cpu.regs lo hi) ∧
    (met.served d = .irq → ∀ calls, .step ∉ calls → (left.run d calls).served d ≠ .irq) ∧
    (met.Executes d [0x78,0x28] → left.iFlag = true →
      ∀ rest, (left.run d rest).served d = .irq →
        (.step ∉ rest ∧ met.iFlag = false) ∨
          ∃ later ∈ left.history d rest, later.2 = .step ∧ later.1.Releases d) ∧
    (met.Executes d [0x58,0x28] → met.iFlag = true → left.iFlag = false →
      ∀ calls, .step ∉ calls → (left.run d calls).served d ≠ .irq) ∧
    (met.Executes d [0x40] → left.iFlag = false →
      ∀ calls, .step ∉ calls → (left.run d calls).cpu.irqLine = true →
        (left.run d calls).cpu.nmiPending = false → (left.run d calls).served d = .irq) := by
  intro met left
  have stepped : left = met.step d := runAppend d m events [.step]
  rw [stepped]
  refine ⟨?_,?_,?_,?_,?_,?_⟩
  · rw [(met.isStepped d).nmiIff]
    exact nmiLatched d quiet events
  · exact (met.isStepped d).nmiSequence
  · intro irq calls noStep
    exact irqNeverTwice d irq noStep
  · intro late set rest irq
    exact irqAfterSet d set late irq
  · intro late set _ calls noStep
    exact noIrqAfterClear d set late noStep
  · intro ⟨code,among,ran⟩ clear calls noStep line unlatched
    rw [List.mem_singleton.mp among] at ran
    exact irqAfterRti d ran clear noStep line unlatched

theorem seiTakesOneIrq :
    ((rig [(0x0400,0x78)]).run Bus.device [.step,.irq true]).served Bus.device = .irq ∧
      ((rig [(0x0400,0x78)]).run Bus.device [.step,.irq true,.step,.irq true]).served Bus.device ≠ .irq := by
  have first : ((rig [(0x0400,0x78)]).run Bus.device [.step,.irq true]).served Bus.device = .irq := by
    rfl
  have twice := (interruptDelivery Bus.device (m := rig [(0x0400,0x78)]) rfl [.step,.irq true]).2.2.1
  exact ⟨first,twice first [.irq true] (by decide)⟩

end Machine
end Emu6502
