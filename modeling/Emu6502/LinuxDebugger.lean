import Mathlib.Logic.Function.Basic
import Mathlib.Tactic.MkIffOfInductiveProp
import Emu6502.ControlFlow
import Emu6502.HostSession

/-! test_6502_linux.cpp: the commands of the debugger on the UI thread, the run thread that
run() spawns, and emuMutex between them. Each thread is the list of source operations it
has left; a turn makes one of them, or none where it blocks. -/
namespace Emu6502
open Interaction

inductive DebugThread where
  | ui
  | run
  deriving DecidableEq, Repr

inductive DebugOp where
  | guardRunning  -- if(running) return;
  | setRunning (v : Bool)
  | join
  | spawn
  | flagRunning (v : Bool)
  | flagStopping (v : Bool)
  | awaitStopped  -- while (m_processor->isRunning()) wait();
  | lock
  | unlock
  | cpuStep  -- Processor::step() up to its callback
  | callback  -- runCallback() up to its lock
  | insert
  | emuStart
  | refill
  | loopTest
  | breakTest
  | addBreakpoint (addr : Uint16)
  | removeBreakpoint (addr : Uint16)
  deriving DecidableEq, Repr

/- Stores to the flags that pause() and the commands share. -/
def DebugOp.flagOnly : DebugOp → Bool
  | setRunning _ | flagRunning _ | flagStopping _ => true
  | _ => false

inductive DebugCommand where
  | step
  | run
  | pause
  | reset
  | stop
  | addBreakpoint (addr : Uint16)
  | removeBreakpoint (addr : Uint16)
  | draw
  deriving DecidableEq, Repr

def pauseCode : List DebugOp := [.flagStopping true,.join,.setRunning false]

def DebugCommand.code : DebugCommand → List DebugOp
  | step => [.guardRunning,.lock,.cpuStep,.callback,.callback,.unlock]
  | run => [.guardRunning,.setRunning true,.join,.spawn]
  | pause => pauseCode
  | reset => pauseCode ++ [.lock,.flagStopping true,.awaitStopped,.emuStart,.refill,.unlock]
  | stop => [.flagStopping true]
  | addBreakpoint addr => [.addBreakpoint addr]
  | removeBreakpoint addr => [.removeBreakpoint addr]
  | draw => [.lock,.unlock]

/- DebugProcessor::run() and the line after it. -/
def runThreadCode : List DebugOp :=
  [.flagRunning true,.flagStopping false,.cpuStep,.callback,.loopTest,.breakTest,.flagRunning false,.flagStopping false,
    .setRunning false]

structure LinuxDebugger where
  machine : Machine RamBus
  breakpoints : List Uint16
  running : Bool
  emuMutex : Option DebugThread
  previousPcs : List Uint16
  code : DebugThread → List DebugOp

inductive DebugEvent where
  | command (c : DebugCommand)
  | turn (t : DebugThread)
  deriving DecidableEq, Repr

namespace LinuxDebugger

def pc (s : LinuxDebugger) : Uint16 := s.machine.cpu.regs.pc

def goOn (s : LinuxDebugger) (t : DebugThread) (rest : List DebugOp) : LinuxDebugger :=
  {s with code := Function.update s.code t rest}

def mapCpu (s : LinuxDebugger) (f : Processor → Processor) : LinuxDebugger :=
  {s with machine := {s.machine with cpu := f s.machine.cpu}}

def atBreakpoint (s : LinuxDebugger) : Bool := s.breakpoints.contains s.pc

def pushPc (pc : Uint16) (previousPcs : List Uint16) : List Uint16 :=
  let grown := pc :: previousPcs
  if grown.length > 10 then grown.dropLast else grown

def perform (s : LinuxDebugger) (t : DebugThread) (rest : List DebugOp) : DebugOp → LinuxDebugger
  | .guardRunning => s.goOn t (if s.running then [] else rest)
  | .setRunning v => {s with running := v}.goOn t rest
  | .join => if s.code .run = [] then s.goOn t rest else s
  | .spawn => (s.goOn t rest).goOn .run runThreadCode
  | .flagRunning v => (s.mapCpu ({· with running := v})).goOn t rest
  | .flagStopping v => (s.mapCpu ({· with stopping := v})).goOn t rest
  | .awaitStopped => if s.machine.cpu.running then s else s.goOn t rest
  | .lock => if s.emuMutex = none then {s with emuMutex := some t}.goOn t rest else s
  | .unlock => {s with emuMutex := none}.goOn t rest
  | .cpuStep => {s with machine := s.machine.step RamBus.device}.goOn t rest
  | .callback => s.goOn t (if s.previousPcs.head? = some s.pc then rest else .lock :: .insert :: .unlock :: rest)
  | .insert => {s with previousPcs := pushPc s.pc s.previousPcs}.goOn t rest
  | .emuStart => {s with machine := s.machine.start RamBus.device}.goOn t rest
  | .refill => {s with previousPcs := List.replicate 6 s.pc}.goOn t rest
  | .loopTest =>
      s.goOn t (if !s.atBreakpoint && s.machine.cpu.running && !s.machine.cpu.stopping then
        .cpuStep :: .callback :: .loopTest :: rest else rest)
  | .breakTest => s.goOn t (if s.atBreakpoint then .setRunning false :: rest else rest)
  | .addBreakpoint addr => {s with breakpoints := s.breakpoints.insert addr}.goOn t rest
  | .removeBreakpoint addr => {s with breakpoints := s.breakpoints.filter (· != addr)}.goOn t rest

def turn (s : LinuxDebugger) (t : DebugThread) : LinuxDebugger :=
  match s.code t with
  | [] => s
  | op :: rest => s.perform t rest op

/- The UI thread takes a command when the last one is done. -/
def apply (s : LinuxDebugger) : DebugEvent → LinuxDebugger
  | .command c => if s.code .ui = [] then s.goOn .ui c.code else s
  | .turn t => s.turn t

/- The constructor, on whatever loadTestFile left in the memory. -/
def construct (regs : Registers) (bus : RamBus) : LinuxDebugger :=
  let machine := (⟨{regs := regs},bus⟩ : Machine RamBus).start RamBus.device
  {machine := machine, breakpoints := [], running := false, emuMutex := none,
    previousPcs := List.replicate 6 machine.cpu.regs.pc, code := fun _ => []}

def Relocks (s : LinuxDebugger) : Prop := ∃ t rest, s.code t = .lock :: rest ∧ s.emuMutex = some t

/-! What every thread's code keeps: the lock taken and left in turn, each instruction followed
by its callback, and what the UI thread alone does done behind a join. -/

/- An operation where the lock is held or not, and the one behind it. -/
@[mk_iff fitsIff]
structure Fits (t : DebugThread) (held : Bool) (op : DebugOp) (next : Option DebugOp) : Prop where
  locks : op = .lock → held = false
  unlocks : op = .unlock → held = true
  returns : op = .guardRunning → held = false
  fires : op = .callback → held = decide (t = .ui)
  steps : op = .cpuStep → next = some .callback
  fired : next = some .callback → op = .cpuStep ∨ (t = .ui ∧ op = .callback)
  joined : next = some .spawn → op = .join
  restarts : op = .emuStart → next = some .refill
  own : t = .run → op ≠ .spawn ∧ op ≠ .emuStart
  loops : op = .loopTest → t = .run ∧ held = false

def heldAfter (held : Bool) : DebugOp → Bool
  | .lock => true
  | .unlock => false
  | _ => held

def Wellformed (t : DebugThread) (held : Bool) : List DebugOp → Prop
  | [] => held = false
  | op :: rest => Fits t held op rest.head? ∧ Wellformed t (heldAfter held op) rest

theorem commandWellformed (c : DebugCommand) : Wellformed .ui false c.code := by
  cases c <;> simp [DebugCommand.code,pauseCode,Wellformed,heldAfter,fitsIff]

theorem runThreadWellformed : Wellformed .run false runThreadCode := by
  simp [runThreadCode,Wellformed,heldAfter,fitsIff]

/- Between an instruction and the record of its pc. -/
def stale : List DebugOp → Bool
  | .callback :: _ | .insert :: _ | .lock :: .insert :: _ => true
  | _ => false

/- Only flags left to store. -/
def Winding (code : List DebugOp) : Prop := ∀ op ∈ code, op.flagOnly = true

instance (code : List DebugOp) : Decidable (Winding code) :=
  inferInstanceAs (Decidable (∀ op ∈ code, op.flagOnly = true))

theorem windingNext {op : DebugOp} {rest : List DebugOp} (winding : Winding (op :: rest)) :
    op.flagOnly = true ∧ Winding rest :=
  List.forall_mem_cons.mp winding

theorem windingFresh {code : List DebugOp} (winding : Winding code) : stale code = false := by
  cases code with
  | nil => rfl
  | cons op rest =>
    have flag := (windingNext winding).1
    cases op <;> first | rfl | contradiction

/- What the UI thread has waited for at its callback and at its spawn. -/
structure Awaited (ui run : List DebugOp) : Prop where
  callback : ui.head? = some .callback → Winding run
  spawn : ui.head? = some .spawn → run = []

structure Kept (s : LinuxDebugger) : Prop where
  wellformed : ∀ t, Wellformed t (decide (s.emuMutex = some t)) (s.code t)
  alone : Awaited (s.code .ui) (s.code .run)
  recorded : (s.code .ui).head? ≠ some .refill → stale (s.code .run) = false → s.previousPcs.head? = some s.pc
  calm : s.machine.cpu.nmiPending = false ∧ s.machine.cpu.irqLine = false

theorem keptFree {s : LinuxDebugger} (kept : Kept s) : ¬ Relocks s := by
  rintro ⟨t,rest,next,owned⟩
  have fits := kept.wellformed t
  rw [next] at fits
  have free := fits.1.locks rfl
  simp [owned] at free

section turn
variable {s later : LinuxDebugger} {t : DebugThread} {op : DebugOp} {rest left : List DebugOp} {held : Bool}

/-! Code. -/

theorem behindFree (fits : Fits t held op rest.head?) (other : op ≠ .cpuStep ∧ (op = .callback → t = .run) ∧ op ≠ .join) :
    rest.head? ≠ some .callback ∧ rest.head? ≠ some .spawn := by
  refine ⟨fun fired => ?_,fun joined => other.2.2 (fits.joined joined)⟩
  rcases fits.fired fired with step | ⟨ui,callback⟩
  · exact other.1 step
  · rw [other.2.1 callback] at ui
    contradiction

theorem behindAwaited (fits : Fits t held op rest.head?) (other : op ≠ .cpuStep ∧ op ≠ .callback ∧ op ≠ .join)
    (run : List DebugOp) : Awaited rest run :=
  have free := behindFree fits ⟨other.1,fun callback => absurd callback other.2.1,other.2.2⟩
  ⟨fun callback => absurd callback free.1,fun spawn => absurd spawn free.2⟩

theorem firesNext (fits : Fits t held .cpuStep rest.head?) : ∃ more, rest = .callback :: more := by
  cases rest with
  | nil => simpa using fits.steps rfl
  | cons op more => exact ⟨more,by simpa using fits.steps rfl⟩

theorem recordWellformed (fits : Fits .run false .callback rest.head?) (after : Wellformed .run false rest) :
    Wellformed .run false (.lock :: .insert :: .unlock :: rest) := by
  have free := behindFree fits (by simp)
  simp [Wellformed,heldAfter,fitsIff,free,after]

theorem againWellformed (fits : Fits .run false .loopTest rest.head?) (after : Wellformed .run false rest) :
    Wellformed .run false (.cpuStep :: .callback :: .loopTest :: rest) := by
  have free := behindFree fits (by simp)
  simp [Wellformed,heldAfter,fitsIff,free,after]

theorem breakWellformed (fits : Fits t held .breakTest rest.head?) (after : Wellformed t held rest) :
    Wellformed t held (.setRunning false :: rest) := by
  have free := behindFree fits (by simp)
  simp [Wellformed,heldAfter,fitsIff,free,after]

theorem lockStale (fresh : stale rest = false) : stale (.lock :: rest) = false := by
  cases rest with
  | nil => rfl
  | cons op rest => cases op <;> first | rfl | contradiction

/-! What a move of one thread keeps. -/

theorem codeFits (kept : Kept s) (next : s.code t = op :: rest) :
    Fits t (decide (s.emuMutex = some t)) op rest.head? ∧
      Wellformed t (heldAfter (decide (s.emuMutex = some t)) op) rest := by
  have here := kept.wellformed t
  rw [next] at here
  exact here

theorem wellformedMove (kept : Kept s) (code : later.code = Function.update s.code t left)
    (mutex : later.emuMutex = s.emuMutex) (here : Wellformed t (decide (s.emuMutex = some t)) left) :
    ∀ u, Wellformed u (decide (later.emuMutex = some u)) (later.code u) := by
  intro u
  rw [code,mutex]
  by_cases same : u = t
  · subst same
    rw [Function.update_self]
    exact here
  · rw [Function.update_of_ne same]
    exact kept.wellformed u

theorem aloneMove (kept : Kept s) (next : s.code t = op :: rest) (code : later.code = Function.update s.code t left)
    (front : t = .ui → Awaited left (s.code .run)) (behind : t = .run → op.flagOnly = true → left = rest) :
    Awaited (later.code .ui) (later.code .run) := by
  rw [code]
  cases t with
  | ui => exact front rfl
  | run =>
    have alone := kept.alone
    rw [next] at alone
    refine ⟨fun callback => ?_,fun spawn => ?_⟩
    · obtain ⟨flag,winding⟩ := windingNext (alone.callback callback)
      rw [Function.update_self,behind rfl flag]
      exact winding
    · have ended := alone.spawn spawn
      contradiction

theorem recordedMove (kept : Kept s) (next : s.code t = op :: rest) (code : later.code = Function.update s.code t left)
    (pc : later.pc = s.pc) (pcs : later.previousPcs = s.previousPcs) (other : t = .ui → op ≠ .refill)
    (fresh : t = .run → stale left = false → stale (op :: rest) = false) :
    (later.code .ui).head? ≠ some .refill → stale (later.code .run) = false →
      later.previousPcs.head? = some later.pc := by
  intro filled recorded
  rw [pc,pcs]
  rw [code] at filled recorded
  cases t with
  | ui =>
    refine kept.recorded ?_ recorded
    rw [next]
    exact fun same => other rfl (Option.some.inj same)
  | run =>
    refine kept.recorded filled ?_
    rw [next]
    exact fresh rfl recorded

/- A move that changes no lock, no pc and no history. -/
theorem plainMove (kept : Kept s) (next : s.code t = op :: rest) (code : later.code = Function.update s.code t left)
    (mutex : later.emuMutex = s.emuMutex) (here : Wellformed t (decide (s.emuMutex = some t)) left)
    (front : t = .ui → Awaited left (s.code .run)) (behind : t = .run → op.flagOnly = true → left = rest)
    (pc : later.pc = s.pc) (pcs : later.previousPcs = s.previousPcs) (other : t = .ui → op ≠ .refill)
    (fresh : t = .run → stale left = false → stale (op :: rest) = false)
    (calm : later.machine.cpu.nmiPending = s.machine.cpu.nmiPending ∧
      later.machine.cpu.irqLine = s.machine.cpu.irqLine) : Kept later where
  wellformed := wellformedMove kept code mutex here
  alone := aloneMove kept next code front behind
  recorded := recordedMove kept next code pc pcs other fresh
  calm := ⟨calm.1.trans kept.calm.1,calm.2.trans kept.calm.2⟩

def plain : DebugOp → Bool
  | .setRunning _ | .flagRunning _ | .flagStopping _ | .awaitStopped | .addBreakpoint _ | .removeBreakpoint _ => true
  | _ => false

theorem plainRest (kept : Kept s) (next : s.code t = op :: rest) (simple : plain op = true)
    (code : later.code = Function.update s.code t rest) (mutex : later.emuMutex = s.emuMutex) (pc : later.pc = s.pc)
    (pcs : later.previousPcs = s.previousPcs)
    (calm : later.machine.cpu.nmiPending = s.machine.cpu.nmiPending ∧
      later.machine.cpu.irqLine = s.machine.cpu.irqLine) : Kept later := by
  obtain ⟨fits,after⟩ := codeFits kept next
  refine plainMove kept next code mutex ?_ (fun _ => behindAwaited fits ?_ _) (fun _ _ => rfl) pc pcs ?_ ?_ calm
  all_goals cases op <;> first | contradiction | skip
  all_goals first | exact after | simp [stale]

/-! The operations that do change them. -/

theorem startCalm (cpu : Processor) : cpu.start.Every fun _ next => next.nmiPending = false ∧ next.irqLine = false :=
  fun _ _ => ⟨rfl,rfl⟩

theorem stepCalm (kept : Kept s) :
    (s.machine.step RamBus.device).cpu.nmiPending = false ∧ (s.machine.step RamBus.device).cpu.irqLine = false := by
  have stepped := s.machine.isStepped RamBus.device
  exact ⟨stepped.nmiTaken,stepped.lineKept.trans kept.calm.2⟩

theorem keptExecutes (kept : Kept s) : s.machine.cpu.executes = true := by
  simp [Processor.executes,kept.calm.1,kept.calm.2]

theorem pushedFirst (pc : Uint16) (previousPcs : List Uint16) : (pushPc pc previousPcs).head? = some pc := by
  unfold pushPc
  dsimp only
  split
  · rename_i long
    cases previousPcs with
    | nil => simp at long
    | cons last more => rfl
  · rfl

theorem keptSpawn (kept : Kept s) (next : s.code t = .spawn :: rest) : Kept (s.perform t rest .spawn) := by
  obtain ⟨fits,after⟩ := codeFits kept next
  cases t with
  | run => exact absurd rfl (fits.own rfl).1
  | ui =>
    have ended := kept.alone.spawn (by rw [next]; rfl)
    have idle := kept.wellformed .run
    rw [ended] at idle
    refine ⟨fun u => ?_,behindAwaited fits (by simp) _,fun _ _ => ?_,kept.calm⟩
    · cases u with
      | ui => exact after
      | run => exact (show decide (s.emuMutex = some .run) = false from idle) ▸ runThreadWellformed
    · exact kept.recorded (by rw [next]; simp) (by rw [ended]; rfl)

theorem keptLock (kept : Kept s) (next : s.code t = .lock :: rest) : Kept (s.perform t rest .lock) := by
  obtain ⟨fits,after⟩ := codeFits kept next
  rw [perform]
  split
  · rename_i unowned
    refine ⟨fun u => ?_,aloneMove kept next rfl (fun _ => behindAwaited fits (by simp) _) fun _ _ => rfl,
      recordedMove kept next rfl rfl rfl (by simp) fun _ => lockStale,kept.calm⟩
    have others := kept.wellformed u
    by_cases same : u = t
    · subst same
      simpa [goOn,heldAfter] using after
    · simpa [goOn,same,Ne.symm same,unowned] using others
  · exact kept

theorem keptUnlock (kept : Kept s) (next : s.code t = .unlock :: rest) : Kept (s.perform t rest .unlock) := by
  obtain ⟨fits,after⟩ := codeFits kept next
  refine ⟨fun u => ?_,aloneMove kept next rfl (fun _ => behindAwaited fits (by simp) _) fun _ _ => rfl,
    recordedMove kept next rfl rfl rfl (by simp) fun _ _ => rfl,kept.calm⟩
  have owned : s.emuMutex = some t := by simpa using fits.unlocks rfl
  have others := kept.wellformed u
  by_cases same : u = t
  · subst same
    simpa [perform,goOn,heldAfter] using after
  · simpa [perform,goOn,same,Ne.symm same,owned] using others

/- A step() of the UI thread beside at most the last stores of a run thread, on an instruction that
stays at its address. -/
def Harmless (s : LinuxDebugger) (e : DebugEvent) : Prop :=
  e = .turn .ui → (s.code .ui).head? = some .cpuStep → Winding (s.code .run) ∧ s.machine.target = s.pc

theorem keptCpuStep (kept : Kept s) (harmless : Harmless s (.turn t)) (next : s.code t = .cpuStep :: rest) :
    Kept (s.perform t rest .cpuStep) := by
  obtain ⟨fits,after⟩ := codeFits kept next
  have calm := stepCalm kept
  cases t with
  | ui =>
    obtain ⟨winding,stays⟩ := harmless rfl (by rw [next]; rfl)
    have pc := (Machine.stepTarget (keptExecutes kept)).trans stays
    obtain ⟨more,rfl⟩ := firesNext fits
    exact plainMove kept next rfl rfl after (fun _ => ⟨fun _ => winding,fun spawn => by simp at spawn⟩)
      (fun run => by contradiction) pc rfl (by simp) (fun run => by contradiction)
      ⟨calm.1.trans kept.calm.1.symm,calm.2.trans kept.calm.2.symm⟩
  | run =>
    obtain ⟨more,rfl⟩ := firesNext fits
    refine ⟨wellformedMove kept rfl rfl after,
      aloneMove kept next rfl (fun ui => by contradiction) fun _ flag => by contradiction,fun _ fresh => ?_,calm⟩
    exact absurd fresh (by simp [perform,goOn,stale])

theorem keptCallback (kept : Kept s) (next : s.code t = .callback :: rest) : Kept (s.perform t rest .callback) := by
  obtain ⟨fits,after⟩ := codeFits kept next
  cases t with
  | ui =>
    have winding := kept.alone.callback (by rw [next]; rfl)
    have recorded := kept.recorded (by rw [next]; simp) (windingFresh winding)
    have front : Awaited rest (s.code .run) := ⟨fun _ => winding,fun spawn => absurd (fits.joined spawn) (by simp)⟩
    rw [perform,if_pos recorded]
    exact plainMove kept next rfl rfl after (fun _ => front) (fun run => by contradiction) rfl rfl (by simp)
      (fun run => by contradiction) ⟨rfl,rfl⟩
  | run =>
    have unheld : decide (s.emuMutex = some .run) = false := fits.fires rfl
    rw [unheld] at fits after
    rw [perform]
    split
    · rename_i same
      exact ⟨wellformedMove kept rfl rfl (unheld ▸ after),
        aloneMove kept next rfl (fun ui => by contradiction) fun _ flag => by contradiction,fun _ _ => same,kept.calm⟩
    · refine ⟨wellformedMove kept rfl rfl (unheld ▸ recordWellformed fits after),
        aloneMove kept next rfl (fun ui => by contradiction) fun _ flag => by contradiction,fun _ fresh => ?_,kept.calm⟩
      exact absurd fresh (by simp [goOn,stale])

theorem keptEmuStart (kept : Kept s) (next : s.code t = .emuStart :: rest) : Kept (s.perform t rest .emuStart) := by
  obtain ⟨fits,after⟩ := codeFits kept next
  cases t with
  | run => exact absurd rfl (fits.own rfl).2
  | ui =>
    have filling := fits.restarts rfl
    exact ⟨wellformedMove kept rfl rfl after,
      aloneMove kept next rfl (fun _ => behindAwaited fits (by simp) _) fun ui => by contradiction,
      fun filled => (filled filling).elim,Program.everyRun (startCalm s.machine.cpu) RamBus.device s.machine.bus⟩

theorem keptPerform (kept : Kept s) (harmless : Harmless s (.turn t)) (next : s.code t = op :: rest) :
    Kept (s.perform t rest op) := by
  obtain ⟨fits,after⟩ := codeFits kept next
  have free := behindAwaited fits
  cases op with
  | setRunning v => exact plainRest kept next rfl rfl rfl rfl rfl ⟨rfl,rfl⟩
  | flagRunning v => exact plainRest kept next rfl rfl rfl rfl rfl ⟨rfl,rfl⟩
  | flagStopping v => exact plainRest kept next rfl rfl rfl rfl rfl ⟨rfl,rfl⟩
  | addBreakpoint addr => exact plainRest kept next rfl rfl rfl rfl rfl ⟨rfl,rfl⟩
  | removeBreakpoint addr => exact plainRest kept next rfl rfl rfl rfl rfl ⟨rfl,rfl⟩
  | awaitStopped =>
    rw [perform]
    split
    · exact kept
    · exact plainRest kept next rfl rfl rfl rfl rfl ⟨rfl,rfl⟩
  | guardRunning =>
    refine plainMove kept next rfl rfl ?_ (fun _ => ?_) (fun _ flag => by contradiction) rfl rfl (by simp) (fun _ _ => rfl)
      ⟨rfl,rfl⟩
    · split
      · exact fits.returns rfl
      · exact after
    · split
      · exact ⟨fun callback => by contradiction,fun spawn => by contradiction⟩
      · exact free (by simp) _
  | join =>
    rw [perform]
    split
    · rename_i ended
      have front : Awaited rest (s.code .run) := by
        rw [ended]
        exact ⟨fun _ op member => absurd member List.not_mem_nil,fun _ => rfl⟩
      exact plainMove kept next rfl rfl after (fun _ => front) (fun _ flag => by contradiction) rfl rfl (by simp)
        (fun _ _ => rfl) ⟨rfl,rfl⟩
    · exact kept
  | loopTest =>
    obtain ⟨rfl,unheld⟩ := fits.loops rfl
    refine plainMove kept next rfl rfl ?_ (fun ui => by contradiction) (fun _ flag => by contradiction) rfl rfl
      (fun ui => by contradiction) (fun _ _ => rfl) ⟨rfl,rfl⟩
    rw [unheld] at fits after ⊢
    split
    · exact againWellformed fits after
    · exact after
  | breakTest =>
    refine plainMove kept next rfl rfl ?_ (fun _ => ?_) (fun _ flag => by contradiction) rfl rfl (by simp) (fun _ _ => rfl)
      ⟨rfl,rfl⟩
    · split
      · exact breakWellformed fits after
      · exact after
    · split
      · exact ⟨fun callback => by simp at callback,fun spawn => by simp at spawn⟩
      · exact free (by simp) _
  | insert =>
    exact ⟨wellformedMove kept rfl rfl after,aloneMove kept next rfl (fun _ => free (by simp) _) fun _ flag => by contradiction,
      fun _ _ => pushedFirst s.pc s.previousPcs,kept.calm⟩
  | refill =>
    exact ⟨wellformedMove kept rfl rfl after,aloneMove kept next rfl (fun _ => free (by simp) _) fun _ flag => by contradiction,
      fun _ _ => rfl,kept.calm⟩
  | spawn => exact keptSpawn kept next
  | lock => exact keptLock kept next
  | unlock => exact keptUnlock kept next
  | cpuStep => exact keptCpuStep kept harmless next
  | callback => exact keptCallback kept next
  | emuStart => exact keptEmuStart kept next

theorem keptApply (kept : Kept s) {e : DebugEvent} (harmless : Harmless s e) : Kept (s.apply e) := by
  cases e with
  | command c =>
    rw [apply]
    split
    · rename_i idle
      have unheld := kept.wellformed .ui
      rw [idle] at unheld
      have front : c.code.head? ≠ some .callback ∧ c.code.head? ≠ some .spawn := by cases c <;> simp [DebugCommand.code,pauseCode]
      refine ⟨fun u => ?_,⟨fun callback => absurd callback front.1,fun spawn => absurd spawn front.2⟩,fun _ fresh => ?_,kept.calm⟩
      · cases u with
        | ui => exact (show decide (s.emuMutex = some .ui) = false from unheld) ▸ commandWellformed c
        | run => exact kept.wellformed .run
      · exact kept.recorded (by rw [idle]; simp) fresh
    · exact kept
  | turn t =>
    rw [apply,turn]
    split
    · exact kept
    · rename_i next
      exact keptPerform kept harmless next

theorem constructKept (regs : Registers) (bus : RamBus) : Kept (construct regs bus) where
  wellformed _ := rfl
  alone := ⟨fun callback => by contradiction,fun spawn => by contradiction⟩
  recorded _ _ := rfl
  calm := Program.everyRun (startCalm {regs := regs}) RamBus.device bus

/- A step that leaves pc's instruction: its callback wants the lock that step() holds. -/
theorem leavingRelocks (kept : Kept s) (stepping : (s.code .ui).head? = some .cpuStep) (winding : Winding (s.code .run))
    (leaves : s.machine.target ≠ s.pc) : Relocks ((s.turn .ui).turn .ui) := by
  obtain ⟨rest,next⟩ : ∃ rest, s.code .ui = .cpuStep :: rest := by
    cases next : s.code .ui with
    | nil => simp [next] at stepping
    | cons op rest =>
      rw [next] at stepping
      exact ⟨rest,congrArg (· :: rest) (Option.some.inj stepping)⟩
  obtain ⟨fits,after⟩ := codeFits kept next
  obtain ⟨more,rfl⟩ := firesNext fits
  have held := after.1.fires rfl
  have recorded := kept.recorded (by rw [stepping]; simp) (windingFresh winding)
  have moved : s.previousPcs.head? ≠ some (s.machine.step RamBus.device).cpu.regs.pc := by
    rw [recorded,Machine.stepTarget (keptExecutes kept)]
    exact fun same => leaves (Option.some.inj same).symm
  have fired : (s.turn .ui).turn .ui =
      (s.perform .ui (.callback :: more) .cpuStep).goOn .ui (.lock :: .insert :: .unlock :: more) := by
    have first : s.turn .ui = s.perform .ui (.callback :: more) .cpuStep := by rw [turn,next]
    have waiting : (s.perform .ui (.callback :: more) .cpuStep).code .ui = .callback :: more := rfl
    rw [first,turn,waiting]
    exact congrArg (goOn _ _) (if_neg moved)
  have owned : s.emuMutex = some .ui := by simpa [heldAfter] using held
  rw [fired]
  exact ⟨.ui,.insert :: .unlock :: more,rfl,owned⟩

end turn

def run (s : LinuxDebugger) (events : List DebugEvent) : LinuxDebugger := Transition.run apply s events

def history (s : LinuxDebugger) (events : List DebugEvent) : List (LinuxDebugger × DebugEvent) :=
  Transition.history apply s events

theorem keptRun {s : LinuxDebugger} (kept : Kept s) {events : List DebugEvent}
    (harmless : ∀ met ∈ s.history events, met.1.Harmless met.2) : Kept (s.run events) :=
  Transition.runInvariant apply kept fun met member now => keptApply now (harmless met member)

/-- As long as every step() finds no run thread with more than flags to store and stays at its address,
no thread locks the mutex it holds; a step() there that leaves its address does so two turns later. -/
theorem singleStepLocks (regs : Registers) (bus : RamBus) (events : List DebugEvent)
    (harmless : ∀ met ∈ (construct regs bus).history events, met.1.Harmless met.2) :
    (∀ before, before <+: events → ¬ ((construct regs bus).run before).Relocks) ∧
    let s := (construct regs bus).run events
    (s.code .ui).head? = some .cpuStep → Winding (s.code .run) → s.machine.target ≠ s.pc →
      ((s.turn .ui).turn .ui).Relocks := by
  refine ⟨?_,leavingRelocks (keptRun (constructKept regs bus) harmless)⟩
  rintro before ⟨after,rfl⟩
  refine keptFree (keptRun (constructKept regs bus) fun met member => harmless met ?_)
  rw [history,Transition.historyAppend]
  exact List.mem_append_left _ member

instance (s : LinuxDebugger) (e : DebugEvent) : Decidable (s.Harmless e) :=
  inferInstanceAs (Decidable (_ → _ → _ ∧ _))

def stepTurns (turns : Nat) : List DebugEvent := .command .step :: List.replicate turns (.turn .ui)

/- A machine whose reset vector points at one opcode. -/
def opcodeBus (code : Uint8) : RamBus := (Machine.ramRig [(0x0400,code),(0xfffd,0x04)]).bus

theorem jamStepsFree : ¬ ((construct Host.resetRegs (opcodeBus 0x02)).run (stepTurns 6)).Relocks :=
  (singleStepLocks Host.resetRegs (opcodeBus 0x02) (stepTurns 6) (by decide)).1 _ List.prefix_rfl

theorem nopStepRelocks : ¬ ∀ regs bus events, ¬ ((construct regs bus).run events).Relocks := by
  intro free
  refine free Host.resetRegs (opcodeBus 0xea) (stepTurns 4) ⟨.ui,[.insert,.unlock,.callback,.unlock],?_,?_⟩
  · rfl
  · rfl

end LinuxDebugger
end Emu6502
