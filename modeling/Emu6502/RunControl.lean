import Emu6502.HostSession
import Emu6502.Lib.Interleaving

/-! Processor::run() on one thread, I6502Emulator::stop() on another, as interleaved
accesses to m_running and m_stopping. A step() reads neither, so it is one move; entering
it is a move of its own, where the calls are counted. -/
namespace Emu6502
open Interaction

inductive RunAt where
  | setRunning
  | clearStopping
  | beginCycle
  | testRunning
  | testStopping
  | callStep
  | inStep
  | resetRunning
  | resetStopping
  | returned
  deriving DecidableEq, Repr

inductive StopAt where
  | pause
  | testRunning
  | returned
  deriving DecidableEq, Repr

inductive Thread where
  | run
  | stop
  deriving DecidableEq, Repr

structure Threads (σ : Type) where
  machine : Machine σ
  run : RunAt
  stop : StopAt
  steps : Nat

namespace Threads
variable {σ : Type} (d : Device Uint16 Uint8 σ)

def spawn (h : Host σ) : Threads σ := ⟨h.machine,.setRunning,.pause,0⟩

def running (t : Threads σ) : Bool := t.machine.cpu.running
def stopping (t : Threads σ) : Bool := t.machine.cpu.stopping

def setRunning (t : Threads σ) (v : Bool) : Threads σ :=
  {t with machine := {t.machine with cpu := {t.machine.cpu with running := v}}}

def setStopping (t : Threads σ) (v : Bool) : Threads σ :=
  {t with machine := {t.machine with cpu := {t.machine.cpu with stopping := v}}}

def moveRun (t : Threads σ) : Threads σ :=
  match t.run with
  | .setRunning => {t.setRunning true with run := .clearStopping}
  | .clearStopping => {t.setStopping false with run := .beginCycle}
  | .beginCycle => {t with run := .testRunning}
  | .testRunning => {t with run := if t.running then .testStopping else .resetRunning}
  | .testStopping => {t with run := if t.stopping then .resetRunning else .callStep}
  | .callStep => {t with run := .inStep, steps := t.steps + 1}
  | .inStep => {t with run := .testRunning, machine := t.machine.step d}
  | .resetRunning => {t.setRunning false with run := .resetStopping}
  | .resetStopping => {t.setStopping false with run := .returned}
  | .returned => t

def moveStop (t : Threads σ) : Threads σ :=
  match t.stop with
  | .pause => {t.setStopping true with stop := .testRunning}
  | .testRunning => if t.running then t else {t with stop := .returned}
  | .returned => t

def move (thread : Thread) (t : Threads σ) : Threads σ :=
  match thread with
  | .run => t.moveRun d
  | .stop => t.moveStop

def before (h : Host σ) (schedule : Nat → Thread) : Nat → Threads σ :=
  Interleaving.state (move d) schedule (spawn h)

def runs : RunAt → Bool
  | .setRunning | .resetStopping | .returned => false
  | _ => true

@[simp] theorem stepRunning (m : Machine σ) : (m.step d).cpu.running = m.cpu.running :=
  (m.isStepped d).runFlagsKept.1

@[simp] theorem stepStopping (m : Machine σ) : (m.step d).cpu.stopping = m.cpu.stopping :=
  (m.isStepped d).runFlagsKept.2

theorem runningTells (t : Threads σ) (thread : Thread) (tells : t.running = runs t.run) :
    (t.move d thread).running = runs (t.move d thread).run := by
  obtain ⟨m,run,stop,steps⟩ := t
  cases thread with
  | run =>
    cases asked : m.cpu.stopping <;> cases run <;>
      simp_all [move,moveRun,runs,running,stopping,setRunning,setStopping]
  | stop =>
    cases stop with
    | pause => exact tells
    | returned => exact tells
    | testRunning =>
      simp only [move,moveStop]
      split <;> exact tells

theorem stopMoveRun (t : Threads σ) : (t.move d .stop).run = t.run := by
  obtain ⟨m,run,stop,steps⟩ := t
  cases stop with
  | pause => rfl
  | returned => rfl
  | testRunning =>
    simp only [move,moveStop]
    split <;> rfl

theorem runMoveStop (t : Threads σ) : (t.move d .run).stop = t.stop := by
  obtain ⟨m,run,stop,steps⟩ := t
  cases run <;> rfl

/-- A pause() that run() cannot miss: it is past its start-up, finds m_stopping set at its
next test, and has at most the call it was already committed to. -/
structure Paused (base : Nat) (t : Threads σ) : Prop where
  tells : t.running = runs t.run
  begun : t.run ≠ .setRunning ∧ t.run ≠ .clearStopping
  waiting : t.stop ≠ .pause
  asked : runs t.run = true → t.stopping = true
  committed : t.run = .callStep → t.steps ≤ base
  bounded : t.steps ≤ base + 1

theorem pausedMove (base : Nat) (thread : Thread) (t : Threads σ) (paused : Paused base t) :
    Paused base (t.move d thread) := by
  have tells := runningTells d t thread paused.tells
  obtain ⟨here,begun,waiting,asked,committed,bounded⟩ := paused
  obtain ⟨m,run,stop,steps⟩ := t
  cases thread with
  | run =>
    refine ⟨tells,?_,by rw [runMoveStop]; exact waiting,?_,?_,?_⟩ <;> cases run <;>
      simp_all [move,moveRun,runs,running,stopping,setRunning,setStopping]
  | stop =>
    cases stop with
    | pause => exact absurd rfl waiting
    | returned => exact ⟨here,begun,waiting,asked,committed,bounded⟩
    | testRunning =>
      simp only [move,moveStop]
      split
      · exact ⟨here,begun,waiting,asked,committed,bounded⟩
      · exact ⟨here,begun,by simp,asked,committed,bounded⟩

theorem pauseTakes {t : Threads σ} (tells : t.running = runs t.run) (pausing : t.stop = .pause)
    (begun : t.run ≠ .setRunning ∧ t.run ≠ .clearStopping) : Paused t.steps (t.move d .stop) := by
  obtain ⟨m,run,stop,steps⟩ := t
  cases pausing
  exact ⟨tells,begun,by simp [move,moveStop],fun _ => rfl,fun _ => Nat.le_refl _,Nat.le_succ _⟩

def runLeft : RunAt → Nat
  | .setRunning | .clearStopping => 8
  | .beginCycle => 7
  | .callStep => 6
  | .inStep => 5
  | .testRunning => 4
  | .testStopping => 3
  | .resetRunning => 2
  | .resetStopping => 1
  | .returned => 0

def stopLeft : StopAt → Nat
  | .pause => 2
  | .testRunning => 1
  | .returned => 0

theorem runLeftZero {position : RunAt} (none : runLeft position = 0) : position = .returned := by
  cases position <;> first | rfl | contradiction

theorem stopLeftZero {position : StopAt} (none : stopLeft position = 0) : position = .returned := by
  cases position <;> first | rfl | contradiction

theorem pausedRunMoves {base : Nat} {t : Threads σ} (paused : Paused base t) (left : runLeft t.run ≠ 0) :
    runLeft (t.move d .run).run < runLeft t.run := by
  obtain ⟨here,begun,waiting,asked,committed,bounded⟩ := paused
  obtain ⟨m,run,stop,steps⟩ := t
  cases run <;> simp_all [move,moveRun,runs,running,stopping,runLeft]

theorem pausedFalls {base : Nat} (thread : Thread) (t : Threads σ) (paused : Paused base t) :
    runLeft (t.move d thread).run ≤ runLeft t.run := by
  cases thread with
  | stop => rw [stopMoveRun]
  | run =>
    by_cases left : runLeft t.run = 0
    · have same : t.move d .run = t := by simp only [move,moveRun,runLeftZero left]
      rw [same]
    · exact Nat.le_of_lt (pausedRunMoves d paused left)

def Ended (base : Nat) (t : Threads σ) : Prop := Paused base t ∧ t.run = .returned

theorem endedMove (base : Nat) (thread : Thread) (t : Threads σ) (ended : Ended base t) :
    Ended base (t.move d thread) := by
  refine ⟨pausedMove d base thread t ended.1,?_⟩
  cases thread with
  | stop => rw [stopMoveRun]; exact ended.2
  | run => simp only [move,moveRun,ended.2]

theorem endedStopMoves {base : Nat} {t : Threads σ} (ended : Ended base t) (left : stopLeft t.stop ≠ 0) :
    stopLeft (t.move d .stop).stop < stopLeft t.stop := by
  obtain ⟨paused,finished⟩ := ended
  have idle : t.running = false := by rw [paused.tells,finished]; rfl
  cases waits : t.stop with
  | pause => exact absurd waits paused.waiting
  | testRunning => simp [move,moveStop,waits,idle,stopLeft]
  | returned => simp [waits,stopLeft] at left

theorem endedFalls {base : Nat} (thread : Thread) (t : Threads σ) (ended : Ended base t) :
    stopLeft (t.move d thread).stop ≤ stopLeft t.stop := by
  cases thread with
  | run => rw [runMoveStop]
  | stop =>
    by_cases left : stopLeft t.stop = 0
    · have same : t.move d .stop = t := by simp only [move,moveStop,stopLeftZero left]
      rw [same]
    · exact Nat.le_of_lt (endedStopMoves d ended left)

/- A pause() ahead of `m_stopping = false`: erased, or about to be. -/
structure Erased (t : Threads σ) : Prop where
  inside : t.run ∈ [.setRunning,.clearStopping,.beginCycle,.testRunning,.testStopping,.callStep,.inStep]
  running : t.run ≠ .setRunning → t.running = true
  cleared : t.run ≠ .setRunning → t.run ≠ .clearStopping → t.stopping = false
  stored : t.stop ≠ .pause

theorem erasedMove (thread : Thread) (t : Threads σ) (erased : Erased t) : Erased (t.move d thread) := by
  obtain ⟨inside,here,cleared,stored⟩ := erased
  obtain ⟨m,run,stop,steps⟩ := t
  cases thread with
  | run =>
    refine ⟨?_,?_,?_,by rw [runMoveStop]; exact stored⟩ <;> cases run <;>
      simp_all [move,moveRun,running,stopping,setRunning,setStopping]
  | stop =>
    cases stop with
    | pause => exact absurd rfl stored
    | returned => exact ⟨inside,here,cleared,stored⟩
    | testRunning =>
      simp only [move,moveStop]
      split
      · exact ⟨inside,here,cleared,stored⟩
      · exact ⟨inside,here,cleared,by simp⟩

theorem pauseErased {t : Threads σ} (tells : t.running = runs t.run) (pausing : t.stop = .pause)
    (startUp : t.run = .setRunning ∨ t.run = .clearStopping) : Erased (t.move d .stop) := by
  obtain ⟨m,run,stop,steps⟩ := t
  cases pausing
  rcases startUp with first | second
  · cases first
    exact ⟨by simp [move,moveStop,setStopping],fun other => absurd rfl other,fun other => absurd rfl other,
      by simp [move,moveStop]⟩
  · cases second
    exact ⟨by simp [move,moveStop,setStopping],fun _ => tells,fun _ other => absurd rfl other,by simp [move,moveStop]⟩

section schedules
variable {h : Host σ} {schedule : Nat → Thread} {n : Nat}

theorem beforeTells (k : Nat) : (before d h schedule k).running = runs (before d h schedule k).run := by
  have start : (before d h schedule 0).running = runs (before d h schedule 0).run := h.idle
  exact Interleaving.invariantFrom (I := fun t : Threads σ => t.running = runs t.run)
    (fun thread t tells => runningTells d t thread tells) start k (Nat.zero_le k)

theorem afterPause (turn : schedule n = .stop) :
    before d h schedule (n+1) = (before d h schedule n).move d .stop := by
  simp only [before,Interleaving.state,turn]

theorem pausedReturns {base : Nat} (fair : Interleaving.Fair schedule)
    (paused : Paused base (before d h schedule n)) :
    (∃ k, n ≤ k ∧ (before d h schedule k).run = .returned) ∧
      ∃ k, n ≤ k ∧ (before d h schedule k).stop = .returned := by
  obtain ⟨k,later,ended⟩ := Interleaving.rankReachesZero fair .run (pausedMove d base)
    (pausedFalls d) (fun t => pausedRunMoves d) paused
  have returned := runLeftZero ended
  have still := Interleaving.invariantFrom (pausedMove d base) paused k later
  obtain ⟨j,after,woken⟩ := Interleaving.rankReachesZero fair .stop (endedMove d base)
    (endedFalls d) (fun t => endedStopMoves d) ⟨still,returned⟩
  exact ⟨⟨k,later,returned⟩,j,Nat.le_trans later after,stopLeftZero woken⟩

theorem erasedFrom (erased : Erased (before d h schedule n)) (k : Nat) (later : n ≤ k) :
    (before d h schedule k).run ≠ .returned := by
  have still := Interleaving.invariantFrom (erasedMove d) erased k later
  intro returned
  have inside := still.inside
  unfold before at returned
  rw [returned] at inside
  simp at inside

/- A pause() stored at turn n stops run() after one further step() call at most, and stop() with it. -/
def Obeyed (h : Host σ) (schedule : Nat → Thread) (n : Nat) : Prop :=
  (∀ k, n ≤ k → (before d h schedule k).steps ≤ (before d h schedule n).steps + 1) ∧
    (∃ k, n ≤ k ∧ (before d h schedule k).run = .returned) ∧
      ∃ k, n ≤ k ∧ (before d h schedule k).stop = .returned

theorem erasedNotObeyed (erased : Erased (before d h schedule (n+1)))
    (startUp : (before d h schedule n).run = .setRunning ∨ (before d h schedule n).run = .clearStopping) :
    ¬ Obeyed d h schedule n := by
  rintro ⟨_,⟨k,later,returned⟩,_⟩
  rcases Nat.eq_or_lt_of_le later with rfl | after
  · rw [returned] at startUp
    rcases startUp with first | second <;> contradiction
  · exact erasedFrom d erased k after returned

/-- A pause() stored at turn `n` is obeyed exactly when run() is at neither of its two first stores. -/
theorem pauseObeyed (fair : Interleaving.Fair schedule) (turn : schedule n = .stop)
    (pausing : (before d h schedule n).stop = .pause) :
    Obeyed d h schedule n ↔
      (before d h schedule n).run ≠ .setRunning ∧ (before d h schedule n).run ≠ .clearStopping := by
  have tells : (before d h schedule n).running = runs (before d h schedule n).run := beforeTells d n
  constructor
  · intro obeyed
    have notBegun (startUp : (before d h schedule n).run = .setRunning ∨ (before d h schedule n).run = .clearStopping) :
        False := by
      refine erasedNotObeyed d ?_ startUp obeyed
      rw [afterPause d turn]
      exact pauseErased d tells pausing startUp
    exact ⟨fun first => notBegun (.inl first),fun second => notBegun (.inr second)⟩
  · intro begun
    have paused : Paused (before d h schedule n).steps (before d h schedule (n+1)) := by
      rw [afterPause d turn]
      exact pauseTakes d tells pausing begun
    obtain ⟨⟨k,later,returned⟩,j,after,woken⟩ := pausedReturns d fair paused
    refine ⟨fun i since => ?_,⟨k,by omega,returned⟩,j,by omega,woken⟩
    rcases Nat.eq_or_lt_of_le since with rfl | next
    · exact Nat.le_succ _
    · exact (Interleaving.invariantFrom (pausedMove d _) paused i next).bounded

end schedules

def stopAfter (lead n : Nat) : Thread :=
  if n < lead then .run else if (n - lead) % 2 = 0 then .stop else .run

theorem stopAfterFair (lead : Nat) : Interleaving.Fair (stopAfter lead) := by
  intro thread n
  cases thread with
  | run => exact ⟨lead + (2 * n + 1),by omega,by simp [stopAfter]⟩
  | stop => exact ⟨lead + 2 * n,by omega,by simp [stopAfter]⟩

theorem latePauseObeyed : Obeyed Bus.device (Host.construct Host.resetRegs (Machine.rig []).bus) (stopAfter 3) 3 :=
  (pauseObeyed Bus.device (stopAfterFair 3) rfl rfl).mpr (by decide)

theorem startUpErasesPause :
    let h := Host.construct Host.resetRegs (Machine.rig []).bus
    Interleaving.Fair (stopAfter 1) ∧ stopAfter 1 1 = .stop ∧
      (before Bus.device h (stopAfter 1) 1).stop = .pause ∧ (before Bus.device h (stopAfter 1) 1).running = true ∧
        ¬ Obeyed Bus.device h (stopAfter 1) 1 := by
  intro h
  refine ⟨stopAfterFair 1,rfl,rfl,rfl,erasedNotObeyed Bus.device ?_ (.inr rfl)⟩
  rw [afterPause Bus.device rfl]
  exact pauseErased Bus.device rfl rfl (.inr rfl)

end Threads
end Emu6502
