import Emu6502.DebuggerThreads

/-! pause(): the store it makes and the join behind it. Whether the UI thread comes back is decided
by where the run thread is when the store takes effect. -/
namespace Emu6502
namespace LinuxDebugger

/- Where the run thread may be. -/
inductive RunPhase where
  | entering  -- m_running = true;
  | clearing  -- m_stopping = false;
  | stepping
  | calling
  | locking
  | inserting
  | unlocking
  | testing
  | breaking
  | marking  -- running = false; of the breakpoint callback
  | ending  -- m_running = false;
  | erasing  -- m_stopping = false;
  | leaving  -- running = false;
  | finished
  deriving DecidableEq, Repr

namespace RunPhase

def code : RunPhase → List DebugOp
  | entering => runThreadCode
  | clearing => runThreadCode.drop 1
  | stepping => runThreadCode.drop 2
  | calling => runThreadCode.drop 3
  | locking => .lock :: .insert :: .unlock :: runThreadCode.drop 4
  | inserting => .insert :: .unlock :: runThreadCode.drop 4
  | unlocking => .unlock :: runThreadCode.drop 4
  | testing => runThreadCode.drop 4
  | breaking => runThreadCode.drop 5
  | marking => .setRunning false :: runThreadCode.drop 6
  | ending => runThreadCode.drop 6
  | erasing => runThreadCode.drop 7
  | leaving => runThreadCode.drop 8
  | finished => []

/- Turns of the run thread to its end, if its loop is not taken again. -/
def rank : RunPhase → Nat
  | finished => 0
  | leaving => 1
  | erasing => 2
  | ending => 3
  | marking => 4
  | breaking => 5
  | testing => 6
  | unlocking => 7
  | inserting => 8
  | locking => 9
  | calling => 10
  | stepping => 11
  | clearing => 12
  | entering => 13

/- Between the two stores to m_running. -/
def active : RunPhase → Bool
  | entering | erasing | leaving | finished => false
  | _ => true

/- Before the store that clears m_stopping. -/
def opening : RunPhase → Bool
  | entering | clearing => true
  | _ => false

/- Behind it, with the test of the loop yet to come. -/
def looping : RunPhase → Bool
  | stepping | calling | locking | inserting | unlocking | testing => true
  | _ => false

def next (s : LinuxDebugger) : RunPhase → RunPhase
  | entering => clearing
  | clearing => stepping
  | stepping => calling
  | calling => if s.previousPcs.head? = some s.pc then testing else locking
  | locking => inserting
  | inserting => unlocking
  | unlocking => testing
  | testing => if !s.atBreakpoint && s.machine.cpu.running && !s.machine.cpu.stopping then stepping else breaking
  | breaking => if s.atBreakpoint then marking else ending
  | marking => ending
  | ending => erasing
  | erasing => leaving
  | leaving => finished
  | finished => finished

theorem loops (p : RunPhase) : .loopTest ∈ p.code ↔ p.opening = true ∨ p.looping = true := by
  cases p <;> decide

theorem opens {p : RunPhase} (loop : p.opening = true ∨ p.looping = true) :
    .flagStopping false ∈ p.code.takeWhile (· ≠ .loopTest) ↔ p.opening = true := by
  revert loop
  cases p <;> decide

theorem finishedCode {p : RunPhase} (ended : p.code = []) : p = finished := by
  cases p with
  | finished => rfl
  | _ => contradiction

theorem rankFinished {p : RunPhase} : p.rank = 0 ↔ p = finished := by
  cases p <;> decide

end RunPhase

section moves
variable {s : LinuxDebugger} {t : DebugThread} {p : RunPhase} {op : DebugOp} {rest : List DebugOp}

/-! What a turn of the run thread does, by where it is. -/

structure RunTurned (s : LinuxDebugger) (p : RunPhase) (later : LinuxDebugger) : Prop where
  run : later.code .run = (p.next s).code
  ui : later.code .ui = s.code .ui
  running : later.machine.cpu.running = if p = .entering then true else if p = .ending then false else s.machine.cpu.running
  stopping : later.machine.cpu.stopping = if p = .clearing ∨ p = .erasing then false else s.machine.cpu.stopping

theorem runTurned (here : s.code .run = p.code) (unheld : p = .locking → s.emuMutex = none) :
    RunTurned s p (s.turn .run) := by
  cases p with
  | finished =>
    have same : s.turn .run = s := by rw [turn,here]; rfl
    rw [same]
    exact ⟨here,rfl,rfl,rfl⟩
  | stepping =>
    have turned : s.turn .run = s.perform .run RunPhase.calling.code .cpuStep := by rw [turn,here]; rfl
    have kept := (s.machine.isStepped RamBus.device).runFlagsKept
    rw [turned]
    exact ⟨rfl,rfl,kept.1,kept.2⟩
  | calling =>
    have turned : s.turn .run = s.perform .run RunPhase.testing.code .callback := by rw [turn,here]; rfl
    rw [turned,perform]
    refine ⟨?_,rfl,rfl,rfl⟩
    rw [RunPhase.next]
    split <;> rfl
  | locking =>
    have turned : s.turn .run = s.perform .run RunPhase.inserting.code .lock := by rw [turn,here]; rfl
    rw [turned,perform,if_pos (unheld rfl)]
    exact ⟨rfl,rfl,rfl,rfl⟩
  | testing =>
    have turned : s.turn .run = s.perform .run RunPhase.breaking.code .loopTest := by rw [turn,here]; rfl
    rw [turned,perform]
    refine ⟨?_,rfl,rfl,rfl⟩
    rw [RunPhase.next]
    split <;> rfl
  | breaking =>
    have turned : s.turn .run = s.perform .run RunPhase.ending.code .breakTest := by rw [turn,here]; rfl
    rw [turned,perform]
    refine ⟨?_,rfl,rfl,rfl⟩
    rw [RunPhase.next]
    split <;> rfl
  | _ =>
    rw [turn,here]
    exact ⟨rfl,rfl,rfl,rfl⟩

/-! Where it is in every state reached, and that m_running stays set within its loop. -/

structure At (s : LinuxDebugger) (p : RunPhase) : Prop where
  code : s.code .run = p.code
  running : p.active = true → s.machine.cpu.running = true

theorem flagKept (free : s.blocked op = false) (guard : Guarded .ui (decide (s.emuMutex = some .ui)) rest op) :
    (s.perform .ui rest op).machine.cpu.running = s.machine.cpu.running := by
  cases op with
  | join =>
    have ended : s.code .run = [] := by simpa [blocked] using free
    rw [perform,if_pos ended]
    rfl
  | awaitStopped =>
    have stopped : ¬ s.machine.cpu.running = true := by simpa [blocked] using free
    rw [perform,if_neg stopped]
    rfl
  | lock =>
    have unowned : s.emuMutex = none := by simpa [blocked] using free
    rw [perform,if_pos unowned]
    rfl
  | flagRunning v => exact absurd guard.1 (by decide)
  | cpuStep => exact (s.machine.isStepped RamBus.device).runFlagsKept.1
  | emuStart => exact (Machine.startRestarts RamBus.device s.machine).running
  | _ => rfl

theorem activeNext (at_ : At s p) (turned : RunTurned s p (s.turn .run)) : At (s.turn .run) (p.next s) := by
  refine ⟨turned.run,fun active => ?_⟩
  rw [turned.running]
  cases p with
  | entering => rfl
  | ending => contradiction
  | erasing => contradiction
  | leaving => contradiction
  | finished => contradiction
  | _ => exact at_.running rfl

theorem turnAt (threaded : Threaded s) (at_ : At s p) (t : DebugThread) : ∃ q, At (s.turn t) q := by
  cases next : s.code t with
  | nil =>
    exact ⟨p,by rwa [turn,next]⟩
  | cons op rest =>
    have turned : s.turn t = s.perform t rest op := by rw [turn,next]
    cases wait : s.blocked op with
    | true => exact ⟨p,by rwa [turned,performBlocked wait]⟩
    | false =>
      cases t with
      | run =>
        refine ⟨p.next s,activeNext at_ (runTurned at_.code fun locking => ?_)⟩
        subst locking
        rw [at_.code] at next
        obtain ⟨rfl,_⟩ := List.cons.inj next
        simpa [blocked] using wait
      | ui =>
        obtain ⟨guard,_⟩ := guardedMove threaded next wait
        rw [turned]
        by_cases spawning : op = .spawn
        · subst spawning
          exact ⟨.entering,rfl,fun active => by contradiction⟩
        · refine ⟨p,?_,fun active => (flagKept wait guard).trans (at_.running active)⟩
          rw [(performed _ _ wait).code,if_neg spawning,Function.update_of_ne (by decide)]
          exact at_.code

theorem applyAt (threaded : Threaded s) (at_ : At s p) (e : DebugEvent) : ∃ q, At (s.apply e) q := by
  cases e with
  | turn t => exact turnAt threaded at_ t
  | command c =>
    refine ⟨p,?_⟩
    rw [apply]
    split
    · exact ⟨at_.code,at_.running⟩
    · exact at_

theorem reachedAt (regs : Registers) (bus : RamBus) (events : List DebugEvent) :
    ∃ p, At ((construct regs bus).run events) p := by
  have start : At (construct regs bus) .finished := ⟨rfl,fun active => by contradiction⟩
  have kept : Threaded ((construct regs bus).run events) ∧ ∃ p, At ((construct regs bus).run events) p :=
    Transition.runInvariant apply (I := fun s => Threaded s ∧ ∃ p, At s p) ⟨constructThreaded regs bus,.finished,start⟩
      fun met _ ⟨threaded,_,at_⟩ => ⟨applyThreaded threaded met.2,applyAt threaded at_ met.2⟩
  exact kept.2

/-! The UI thread at a join. -/

structure Joining (s : LinuxDebugger) (rest : List DebugOp) (p : RunPhase) : Prop where
  threaded : Threaded s
  ui : s.code .ui = .join :: rest
  at_ : At s p

theorem joiningTurned (joining : Joining s rest p) : RunTurned s p (s.turn .run) := by
  refine runTurned joining.at_.code fun locking => ?_
  subst locking
  have here : s.code .run = .lock :: RunPhase.inserting.code := joining.at_.code
  cases wait : s.blocked .lock with
  | false => simpa [blocked] using wait
  | true =>
    have owned := runWaits joining.threaded here wait
    rcases joining.threaded.locking .ui with disciplined | ⟨_,_,first⟩
    · rw [joining.ui] at disciplined
      simpa [owned] using disciplined.1.2
    · rw [joining.ui] at first
      exact absurd (Option.some.inj first) (by decide)

theorem joiningNext (joining : Joining s rest p) : Joining (s.turn .run) rest (p.next s) :=
  have turned := joiningTurned joining
  ⟨turnThreaded joining.threaded .run,turned.ui.trans joining.ui,activeNext joining.at_ turned⟩

theorem joiningOther (joining : Joining s rest p) (busy : p ≠ .finished) {e : DebugEvent} (other : e ≠ .turn .run) :
    s.apply e = s := by
  cases e with
  | command c => rw [apply,if_neg (by simp [joining.ui])]
  | turn t =>
    cases t with
    | run => contradiction
    | ui =>
      rw [apply,turn,joining.ui]
      refine if_neg fun ended => busy (RunPhase.finishedCode ?_)
      rw [← joining.at_.code]
      exact ended

/- The store of pause() is seen at the loop's test: it is not cleared before. -/
def Heeds (s : LinuxDebugger) : Prop :=
  .loopTest ∈ s.code .run →
    s.machine.cpu.stopping = true ∧ .flagStopping false ∉ (s.code .run).takeWhile (· ≠ .loopTest)

instance (s : LinuxDebugger) : Decidable s.Heeds := inferInstanceAs (Decidable (_ → _ ∧ _))

theorem heedsAt (here : s.code .run = p.code) :
    s.Heeds ↔ p.opening = false ∧ (p.looping = true → s.machine.cpu.stopping = true) := by
  rw [Heeds,here,p.loops]
  constructor
  · intro heeds
    have ahead : p.opening = false := by
      rw [Bool.eq_false_iff]
      intro opening
      exact (heeds (.inl opening)).2 ((RunPhase.opens (.inl opening)).mpr opening)
    exact ⟨ahead,fun looping => (heeds (.inr looping)).1⟩
  · rintro ⟨ahead,heeds⟩ loop
    refine ⟨heeds (loop.resolve_left (by simp [ahead])),fun cleared => ?_⟩
    simp [(RunPhase.opens loop).mp cleared] at ahead

theorem heededRank (heeds : s.Heeds) (here : s.code .run = p.code) : p.rank ≤ 11 := by
  have ahead := ((heedsAt here).mp heeds).1
  cases p <;> first | contradiction | decide

theorem heededLower (heeds : s.Heeds) (here : s.code .run = p.code) (busy : p ≠ .finished) : (p.next s).rank < p.rank := by
  obtain ⟨ahead,seen⟩ := (heedsAt here).mp heeds
  cases p with
  | entering => contradiction
  | clearing => contradiction
  | finished => contradiction
  | calling =>
    rw [RunPhase.next]
    split <;> decide
  | testing =>
    rw [RunPhase.next,seen rfl]
    simp [RunPhase.rank]
  | breaking =>
    rw [RunPhase.next]
    split <;> decide
  | _ => exact Nat.lt_succ_self _

theorem heededNext (heeds : s.Heeds) (joining : Joining s rest p) : (s.turn .run).Heeds := by
  obtain ⟨ahead,seen⟩ := (heedsAt joining.at_.code).mp heeds
  have turned := joiningTurned joining
  rw [heedsAt turned.run,turned.stopping]
  cases p with
  | entering => contradiction
  | clearing => contradiction
  | calling =>
    rw [RunPhase.next]
    split <;> exact ⟨rfl,fun _ => seen rfl⟩
  | testing =>
    rw [RunPhase.next,seen rfl]
    simp [RunPhase.opening,RunPhase.looping]
  | breaking =>
    rw [RunPhase.next]
    split <;> exact ⟨rfl,fun looping => by contradiction⟩
  | _ =>
    refine ⟨rfl,fun looping => ?_⟩
    first
    | contradiction
    | exact seen rfl

theorem unheededAt (here : s.code .run = p.code) :
    ¬ s.Heeds ↔ p.opening = true ∨ p.looping = true ∧ s.machine.cpu.stopping = false := by
  rw [heedsAt here,not_and_or,Bool.not_eq_false,Classical.not_imp,Bool.not_eq_true]

theorem unheededNext (unheeded : ¬ s.Heeds) (joining : Joining s rest p)
    (past : (s.code .run).head? = some .loopTest → s.atBreakpoint = false) : ¬ (s.turn .run).Heeds := by
  have turned := joiningTurned joining
  rw [unheededAt turned.run,turned.stopping]
  rcases (unheededAt joining.at_.code).mp unheeded with ahead | ⟨looping,unseen⟩
  · cases p with
    | entering => exact Or.inl rfl
    | clearing => exact Or.inr ⟨rfl,rfl⟩
    | _ => contradiction
  · cases p with
    | testing =>
      have unbroken := past (by rw [joining.at_.code]; rfl)
      rw [RunPhase.next,unbroken,joining.at_.running rfl,unseen]
      exact Or.inr ⟨rfl,rfl⟩
    | calling =>
      rw [RunPhase.next]
      split <;> exact Or.inr ⟨rfl,unseen⟩
    | stepping => exact Or.inr ⟨rfl,unseen⟩
    | locking => exact Or.inr ⟨rfl,unseen⟩
    | inserting => exact Or.inr ⟨rfl,unseen⟩
    | unlocking => exact Or.inr ⟨rfl,unseen⟩
    | _ => contradiction

theorem heededApply (joining : Joining s rest p) (heeds : s.Heeds) (busy : p ≠ .finished) (e : DebugEvent) :
    ∃ q, Joining (s.apply e) rest q ∧ (s.apply e).Heeds ∧ q.rank + (if e = .turn .run then 1 else 0) ≤ p.rank := by
  by_cases mine : e = .turn .run
  · subst mine
    exact ⟨p.next s,joiningNext joining,heededNext heeds joining,heededLower heeds joining.at_.code busy⟩
  · rw [joiningOther joining busy mine,if_neg mine]
    exact ⟨p,joining,heeds,le_rfl⟩

theorem unheededBusy (unheeded : ¬ s.Heeds) : s.code .run ≠ [] := by
  intro ended
  refine unheeded fun loop => ?_
  rw [ended] at loop
  exact absurd loop List.not_mem_nil

theorem unheededApply (joining : Joining s rest p) (unheeded : ¬ s.Heeds) {e : DebugEvent}
    (past : e = .turn .run → (s.code .run).head? = some .loopTest → s.atBreakpoint = false) :
    ¬ (s.apply e).Heeds ∧ ∃ q, Joining (s.apply e) rest q := by
  by_cases mine : e = .turn .run
  · subst mine
    exact ⟨unheededNext unheeded joining (past rfl),p.next s,joiningNext joining⟩
  · have busy : p ≠ .finished := by
      rintro rfl
      exact unheededBusy unheeded joining.at_.code
    rw [joiningOther joining busy mine]
    exact ⟨unheeded,p,joining⟩

end moves

/-- The UI thread at the join of pause(), reset() or run(). If the loop of the run thread will see
m_stopping set, its next eleven turns end it, wherever other events fall between them; if it will
not, the join goes on for as long as the loop is not tested at a breakpoint. -/
theorem pauseJoins (regs : Registers) (bus : RamBus) (events : List DebugEvent) (rest : List DebugOp) :
    let s := (construct regs bus).run events
    s.code .ui = .join :: rest →
    (s.Heeds → ∀ later, 11 ≤ later.count (.turn .run) → ∃ before after, later = before ++ after ∧
      (s.run before).code .ui = .join :: rest ∧ (s.run before).code .run = []) ∧
    (¬ s.Heeds → ∀ later, (∀ met ∈ s.history later, met.2 = .turn .run → (met.1.code .run).head? = some .loopTest →
      met.1.atBreakpoint = false) → (s.run later).code .ui = .join :: rest ∧ (s.run later).code .run ≠ []) := by
  intro s joined
  obtain ⟨p,at_⟩ := reachedAt regs bus events
  have joining : Joining s rest p := ⟨reachedThreaded regs bus events,joined,at_⟩
  refine ⟨fun heeds later enough => ?_,fun unheeded later past => ?_⟩
  · have near : p.rank ≤ later.countP (· == .turn .run) := (heededRank heeds at_.code).trans enough
    obtain ⟨before,after,split,q,ended,joining,_⟩ := Transition.runReaches apply
      (fun n s => ∃ q : RunPhase, q.rank = n ∧ Joining s rest q ∧ s.Heeds) (· == .turn .run) ⟨p,rfl,joining,heeds⟩ near
      fun n s e ⟨q,away,joining,heeds⟩ => by
        have busy : q ≠ .finished := fun finished => by simp [RunPhase.rankFinished.mpr finished] at away
        obtain ⟨q',joining,heeds,lower⟩ := heededApply joining heeds busy e
        exact ⟨q'.rank,⟨q',rfl,joining,heeds⟩,by simpa [away] using lower⟩
    obtain rfl := RunPhase.rankFinished.mp ended
    exact ⟨before,after,split,joining.ui,joining.at_.code⟩
  · have kept : ¬ (s.run later).Heeds ∧ ∃ q, Joining (s.run later) rest q :=
      Transition.runInvariant apply (I := fun s => ¬ s.Heeds ∧ ∃ q, Joining s rest q)
      ⟨unheeded,p,joining⟩ fun met member ⟨unheeded,q,joining⟩ => unheededApply joining unheeded (past met member)
    obtain ⟨unheeded,q,joining⟩ := kept
    exact ⟨joining.ui,unheededBusy unheeded⟩

/- run() over a NOP and pause(), with n turns of the run thread before the store of pause(). -/
def pausedAfter (n : Nat) : List DebugEvent :=
  .command .run :: (List.replicate 4 (.turn .ui) ++ List.replicate n (.turn .run) ++ [.command .pause,.turn .ui])

theorem pausedInTime :
    let s := (construct Host.resetRegs (opcodeBus 0xea)).run (pausedAfter 2)
    s.code .ui = [.join,.setRunning false] ∧ s.Heeds ∧ ∃ before after, List.replicate 11 (.turn .run) = before ++ after ∧
      (s.run before).code .ui = [.join,.setRunning false] ∧ (s.run before).code .run = [] := by
  have joined : ((construct Host.resetRegs (opcodeBus 0xea)).run (pausedAfter 2)).code .ui = [.join,.setRunning false] := by
    decide
  have heeds : ((construct Host.resetRegs (opcodeBus 0xea)).run (pausedAfter 2)).Heeds := by decide
  exact ⟨joined,heeds,(pauseJoins _ _ _ _ joined).1 heeds _ (by decide)⟩

/- A turn earlier, the store is lost. -/
example : ¬ ((construct Host.resetRegs (opcodeBus 0xea)).run (pausedAfter 1)).Heeds := by decide

end LinuxDebugger
end Emu6502
