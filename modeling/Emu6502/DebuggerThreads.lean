import Emu6502.LinuxDebugger

/-! The two threads of the debugger under every command and every schedule: what each has left
to do, which of them may touch the machine and the history, and when neither can go on. -/
namespace Emu6502

namespace DebugOp

/- Executes on the machine, or reads or writes previousPcs. -/
def touches : DebugOp → Bool
  | cpuStep | callback | insert | emuStart | refill => true
  | _ => false

/- Rewrites the history, or the machine from its reset vector. -/
def rewrites : DebugOp → Bool
  | insert | refill | emuStart => true
  | _ => false

end DebugOp

namespace LinuxDebugger
section moves
variable {s : LinuxDebugger} {t u : DebugThread} {op : DebugOp} {rest : List DebugOp} {held : Bool}

def blocked (s : LinuxDebugger) : DebugOp → Bool
  | .join => !(s.code .run).isEmpty
  | .awaitStopped => s.machine.cpu.running
  | .lock => s.emuMutex.isSome
  | _ => false

def onward (s : LinuxDebugger) (rest : List DebugOp) : DebugOp → List DebugOp
  | .guardRunning => if s.running then [] else rest
  | .callback => if s.previousPcs.head? = some s.pc then rest else .lock :: .insert :: .unlock :: rest
  | .loopTest =>
      if !s.atBreakpoint && s.machine.cpu.running && !s.machine.cpu.stopping then .cpuStep :: .callback :: .loopTest :: rest
      else rest
  | .breakTest => if s.atBreakpoint then .setRunning false :: rest else rest
  | _ => rest

theorem performBlocked (wait : s.blocked op = true) : s.perform t rest op = s := by
  cases op with
  | join => exact if_neg fun ended => by simp [blocked,ended] at wait
  | awaitStopped => exact if_pos wait
  | lock => exact if_neg fun unowned => by simp [blocked,unowned] at wait
  | _ => contradiction

structure Performed (s : LinuxDebugger) (t : DebugThread) (rest : List DebugOp) (op : DebugOp) (later : LinuxDebugger) :
    Prop where
  code : later.code = if op = .spawn then Function.update (Function.update s.code t rest) .run runThreadCode
    else Function.update s.code t (s.onward rest op)
  mutex : later.emuMutex = if op = .lock then some t else if op = .unlock then none else s.emuMutex
  running : later.running = if op = .setRunning true then true else if op = .setRunning false then false else s.running
  marked : op ≠ .flagRunning true → later.machine.cpu.running = true →
    op ≠ .flagRunning false ∧ s.machine.cpu.running = true

theorem performed (t : DebugThread) (rest : List DebugOp) (free : s.blocked op = false) :
    Performed s t rest op (s.perform t rest op) := by
  cases op with
  | join =>
    have ended : s.code .run = [] := by simpa [blocked] using free
    rw [perform,if_pos ended]
    exact ⟨rfl,rfl,rfl,fun _ marked => ⟨by simp,marked⟩⟩
  | awaitStopped =>
    have stopped : ¬ s.machine.cpu.running = true := by simpa [blocked] using free
    rw [perform,if_neg stopped]
    exact ⟨rfl,rfl,rfl,fun _ marked => ⟨by simp,marked⟩⟩
  | lock =>
    have unowned : s.emuMutex = none := by simpa [blocked] using free
    rw [perform,if_pos unowned]
    exact ⟨rfl,rfl,rfl,fun _ marked => ⟨by simp,marked⟩⟩
  | setRunning v => cases v <;> exact ⟨rfl,rfl,rfl,fun _ marked => ⟨by simp,marked⟩⟩
  | flagRunning v =>
    refine ⟨rfl,rfl,rfl,fun other marked => ?_⟩
    cases v with
    | true => contradiction
    | false => contradiction
  | cpuStep =>
    have kept := (s.machine.isStepped RamBus.device).runFlagsKept.1
    exact ⟨rfl,rfl,rfl,fun _ marked => ⟨by simp,kept.symm.trans marked⟩⟩
  | emuStart =>
    have kept := (Machine.startRestarts RamBus.device s.machine).running
    exact ⟨rfl,rfl,rfl,fun _ marked => ⟨by simp,kept.symm.trans marked⟩⟩
  | _ => exact ⟨rfl,rfl,rfl,fun _ marked => ⟨by simp,marked⟩⟩

/-! What each operation takes for granted, about its thread, the lock and the code behind it. -/

def Guarded (t : DebugThread) (held : Bool) (rest : List DebugOp) : DebugOp → Prop
  | .guardRunning | .join => t = .ui ∧ held = false
  | .spawn => t = .ui ∧ held = false ∧ rest = []
  | .awaitStopped | .emuStart | .refill => t = .ui ∧ held = true
  | .lock => held = false
  | .unlock | .insert => held = true
  | .callback => held = decide (t = .ui)
  | .flagRunning v => t = .run ∧ (v = true → .flagRunning false ∈ rest)
  | .loopTest => t = .run ∧ held = false
  | .breakTest => t = .run ∧ ∀ op ∈ rest, op.flagOnly = true
  | .setRunning v => (v = false → .spawn ∉ rest) ∧ (t = .run → v = false ∧ ∀ op ∈ rest, op.flagOnly = true)
  | _ => True

def Disciplined (t : DebugThread) : Bool → List DebugOp → Prop
  | held, [] => held = false
  | held, op :: rest => Guarded t held rest op ∧ Disciplined t (heldAfter held op) rest

theorem commandDisciplined (c : DebugCommand) : Disciplined .ui false c.code := by
  cases c <;> simp [DebugCommand.code,pauseCode,Disciplined,Guarded,heldAfter]

theorem runThreadDisciplined : Disciplined .run false runThreadCode := by
  simp [runThreadCode,Disciplined,Guarded,heldAfter,DebugOp.flagOnly]

def Stuck (s : LinuxDebugger) (t : DebugThread) : Prop :=
  t = .ui ∧ s.emuMutex = some t ∧ (s.code t).head? = some .lock

theorem onwardDisciplined (guard : Guarded t held rest op) (after : Disciplined t (heldAfter held op) rest) :
    Disciplined t (heldAfter held op) (s.onward rest op) ∨
      t = .ui ∧ held = true ∧ op = .callback ∧ (s.onward rest op).head? = some .lock := by
  cases op with
  | guardRunning =>
    obtain ⟨rfl,rfl⟩ := guard
    refine Or.inl ?_
    rw [onward]
    split
    · rfl
    · exact after
  | callback =>
    rw [onward]
    split
    · exact Or.inl after
    · cases t with
      | ui => exact Or.inr ⟨rfl,guard,rfl,rfl⟩
      | run =>
        refine Or.inl ⟨guard,rfl,rfl,?_⟩
        rwa [show held = false from guard] at after
  | loopTest =>
    obtain ⟨rfl,rfl⟩ := guard
    refine Or.inl ?_
    rw [onward]
    split
    · exact ⟨trivial,rfl,⟨rfl,rfl⟩,after⟩
    · exact after
  | breakTest =>
    obtain ⟨rfl,tail⟩ := guard
    refine Or.inl ?_
    rw [onward]
    split
    · refine ⟨⟨fun _ spawns => ?_,fun _ => ⟨rfl,tail⟩⟩,after⟩
      exact absurd (tail _ spawns) (by simp [DebugOp.flagOnly])
    · exact after
  | _ => exact Or.inl after

theorem heldSelf {later : LinuxDebugger} (done : Performed s t rest op later) :
    decide (later.emuMutex = some t) = heldAfter (decide (s.emuMutex = some t)) op := by
  rw [done.mutex]
  cases op <;> simp [heldAfter]

theorem mutexOther {later : LinuxDebugger} (done : Performed s t rest op later) (free : s.blocked op = false)
    (guard : Guarded t (decide (s.emuMutex = some t)) rest op) (other : u ≠ t) :
    later.emuMutex = some u ↔ s.emuMutex = some u := by
  rw [done.mutex]
  cases op with
  | lock =>
    have unowned : s.emuMutex = none := by simpa [blocked] using free
    simp [unowned,other.symm]
  | unlock =>
    have owned : s.emuMutex = some t := by simpa [Guarded] using guard
    simp [owned,other.symm]
  | _ => rfl

def requires : DebugOp → Bool
  | .setRunning false | .awaitStopped | .emuStart | .refill | .spawn => true
  | _ => false

def needsEnded : List DebugOp → Bool
  | [] => false
  | .join :: _ => false
  | op :: rest => requires op || needsEnded rest

theorem commandWaits (c : DebugCommand) : needsEnded c.code = false := by
  cases c <;> rfl

theorem uiOnward (guard : Guarded .ui held rest op) : s.onward rest op = rest ∨
    op = .guardRunning ∧ s.onward rest op = [] ∨ op = .callback ∧ s.onward rest op = .lock :: .insert :: .unlock :: rest := by
  cases op with
  | guardRunning =>
    rw [onward]
    split
    · exact Or.inr (Or.inl ⟨rfl,rfl⟩)
    · exact Or.inl rfl
  | callback =>
    rw [onward]
    split
    · exact Or.inl rfl
    · exact Or.inr (Or.inr ⟨rfl,rfl⟩)
  | loopTest => exact absurd guard.1 (by decide)
  | breakTest => exact absurd guard.1 (by decide)
  | _ => exact Or.inl rfl

theorem runOnward (guard : Guarded .run held rest op) : ∃ added, s.onward rest op = added ++ rest := by
  cases op with
  | guardRunning => exact absurd guard.1 (by decide)
  | callback =>
    rw [onward]
    split
    · exact ⟨[],rfl⟩
    · exact ⟨[.lock,.insert,.unlock],rfl⟩
  | loopTest =>
    rw [onward]
    split
    · exact ⟨[.cpuStep,.callback,.loopTest],rfl⟩
    · exact ⟨[],rfl⟩
  | breakTest =>
    rw [onward]
    split
    · exact ⟨[.setRunning false],rfl⟩
    · exact ⟨[],rfl⟩
  | _ => exact ⟨[],rfl⟩

theorem needsBehind (other : op ≠ .join) (needs : needsEnded rest = true) : needsEnded (op :: rest) = true := by
  cases op with
  | join => contradiction
  | _ => exact (Bool.or_eq_true _ _).mpr (Or.inr needs)

theorem needsOnward (guard : Guarded .ui held rest op) (other : op ≠ .join)
    (needs : needsEnded (s.onward rest op) = true) : needsEnded (op :: rest) = true := by
  rcases uiOnward (s := s) guard with same | ⟨_,gone⟩ | ⟨rfl,more⟩
  · exact needsBehind other (same ▸ needs)
  · rw [gone] at needs
    contradiction
  · rw [more] at needs
    exact needsBehind other needs

structure Threaded (s : LinuxDebugger) : Prop where
  locking : ∀ t, Disciplined t (decide (s.emuMutex = some t)) (s.code t) ∨ s.Stuck t
  ended : needsEnded (s.code .ui) = true → s.code .run = []
  marked : s.machine.cpu.running = true → .flagRunning false ∈ s.code .run

theorem guardedMove (threaded : Threaded s) (next : s.code t = op :: rest) (free : s.blocked op = false) :
    Guarded t (decide (s.emuMutex = some t)) rest op ∧
      Disciplined t (heldAfter (decide (s.emuMutex = some t)) op) rest := by
  rcases threaded.locking t with disciplined | ⟨_,owned,first⟩
  · rw [next] at disciplined
    exact disciplined
  · rw [next] at first
    obtain rfl := Option.some.inj first
    simp [blocked,owned] at free

theorem lockingMove (threaded : Threaded s) (next : s.code t = op :: rest) (free : s.blocked op = false)
    {later : LinuxDebugger} (done : Performed s t rest op later) (plain : op ≠ .spawn) (u : DebugThread) :
    Disciplined u (decide (later.emuMutex = some u)) (later.code u) ∨ later.Stuck u := by
  obtain ⟨guard,after⟩ := guardedMove threaded next free
  have code : later.code = Function.update s.code t (s.onward rest op) := by rw [done.code,if_neg plain]
  by_cases same : u = t
  · subst same
    rw [heldSelf done]
    rcases onwardDisciplined (s := s) guard after with disciplined | ⟨ui,held,rfl,first⟩
    · refine Or.inl ?_
      rw [code,Function.update_self]
      exact disciplined
    · have owned : s.emuMutex = some u := by simpa using held
      refine Or.inr ⟨ui,?_,?_⟩
      · rw [done.mutex]
        exact owned
      · rw [code,Function.update_self]
        exact first
  · have mutex := mutexOther done free guard same
    simp only [Stuck,code,Function.update_of_ne same,mutex]
    exact threaded.locking u

theorem spawnThreaded (threaded : Threaded s) (next : s.code t = .spawn :: rest) : Threaded (s.perform t rest .spawn) := by
  obtain ⟨⟨rfl,unheld,rfl⟩,_⟩ := guardedMove threaded next rfl
  have finished : s.code .run = [] := threaded.ended (by rw [next]; rfl)
  have mutex : decide (s.emuMutex = some .run) = false := by
    rcases threaded.locking .run with disciplined | ⟨ui,_⟩
    · rwa [finished] at disciplined
    · contradiction
  refine ⟨fun u => Or.inl ?_,fun needs => ?_,fun _ => ?_⟩
  · cases u with
    | ui => exact unheld
    | run => exact (show decide (s.emuMutex = some .run) = false from mutex) ▸ runThreadDisciplined
  · contradiction
  · exact List.mem_cons_of_mem _ (by decide)

theorem performThreaded (threaded : Threaded s) (next : s.code t = op :: rest) (free : s.blocked op = false) :
    Threaded (s.perform t rest op) := by
  by_cases spawning : op = .spawn
  · subst spawning
    exact spawnThreaded threaded next
  have done := performed t rest free
  obtain ⟨guard,_⟩ := guardedMove threaded next free
  refine ⟨lockingMove threaded next free done spawning,?_,fun marked => ?_⟩
  · rw [done.code,if_neg spawning]
    cases t with
    | ui =>
      intro needs
      rw [Function.update_of_ne (by decide)]
      by_cases joins : op = .join
      · subst joins
        simpa [blocked] using free
      · exact threaded.ended (by rw [next]; exact needsOnward guard joins needs)
    | run =>
      intro needs
      have finished := threaded.ended needs
      rw [next] at finished
      contradiction
  · rw [done.code,if_neg spawning]
    by_cases starts : op = .flagRunning true
    · subst starts
      obtain ⟨rfl,closes⟩ := guard
      rw [Function.update_self]
      exact closes rfl
    · obtain ⟨open_,before⟩ := done.marked starts marked
      have inside := threaded.marked before
      cases t with
      | ui => rwa [Function.update_of_ne (by decide)]
      | run =>
        obtain ⟨added,left⟩ := runOnward (s := s) guard
        rw [next,List.mem_cons] at inside
        rw [Function.update_self,left]
        exact List.mem_append_right added (inside.resolve_left (Ne.symm open_))

theorem turnThreaded (threaded : Threaded s) (t : DebugThread) : Threaded (s.turn t) := by
  unfold turn
  split
  · exact threaded
  · rename_i op rest next
    cases wait : s.blocked op with
    | true => rwa [performBlocked wait]
    | false => exact performThreaded threaded next wait

theorem heldIdle (threaded : Threaded s) (idle : s.code t = []) : decide (s.emuMutex = some t) = false := by
  rcases threaded.locking t with disciplined | ⟨_,_,first⟩
  · rwa [idle] at disciplined
  · rw [idle] at first
    contradiction

theorem applyThreaded (threaded : Threaded s) (e : DebugEvent) : Threaded (s.apply e) := by
  cases e with
  | turn t => exact turnThreaded threaded t
  | command c =>
    rw [apply]
    split
    · rename_i idle
      refine ⟨fun u => ?_,fun needs => absurd needs (by simp [goOn,commandWaits]),threaded.marked⟩
      cases u with
      | ui => exact Or.inl ((show decide (s.emuMutex = some .ui) = false from heldIdle threaded idle) ▸ commandDisciplined c)
      | run => exact threaded.locking .run
    · exact threaded

theorem constructThreaded (regs : Registers) (bus : RamBus) : Threaded (construct regs bus) where
  locking _ := Or.inl rfl
  ended needs := by contradiction
  marked running := by
    have kept := (Machine.startRestarts RamBus.device ⟨{regs := regs},bus⟩).running
    exact absurd (show false = true from kept.symm.trans running) Bool.false_ne_true

theorem reachedThreaded (regs : Registers) (bus : RamBus) (events : List DebugEvent) :
    Threaded ((construct regs bus).run events) :=
  Transition.runInvariant apply (constructThreaded regs bus) fun met _ threaded => applyThreaded threaded met.2

theorem runGuard (threaded : Threaded s) (next : s.code .run = op :: rest) :
    Guarded .run (decide (s.emuMutex = some .run)) rest op := by
  rcases threaded.locking .run with disciplined | ⟨ui,_⟩
  · rw [next] at disciplined
    exact disciplined.1
  · contradiction

/- The run thread waits for nothing but the lock, and for that on the UI thread. -/
theorem runWaits (threaded : Threaded s) (next : s.code .run = op :: rest) (wait : s.blocked op = true) :
    s.emuMutex = some .ui := by
  have guard := runGuard threaded next
  cases op with
  | join => exact absurd guard.1 (by decide)
  | awaitStopped => exact absurd guard.1 (by decide)
  | lock =>
    obtain ⟨owner,owned⟩ := Option.isSome_iff_exists.mp wait
    cases owner with
    | ui => exact owned
    | run => simp [Guarded,owned] at guard
  | _ => contradiction

theorem uiWaits (threaded : Threaded s) (next : s.code .ui = op :: rest) (wait : s.blocked op = true) :
    s.emuMutex = some .ui ∧ op = .lock ∨ s.emuMutex = some .run ∧ op = .lock ∨
      op = .join ∧ s.code .run ≠ [] ∧ s.emuMutex ≠ some .ui := by
  cases op with
  | join =>
    refine Or.inr (Or.inr ⟨rfl,by simpa [blocked] using wait,fun owned => ?_⟩)
    rcases threaded.locking .ui with disciplined | ⟨_,_,first⟩
    · rw [next] at disciplined
      simpa [owned] using disciplined.1.2
    · rw [next] at first
      exact absurd (Option.some.inj first) (by decide)
  | awaitStopped =>
    have finished := threaded.ended (by rw [next]; rfl)
    have inside := threaded.marked wait
    rw [finished] at inside
    contradiction
  | lock =>
    obtain ⟨owner,owned⟩ := Option.isSome_iff_exists.mp wait
    cases owner with
    | ui => exact Or.inl ⟨owned,rfl⟩
    | run => exact Or.inr (Or.inl ⟨owned,rfl⟩)
  | _ => contradiction

theorem onwardMoves (op : DebugOp) : s.onward rest op ≠ op :: rest := by
  have shorter : rest ≠ op :: rest := fun same => by simpa using congrArg List.length same
  cases op with
  | guardRunning =>
    rw [onward]
    split
    · simp
    · exact shorter
  | callback =>
    rw [onward]
    split
    · exact shorter
    · simp
  | loopTest =>
    rw [onward]
    split
    · simp
    · exact shorter
  | breakTest =>
    rw [onward]
    split
    · simp
    · exact shorter
  | _ => exact shorter

theorem freeMoves (threaded : Threaded s) (next : s.code t = op :: rest) (free : s.blocked op = false) : s.turn t ≠ s := by
  intro same
  have turned : s.turn t = s.perform t rest op := by rw [turn,next]
  have code := (performed t rest free).code
  rw [← turned,same] at code
  have here := congrFun code t
  rw [next] at here
  by_cases spawning : op = .spawn
  · subst spawning
    obtain ⟨rfl,_⟩ := (guardedMove threaded next free).1
    rw [if_pos rfl,Function.update_of_ne (by decide),Function.update_self] at here
    simpa using congrArg List.length here
  · rw [if_neg spawning,Function.update_self] at here
    exact onwardMoves op here.symm

theorem stillWaits (threaded : Threaded s) (still : s.turn t = s) (next : s.code t = op :: rest) : s.blocked op = true := by
  cases wait : s.blocked op with
  | true => rfl
  | false => exact absurd still (freeMoves threaded next wait)

/- If no turn changes anything, there is nothing left to do or a thread waits for itself. -/
theorem stillIdle (threaded : Threaded s) (still : ∀ t, s.turn t = s) : (∀ t, s.code t = []) ∨ s.Relocks := by
  cases running : s.code .run with
  | nil =>
    cases commanded : s.code .ui with
    | nil =>
      refine Or.inl fun t => ?_
      cases t with
      | ui => exact commanded
      | run => exact running
    | cons op rest =>
      rcases uiWaits threaded commanded (stillWaits threaded (still .ui) commanded) with
        ⟨owned,rfl⟩ | ⟨owned,_⟩ | ⟨_,some,_⟩
      · exact Or.inr ⟨.ui,rest,commanded,owned⟩
      · have unheld := heldIdle threaded running
        simp [owned] at unheld
      · contradiction
  | cons op rest =>
    have owned := runWaits threaded running (stillWaits threaded (still .run) running)
    cases commanded : s.code .ui with
    | nil =>
      have unheld := heldIdle threaded commanded
      simp [owned] at unheld
    | cons op' rest' =>
      rcases uiWaits threaded commanded (stillWaits threaded (still .ui) commanded) with
        ⟨_,rfl⟩ | ⟨other,_⟩ | ⟨_,_,unowned⟩
      · exact Or.inr ⟨.ui,rest',commanded,owned⟩
      · rw [owned] at other
        contradiction
      · exact absurd owned unowned

theorem relocksUi (threaded : Threaded s) (relocks : s.Relocks) :
    s.emuMutex = some .ui ∧ ∃ rest, s.code .ui = .lock :: rest := by
  obtain ⟨t,rest,next,owned⟩ := relocks
  rcases threaded.locking t with disciplined | ⟨rfl,_⟩
  · rw [next] at disciplined
    simp [Disciplined,Guarded,owned] at disciplined
  · exact ⟨owned,rest,next⟩

theorem stuckApply (threaded : Threaded s) (owned : s.emuMutex = some .ui) (next : s.code .ui = .lock :: rest)
    (e : DebugEvent) : (s.apply e).emuMutex = some .ui ∧ (s.apply e).code .ui = .lock :: rest := by
  have stay : s.emuMutex = some .ui ∧ s.code .ui = .lock :: rest := ⟨owned,next⟩
  cases e with
  | command c =>
    rw [apply,if_neg (by simp [next])]
    exact stay
  | turn t =>
    rw [apply,turn]
    split
    · exact stay
    · rename_i op more here
      cases wait : s.blocked op with
      | true => rwa [performBlocked wait]
      | false =>
        cases t with
        | ui =>
          rw [next] at here
          obtain ⟨rfl,_⟩ := List.cons.inj here
          simp [blocked,owned] at wait
        | run =>
          have guard := runGuard threaded here
          have done := performed .run more wait
          have plain : op ≠ .spawn := by
            rintro rfl
            exact absurd guard.1 (by decide)
          refine ⟨(mutexOther done wait guard (by decide)).mpr owned,?_⟩
          rw [done.code,if_neg plain,Function.update_of_ne (by decide),next]

end moves

/-- Whatever the commands and the schedule: the history and the machine are rewritten under the
lock; no thread can go on only when both are done or the UI thread waits for the lock it
holds; and then it waits for ever. -/
theorem deadlockOnlyRelocked (regs : Registers) (bus : RamBus) (events : List DebugEvent) :
    let s := (construct regs bus).run events
    (∀ t op rest, s.code t = op :: rest → op.rewrites = true → s.emuMutex = some t) ∧
    ((∀ t, s.turn t = s) → (∀ t, s.code t = []) ∨ s.Relocks) ∧
    (s.Relocks → s.emuMutex = some .ui ∧ ∀ later, ((s.run later).emuMutex = some .ui ∧
      (s.run later).code .ui = s.code .ui)) := by
  intro s
  have threaded : Threaded s := reachedThreaded regs bus events
  refine ⟨fun t op rest next writes => ?_,stillIdle threaded,fun relocks => ?_⟩
  · rcases threaded.locking t with disciplined | ⟨_,owned,_⟩
    · rw [next] at disciplined
      have guard := disciplined.1
      cases op with
      | insert => simpa [Guarded] using guard
      | refill => simpa [Guarded] using guard.2
      | emuStart => simpa [Guarded] using guard.2
      | _ => contradiction
    · exact owned
  · obtain ⟨owned,rest,next⟩ := relocksUi threaded relocks
    refine ⟨owned,fun later => ?_⟩
    have kept : Threaded (s.run later) ∧ (s.run later).emuMutex = some .ui ∧ (s.run later).code .ui = .lock :: rest :=
      Transition.runInvariant apply (I := fun s' => Threaded s' ∧ s'.emuMutex = some .ui ∧ s'.code .ui = .lock :: rest)
        ⟨threaded,owned,next⟩ fun met _ holds =>
        ⟨applyThreaded holds.1 met.2,stuckApply holds.1 holds.2.1 holds.2.2 met.2⟩
    exact ⟨kept.2.1,kept.2.2.trans next.symm⟩

/- run() finds no run thread left when it sets its flag. -/
def Prompt (s : LinuxDebugger) (e : DebugEvent) : Prop :=
  e = .turn .ui → (s.code .ui).head? = some (.setRunning true) → s.code .run = []

instance (s : LinuxDebugger) (e : DebugEvent) : Decidable (s.Prompt e) := inferInstanceAs (Decidable (_ → _ → _))

/- Past its test of the flag, and yet to touch something. -/
def engaged : List DebugOp → Bool
  | [] => false
  | .guardRunning :: _ | .join :: _ => false
  | op :: rest => op.touches || engaged rest

def Restarting (code : List DebugOp) : Prop := .spawn ∈ code ∧ .setRunning true ∉ code

structure Apart (s : LinuxDebugger) : Prop where
  threaded : Threaded s
  quiet : s.running = false → Winding (s.code .run)
  engaged : engaged (s.code .ui) = true → Winding (s.code .run)
  restarting : Restarting (s.code .ui) → s.running = true ∧ s.code .run = []

section moves
variable {s : LinuxDebugger} {op : DebugOp} {rest : List DebugOp} {held : Bool}

theorem engagedOnward (guard : Guarded .ui held rest op) (other : op ≠ .guardRunning ∧ op ≠ .join)
    (some : engaged (s.onward rest op) = true) : engaged (op :: rest) = true := by
  rcases uiOnward (s := s) guard with same | ⟨guarding,_⟩ | ⟨rfl,_⟩
  · rw [same] at some
    cases op with
    | guardRunning => exact absurd rfl other.1
    | join => exact absurd rfl other.2
    | _ => exact (Bool.or_eq_true _ _).mpr (Or.inr some)
  · exact absurd guarding other.1
  · rfl

theorem restartingOnward (guard : Guarded .ui held rest op) (other : op ≠ .setRunning true)
    (restarts : Restarting (s.onward rest op)) : Restarting (op :: rest) := by
  have behind (spawns : .spawn ∈ rest) (unset : .setRunning true ∉ rest) : Restarting (op :: rest) :=
    ⟨List.mem_cons_of_mem op spawns,fun member => (List.mem_cons.mp member).elim (fun same => other same.symm) unset⟩
  obtain ⟨spawns,unset⟩ := restarts
  rcases uiOnward (s := s) guard with same | ⟨_,gone⟩ | ⟨rfl,more⟩
  · rw [same] at spawns unset
    exact behind spawns unset
  · rw [gone] at spawns
    exact absurd spawns List.not_mem_nil
  · rw [more] at spawns unset
    simp only [List.mem_cons,reduceCtorEq,false_or] at spawns unset
    exact behind spawns unset

theorem windingOnward (winding : Winding (op :: rest)) : Winding (s.onward rest op) := by
  obtain ⟨flag,left⟩ := windingNext winding
  cases op with
  | setRunning v => exact left
  | flagRunning v => exact left
  | flagStopping v => exact left
  | _ => contradiction

theorem uiApart (apart : Apart s) (prompt : s.Prompt (.turn .ui)) (next : s.code .ui = op :: rest)
    (free : s.blocked op = false) : Apart (s.perform .ui rest op) := by
  have threaded := performThreaded apart.threaded next free
  have done := performed .ui rest free
  obtain ⟨guard,_⟩ := guardedMove apart.threaded next free
  by_cases spawning : op = .spawn
  · subst spawning
    obtain ⟨_,_,rfl⟩ := guard
    have started := (apart.restarting (by rw [next]; simp [Restarting])).1
    refine ⟨threaded,fun ended => ?_,fun some => by contradiction,fun restarts => ?_⟩
    · rw [done.running] at ended
      simp [started] at ended
    · exact absurd restarts.1 List.not_mem_nil
  have code : (s.perform .ui rest op).code = Function.update s.code .ui (s.onward rest op) := by
    rw [done.code,if_neg spawning]
  have left : (s.perform .ui rest op).code .run = s.code .run := by
    rw [code,Function.update_of_ne (by decide)]
  have mine : (s.perform .ui rest op).code .ui = s.onward rest op := by
    rw [code,Function.update_self]
  refine ⟨threaded,?_,?_,?_⟩
  · rw [left,done.running]
    intro ended
    split_ifs at ended with starts stops
    · have finished : s.code .run = [] := apart.threaded.ended (by rw [next,stops]; rfl)
      rw [finished]
      exact fun other member => absurd member List.not_mem_nil
    · exact apart.quiet ended
  · rw [left,mine]
    intro some
    by_cases guarding : op = .guardRunning
    · subst guarding
      rw [onward] at some
      split at some
      · contradiction
      · rename_i ended
        exact apart.quiet (Bool.eq_false_iff.mpr ended)
    · by_cases joins : op = .join
      · subst joins
        have finished : s.code .run = [] := by simpa [blocked] using free
        rw [finished]
        exact fun other member => absurd member List.not_mem_nil
      · exact apart.engaged (by rw [next]; exact engagedOnward guard ⟨guarding,joins⟩ some)
  · rw [left,mine,done.running]
    intro restarts
    by_cases starts : op = .setRunning true
    · rw [if_pos starts]
      exact ⟨rfl,prompt rfl (by rw [next,starts]; rfl)⟩
    · have before := apart.restarting (by rw [next]; exact restartingOnward guard starts restarts)
      have stops : op ≠ .setRunning false := by
        rintro rfl
        exact guard.1 rfl restarts.1
      rwa [if_neg starts,if_neg stops]

theorem runApart (apart : Apart s) (next : s.code .run = op :: rest) (free : s.blocked op = false) :
    Apart (s.perform .run rest op) := by
  have threaded := performThreaded apart.threaded next free
  have done := performed .run rest free
  have guard := runGuard apart.threaded next
  have plain : op ≠ .spawn := by
    rintro rfl
    exact absurd guard.1 (by decide)
  have code : (s.perform .run rest op).code = Function.update s.code .run (s.onward rest op) := by
    rw [done.code,if_neg plain]
  have left : (s.perform .run rest op).code .run = s.onward rest op := by
    rw [code,Function.update_self]
  have others : (s.perform .run rest op).code .ui = s.code .ui := by
    rw [code,Function.update_of_ne (by decide)]
  refine ⟨threaded,?_,?_,?_⟩
  · rw [left,done.running]
    intro ended
    split_ifs at ended with starts stops
    · subst stops
      exact (guard.2 rfl).2
    · exact windingOnward (next ▸ apart.quiet ended)
  · rw [left,others]
    intro some
    exact windingOnward (next ▸ apart.engaged some)
  · rw [others]
    intro restarts
    have finished := (apart.restarting restarts).2
    rw [next] at finished
    contradiction

theorem applyApart (apart : Apart s) {e : DebugEvent} (prompt : s.Prompt e) : Apart (s.apply e) := by
  cases e with
  | command c =>
    have threaded := applyThreaded apart.threaded (.command c)
    rw [apply] at threaded ⊢
    split at threaded <;> rename_i idle
    · rw [if_pos idle]
      refine ⟨threaded,apart.quiet,fun some => ?_,fun restarts => ?_⟩
      · cases c <;> contradiction
      · cases c <;> simp [goOn,Restarting,DebugCommand.code,pauseCode] at restarts
    · rw [if_neg idle]
      exact apart
  | turn t =>
    rw [apply,turn]
    split
    · exact apart
    · rename_i op rest next
      cases wait : s.blocked op with
      | true => rwa [performBlocked wait]
      | false =>
        cases t with
        | ui => exact uiApart apart prompt next wait
        | run => exact runApart apart next wait

end moves

theorem constructApart (regs : Registers) (bus : RamBus) : Apart (construct regs bus) where
  threaded := constructThreaded regs bus
  quiet _ := fun other member => absurd member List.not_mem_nil
  engaged some := by contradiction
  restarting restarts := absurd restarts.1 List.not_mem_nil

/-- As long as run() never sets its flag before the last run thread is over: where the UI thread is
about to touch the machine or the history, the run thread has only its flags left to store. -/
theorem oneAtATime (regs : Registers) (bus : RamBus) (events : List DebugEvent)
    (prompt : ∀ met ∈ (construct regs bus).history events, met.1.Prompt met.2) :
    let s := (construct regs bus).run events
    ∀ op, (s.code .ui).head? = some op → op.touches = true → ∀ other ∈ s.code .run, other.flagOnly = true := by
  intro s op first touching
  have apart : Apart s := Transition.runInvariant apply (constructApart regs bus) fun met member holds =>
    applyApart holds (prompt met member)
  refine apart.engaged ?_
  cases next : s.code .ui with
  | nil =>
    rw [next] at first
    contradiction
  | cons head rest =>
    rw [next] at first
    obtain rfl := Option.some.inj first
    cases head with
    | guardRunning => contradiction
    | join => contradiction
    | _ => exact (Bool.or_eq_true _ _).mpr (Or.inl touching)

/- A run over one NOP to a breakpoint behind it, up to the store of its callback. -/
def toBreakpoint : List DebugEvent :=
  .command (.addBreakpoint 0x0401) :: .turn .ui :: .command .run :: (List.replicate 4 (.turn .ui) ++ List.replicate 10 (.turn .run))

def thenStep : List DebugEvent := toBreakpoint ++ [.command .step,.turn .ui,.turn .ui]

theorem breakpointStepped :
    (((construct Host.resetRegs (opcodeBus 0xea)).run thenStep).code .ui).head? = some .cpuStep ∧
      ∀ other ∈ ((construct Host.resetRegs (opcodeBus 0xea)).run thenStep).code .run, other.flagOnly = true := by
  have first : (((construct Host.resetRegs (opcodeBus 0xea)).run thenStep).code .ui).head? = some .cpuStep := by decide
  have prompt : ∀ met ∈ (construct Host.resetRegs (opcodeBus 0xea)).history thenStep, met.1.Prompt met.2 := by decide
  exact ⟨first,oneAtATime _ _ _ prompt _ first rfl⟩

/- Or run() again there: its flag is set before the first run's last store clears it, the second
run goes on with the flag clear, and a step() finds it so. -/
def restarted : List DebugEvent :=
  toBreakpoint ++ .command .run :: (List.replicate 2 (.turn .ui) ++ List.replicate 3 (.turn .run) ++
    List.replicate 2 (.turn .ui) ++ List.replicate 2 (.turn .run) ++ [.command .step,.turn .ui,.turn .ui])

example :
    let s := (construct Host.resetRegs (opcodeBus 0xea)).run restarted
    (s.code .ui).head? = some .cpuStep ∧ (s.code .run).head? = some .cpuStep := by
  decide

end LinuxDebugger
end Emu6502
