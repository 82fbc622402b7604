import Emu6502.Lib.Interaction

/-! What a program owes to the contents of its environment. A store answers a read with what
the address holds. Of what it held at the start only those bytes show that are read ahead of
any write to them; a run over many events is one program, so it owes no more. -/
namespace Emu6502.Interaction
variable {A V σ α C E : Type} [DecidableEq A]

structure Device.IsStore (d : Device A V σ) (content : σ → A → V) : Prop where
  read : ∀ s a, d.read s a = (content s a,s)
  write : ∀ s a v b, content (d.write s a v) b = if b = a then v else content s b

/- The first access to the address is a read. -/
def asks (a : A) : List (Access A V) → Bool
  | [] => false
  | .read b _ :: log => decide (b = a) || asks a log
  | .write b _ :: log => !decide (b = a) && asks a log

def writes (a : A) : List (Access A V) → Bool
  | [] => false
  | .read _ _ :: log => writes a log
  | .write b _ :: log => decide (b = a) || writes a log

@[simp] theorem asksNil (a : A) : asks a ([] : List (Access A V)) = false := rfl
@[simp] theorem asksRead (a b : A) (v : V) (log : List (Access A V)) :
    asks a (.read b v :: log) = (decide (b = a) || asks a log) := rfl
@[simp] theorem asksWrite (a b : A) (v : V) (log : List (Access A V)) :
    asks a (.write b v :: log) = (!decide (b = a) && asks a log) := rfl
@[simp] theorem writesNil (a : A) : writes a ([] : List (Access A V)) = false := rfl
@[simp] theorem writesRead (a b : A) (v : V) (log : List (Access A V)) :
    writes a (.read b v :: log) = writes a log := rfl
@[simp] theorem writesWrite (a b : A) (v : V) (log : List (Access A V)) :
    writes a (.write b v :: log) = (decide (b = a) || writes a log) := rfl

theorem asksAppend (a : A) (first last : List (Access A V)) :
    asks a (first ++ last) = (asks a first || (!writes a first && asks a last)) := by
  induction first with
  | nil => simp
  | cons access first ih =>
    cases access with
    | read b v =>
      simp only [List.cons_append,asksRead,writesRead,ih,Bool.or_assoc]
    | write b v =>
      simp only [List.cons_append,asksWrite,writesWrite,ih]
      cases decide (b = a) <;> simp

namespace Program

theorem rememberUnwritten {a : A} (content : A → V) {log : List (Access A V)} (unwritten : writes a log = false) :
    remember content log a = content a := by
  induction log generalizing content with
  | nil => rfl
  | cons access log ih =>
    cases access with
    | read b v => exact ih content unwritten
    | write b v =>
      obtain ⟨other,later⟩ := Bool.or_eq_false_iff.mp unwritten
      have apart : a ≠ b := fun same => by simp [same] at other
      exact (ih _ later).trans (if_neg apart)

theorem rememberWritten {a : A} {content other : A → V} {log : List (Access A V)}
    (same : content a = other a ∨ writes a log = true) : remember content log a = remember other log a := by
  induction log generalizing content other with
  | nil => simpa [remember] using same
  | cons access log ih =>
    cases access with
    | read b v => exact ih same
    | write b v =>
      refine ih ?_
      by_cases here : a = b
      · exact .inl (by simp [here])
      · refine same.imp (fun same => by simpa [here] using same) fun written => ?_
        simpa [Ne.symm here] using written

theorem rememberCell (a : A) (content other : A → V) (log : List (Access A V)) :
    remember content log a = if writes a log then remember other log a else content a := by
  cases written : writes a log with
  | true => exact rememberWritten (.inr written)
  | false => exact rememberUnwritten content written

variable {d : Device A V σ} {content : σ → A → V}

theorem runStored (store : d.IsStore content) (p : Program A V α) (s : σ) :
    content (run d p s).state = remember (content s) (run d p s).log := by
  refine runRemembers content (fun s a => ?_) (fun s a v => funext (store.write s a v)) p s
  rw [store.read]

theorem runFrame (store : d.IsStore content) (p : Program A V α) (s : σ) {a : A}
    (unwritten : writes a (run d p s).log = false) : content (run d p s).state a = content s a := by
  rw [runStored store,rememberUnwritten _ unwritten]

/- Two stores that differ only in bytes the run does not ask for. -/
theorem runLocal (store : d.IsStore content) (p : Program A V α) {s t : σ}
    (apart : ∀ a, content t a ≠ content s a → asks a (run d p s).log = false) :
    (run d p t).result = (run d p s).result ∧ (run d p t).log = (run d p s).log := by
  induction p generalizing s t with
  | done a => exact ⟨rfl,rfl⟩
  | read a next ih =>
    simp only [runRead,store.read] at apart ⊢
    have same : content t a = content s a := Classical.byContradiction fun differs => by
      simpa using apart a differs
    rw [same]
    have later : ∀ b, content t b ≠ content s b → asks b (run d (next (content s a)) s).log = false := by
      intro b differs
      exact (Bool.or_eq_false_iff.mp (apart b differs)).2
    obtain ⟨result,log⟩ := ih _ later
    exact ⟨result,congrArg (List.cons _) log⟩
  | write a v next ih =>
    simp only [runWrite] at apart ⊢
    have later : ∀ b, content (d.write t a v) b ≠ content (d.write s a v) b →
        asks b (run d next (d.write s a v)).log = false := by
      intro b differs
      rw [store.write,store.write] at differs
      by_cases here : b = a
      · simp [here] at differs
      · simp only [if_neg here] at differs
        simpa [Ne.symm here] using apart b differs
    obtain ⟨result,log⟩ := ih later
    exact ⟨result,congrArg (List.cons _) log⟩

theorem runLocalState (store : d.IsStore content) (p : Program A V α) {s t : σ}
    (log : (run d p t).log = (run d p s).log) (a : A) :
    content (run d p t).state a =
      if writes a (run d p s).log then content (run d p s).state a else content t a := by
  rw [runStored store,runStored store,log]
  exact rememberCell a _ _ _

def session (react : C → E → Program A V C) (c : C) (events : List E) : Program A V C := events.foldlM react c

omit [DecidableEq A]

theorem sessionCons (react : C → E → Program A V C) (c : C) (e : E) (events : List E) :
    session react c (e :: events) = react c e >>= fun c => session react c events := List.foldlM_cons

end Program
end Emu6502.Interaction
