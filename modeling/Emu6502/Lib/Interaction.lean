/-! Programs that read and write an addressed environment, as trees: a read
branches on whatever the environment answers. A property of every path through
the tree therefore holds on every device, stateful or not, that can be attached. -/
namespace Emu6502.Interaction

inductive Access (A V : Type) where
  | read (address : A) (value : V)
  | write (address : A) (value : V)
  deriving DecidableEq, Repr

def Access.address {A V : Type} : Access A V → A
  | .read a _ => a
  | .write a _ => a

def Access.value {A V : Type} : Access A V → V
  | .read _ v => v
  | .write _ v => v

def Access.isRead {A V : Type} : Access A V → Bool
  | .read _ _ => true
  | .write _ _ => false

theorem readsThen {A V : Type} {reads : List (Access A V)} (readOnly : ∀ access ∈ reads, access.isRead = true)
    (a : A) (v : V) : ∀ access ∈ reads ++ [.read a v], access.isRead = true :=
  List.forall_mem_append.mpr ⟨readOnly,List.forall_mem_singleton.mpr rfl⟩

inductive Program (A V : Type) (α : Type) where
  | done (result : α)
  | read (address : A) (next : V → Program A V α)
  | write (address : A) (value : V) (next : Program A V α)

structure Device (A V σ : Type) where
  read : σ → A → V × σ
  write : σ → A → V → σ

structure Outcome (A V σ α : Type) where
  result : α
  state : σ
  log : List (Access A V)

namespace Program
variable {A V σ α β γ δ : Type}

def bind : Program A V α → (α → Program A V β) → Program A V β
  | .done a, f => f a
  | .read a next, f => .read a (fun v => bind (next v) f)
  | .write a v next, f => .write a v (bind next f)

instance : Monad (Program A V) where
  pure := .done
  bind := bind

@[simp] theorem pureDone (a : α) : (pure a : Program A V α) = .done a := rfl

@[simp] theorem doneBind (a : α) (f : α → Program A V β) : (Program.done a >>= f) = f a := rfl

@[simp] theorem readBind (a : A) (next : V → Program A V α) (f : α → Program A V β) :
    (Program.read a next >>= f) = .read a (fun v => next v >>= f) := rfl

@[simp] theorem writeBind (a : A) (v : V) (next : Program A V α) (f : α → Program A V β) :
    (Program.write a v next >>= f) = .write a v (next >>= f) := rfl

theorem bindDone (p : Program A V α) : p >>= Program.done = p := by
  induction p with
  | done a => rfl
  | read a next ih => simp only [readBind,ih]
  | write a v next ih => simp only [writeBind,ih]

theorem bindAssoc (p : Program A V α) (f : α → Program A V β) (g : β → Program A V γ) :
    (p >>= f) >>= g = p >>= fun a => f a >>= g := by
  induction p with
  | done a => rfl
  | read a next ih => simp only [readBind,ih]
  | write a v next ih => simp only [writeBind,ih]

instance : LawfulMonad (Program A V) :=
  LawfulMonad.mk' _ bindDone (fun _ _ => rfl) bindAssoc

@[simp] theorem mapDone (f : α → β) (a : α) : f <$> (Program.done a : Program A V α) = .done (f a) := rfl

@[simp] theorem mapRead (f : α → β) (a : A) (next : V → Program A V α) :
    f <$> Program.read a next = .read a (fun v => f <$> next v) := rfl

@[simp] theorem mapWrite (f : α → β) (a : A) (v : V) (next : Program A V α) :
    f <$> Program.write a v next = .write a v (f <$> next) := rfl

/-! Running a program on a device, keeping the accesses it made, oldest first. -/

def run (d : Device A V σ) : Program A V α → σ → Outcome A V σ α
  | .done a, s => ⟨a,s,[]⟩
  | .read a next, s =>
      let answer := d.read s a
      let rest := run d (next answer.1) answer.2
      {rest with log := .read a answer.1 :: rest.log}
  | .write a v next, s =>
      let rest := run d next (d.write s a v)
      {rest with log := .write a v :: rest.log}

@[simp] theorem runDone (d : Device A V σ) (a : α) (s : σ) :
    run d (.done a : Program A V α) s = ⟨a,s,[]⟩ := rfl

@[simp] theorem runRead (d : Device A V σ) (a : A) (next : V → Program A V α) (s : σ) :
    run d (.read a next) s =
      let answer := d.read s a
      let rest := run d (next answer.1) answer.2
      {rest with log := .read a answer.1 :: rest.log} := rfl

@[simp] theorem runWrite (d : Device A V σ) (a : A) (v : V) (next : Program A V α) (s : σ) :
    run d (.write a v next) s =
      let rest := run d next (d.write s a v)
      {rest with log := .write a v :: rest.log} := rfl

theorem runBind (d : Device A V σ) (p : Program A V α) (f : α → Program A V β) (s : σ) :
    run d (p >>= f) s =
      let first := run d p s
      let second := run d (f first.result) first.state
      {second with log := first.log ++ second.log} := by
  induction p generalizing s with
  | done a => rfl
  | read a next ih => simp [ih]
  | write a v next ih => simp [ih]

/-! What holds on every path, whatever the environment answers. -/

def Every : Program A V α → (List (Access A V) → α → Prop) → Prop
  | .done a, Q => Q [] a
  | .read a next, Q => ∀ v, Every (next v) (fun log r => Q (.read a v :: log) r)
  | .write a v next, Q => Every next (fun log r => Q (.write a v :: log) r)

@[simp] theorem everyDone (a : α) (Q : List (Access A V) → α → Prop) :
    Every (.done a) Q ↔ Q [] a := Iff.rfl

@[simp] theorem everyRead (a : A) (next : V → Program A V α) (Q : List (Access A V) → α → Prop) :
    Every (.read a next) Q ↔ ∀ v, Every (next v) (fun log r => Q (.read a v :: log) r) := Iff.rfl

@[simp] theorem everyWrite (a : A) (v : V) (next : Program A V α)
    (Q : List (Access A V) → α → Prop) :
    Every (.write a v next) Q ↔ Every next (fun log r => Q (.write a v :: log) r) := Iff.rfl

theorem everyMono {p : Program A V α} {P Q : List (Access A V) → α → Prop} (h : Every p P)
    (weaker : ∀ log r, P log r → Q log r) : Every p Q := by
  induction p generalizing P Q with
  | done a => exact weaker _ _ h
  | read a next ih => exact fun v => ih v (h v) (fun log r => weaker _ r)
  | write a v next ih => exact ih h (fun log r => weaker _ r)

theorem everyBind {p : Program A V α} {f : α → Program A V β}
    {Q : List (Access A V) → β → Prop} :
    Every (p >>= f) Q ↔ Every p (fun log a => Every (f a) (fun rest b => Q (log ++ rest) b)) := by
  induction p generalizing Q with
  | done a => rfl
  | read a next ih => exact forall_congr' fun v => ih v
  | write a v next ih => exact ih

theorem everyOf {p : Program A V α} {Q : List (Access A V) → α → Prop} (h : ∀ log r, Q log r) : Every p Q := by
  induction p generalizing Q with
  | done a => exact h _ _
  | read a next ih => exact fun v => ih v fun log r => h _ r
  | write a v next ih => exact ih fun log r => h _ r

def Path (p : Program A V α) (log : List (Access A V)) (r : α) : Prop := ∀ Q, Every p Q → Q log r

theorem everyPath (p : Program A V α) : Every p p.Path := by
  induction p with
  | done a => exact fun _ h => h
  | read a next ih =>
    intro v
    exact everyMono (ih v) fun log r path Q h => path _ (h v)
  | write a v next ih =>
    rw [everyWrite]
    exact everyMono ih fun log r path Q h => path _ h

theorem everyRun {p : Program A V α} {Q : List (Access A V) → α → Prop} (h : Every p Q)
    (d : Device A V σ) (s : σ) : Q (run d p s).log (run d p s).result := by
  induction p generalizing Q s with
  | done a => exact h
  | read a next ih => exact ih _ (h _) _
  | write a v next ih => exact ih h _

/- What reads keep of the environment, and every write the run made. -/
theorem runKeeps {I : σ → Prop} {d : Device A V σ} (reads : ∀ s a, I s → I (d.read s a).2) {p : Program A V α}
    {s : σ} (initial : I s) (writes : ∀ a v, Access.write a v ∈ (run d p s).log → ∀ s, I s → I (d.write s a v)) :
    I (run d p s).state := by
  induction p generalizing s with
  | done a => exact initial
  | read a next ih =>
    refine ih _ (reads s a initial) fun b v later => ?_
    exact writes b v (List.mem_cons_of_mem _ later)
  | write a v next ih =>
    refine ih (writes a v List.mem_cons_self s initial) fun b w later => ?_
    exact writes b w (List.mem_cons_of_mem _ later)

/- Until the first write, an environment that reads leave alone answers as it stood. -/
theorem runAnswers {d : Device A V σ} {content : A → V} {s : σ} (still : ∀ a, d.read s a = (content a,s))
    {p : Program A V α} {reads rest : List (Access A V)} (split : (run d p s).log = reads ++ rest)
    (readOnly : ∀ access ∈ reads, access.isRead = true) : ∀ access ∈ reads, access.value = content access.address := by
  induction p generalizing reads with
  | done a =>
    have none : reads = [] := (List.append_eq_nil_iff.mp split.symm).1
    simp [none]
  | read a next ih =>
    cases reads with
    | nil => simp
    | cons first reads =>
      rw [runRead,still] at split
      obtain ⟨same,later⟩ := List.cons.inj split
      subst same
      exact List.forall_mem_cons.mpr ⟨rfl,ih _ later (List.forall_mem_cons.mp readOnly).2⟩
  | write a v next ih =>
    cases reads with
    | nil => simp
    | cons first reads =>
      obtain ⟨same,_⟩ := List.cons.inj split
      subst same
      exact absurd (List.forall_mem_cons.mp readOnly).1 Bool.false_ne_true

/- What a log's writes make of the contents before them. -/
def remember [DecidableEq A] (content : A → V) : List (Access A V) → A → V
  | [] => content
  | .read _ _ :: log => remember content log
  | .write a v :: log => remember (fun b => if b = a then v else content b) log

theorem rememberReads [DecidableEq A] (content : A → V) {reads : List (Access A V)}
    (readOnly : ∀ access ∈ reads, access.isRead = true) (rest : List (Access A V)) :
    remember content (reads ++ rest) = remember content rest := by
  induction reads with
  | nil => rfl
  | cons access reads ih =>
    obtain ⟨first,later⟩ := List.forall_mem_cons.mp readOnly
    cases access with
    | read a v => exact ih later
    | write a v => exact absurd first Bool.false_ne_true

/- An environment that is its contents is left as its writes left them. -/
theorem runRemembers [DecidableEq A] {d : Device A V σ} (content : σ → A → V)
    (reads : ∀ s a, content (d.read s a).2 = content s)
    (writes : ∀ s a v, content (d.write s a v) = fun b => if b = a then v else content s b) (p : Program A V α) (s : σ) :
    content (run d p s).state = remember (content s) (run d p s).log := by
  induction p generalizing s with
  | done a => rfl
  | read a next ih => exact (ih _ _).trans (congrArg (remember · _) (reads s a))
  | write a v next ih => exact (ih _).trans (congrArg (remember · _) (writes s a v))

/-! Two programs that ask the same and, on the same answers, end in related results. -/

def Related (R : α → β → Prop) : Program A V α → Program A V β → Prop
  | .done a, .done b => R a b
  | .read a next, .read b other => a = b ∧ ∀ v, Related R (next v) (other v)
  | .write a v next, .write b w other => a = b ∧ v = w ∧ Related R next other
  | _, _ => False

@[simp] theorem relatedDone {R : α → β → Prop} (a : α) (b : β) :
    Related R (.done a : Program A V α) (.done b) ↔ R a b := Iff.rfl

theorem relatedRead {R : α → β → Prop} (a : A) {next : V → Program A V α} {other : V → Program A V β}
    (h : ∀ v, Related R (next v) (other v)) : Related R (.read a next) (.read a other) := ⟨rfl,h⟩

theorem relatedWrite {R : α → β → Prop} (a : A) (v : V) {next : Program A V α} {other : Program A V β}
    (h : Related R next other) : Related R (.write a v next) (.write a v other) := ⟨rfl,rfl,h⟩

theorem relatedSame (p : Program A V α) : Related Eq p p := by
  induction p with
  | done a => rfl
  | read a next ih => exact ⟨rfl,ih⟩
  | write a v next ih => exact ⟨rfl,rfl,ih⟩

theorem relatedBind {R : α → β → Prop} {S : γ → δ → Prop} {p : Program A V α} {q : Program A V β}
    {f : α → Program A V γ} {g : β → Program A V δ} (first : Related R p q)
    (second : ∀ a b, R a b → Related S (f a) (g b)) : Related S (p >>= f) (q >>= g) := by
  induction p generalizing q with
  | done a =>
    cases q with
    | done b => exact second a b first
    | read b other => exact first.elim
    | write b w other => exact first.elim
  | read a next ih =>
    cases q with
    | done b => exact first.elim
    | read b other => exact ⟨first.1,fun v => ih v (first.2 v)⟩
    | write b w other => exact first.elim
  | write a v next ih =>
    cases q with
    | done b => exact first.elim
    | read b other => exact first.elim
    | write b w other => exact ⟨first.1,first.2.1,ih first.2.2⟩

/- Two programs that begin alike. -/
theorem relatedAfter {S : γ → δ → Prop} (p : Program A V α) {f : α → Program A V γ} {g : α → Program A V δ}
    (rest : ∀ a, Related S (f a) (g a)) : Related S (p >>= f) (p >>= g) :=
  relatedBind (relatedSame p) fun a _ same => same ▸ rest a

theorem relatedRun {R : α → β → Prop} {p : Program A V α} {q : Program A V β} (h : Related R p q)
    (d : Device A V σ) (s : σ) :
    (run d p s).log = (run d q s).log ∧ (run d p s).state = (run d q s).state ∧
      R (run d p s).result (run d q s).result := by
  induction p generalizing q s with
  | done a =>
    cases q with
    | done b => exact ⟨rfl,rfl,h⟩
    | read b other => exact h.elim
    | write b w other => exact h.elim
  | read a next ih =>
    cases q with
    | done b => exact h.elim
    | read b other =>
      obtain ⟨rfl,same⟩ := h
      obtain ⟨log,state,result⟩ := ih _ (same _) (d.read s a).2
      exact ⟨congrArg (List.cons _) log,state,result⟩
    | write b w other => exact h.elim
  | write a v next ih =>
    cases q with
    | done b => exact h.elim
    | read b other => exact h.elim
    | write b w other =>
      obtain ⟨rfl,rfl,same⟩ := h
      obtain ⟨log,state,result⟩ := ih same (d.write s a v)
      exact ⟨congrArg (List.cons _) log,state,result⟩

end Program
end Emu6502.Interaction
