import Emu6502.Lib.Locality

/-! A store whose addresses fold onto fewer cells, beside one with a cell an address. A program
cannot tell them apart as long as no two of the addresses it uses share a cell. -/
namespace Emu6502.Interaction
variable {A K V σ τ α : Type} [DecidableEq A] [DecidableEq K]

structure Device.Folds (d : Device A V σ) (inv : σ → Prop) (cell : A → K) (content : σ → K → V) : Prop where
  read : ∀ s a, inv s → d.read s a = (content s (cell a),s)
  kept : ∀ s a v, inv s → inv (d.write s a v)
  write : ∀ s a v k, inv s → content (d.write s a v) k = if k = cell a then v else content s k

/- No two addresses of the log in one cell. -/
def Apart (cell : A → K) (log : List (Access A V)) : Prop :=
  ∀ x ∈ log, ∀ y ∈ log, cell x.address = cell y.address → x.address = y.address

instance (cell : A → K) (log : List (Access A V)) : Decidable (Apart cell log) :=
  inferInstanceAs (Decidable (∀ x ∈ log, ∀ y ∈ log, cell x.address = cell y.address → x.address = y.address))

omit [DecidableEq A] [DecidableEq K] in
theorem apartTail {cell : A → K} {access : Access A V} {log : List (Access A V)} (apart : Apart cell (access :: log)) :
    Apart cell log :=
  fun x here y there => apart x (List.mem_cons_of_mem _ here) y (List.mem_cons_of_mem _ there)

theorem asksMember {a : A} {log : List (Access A V)} (asked : asks a log = true) : ∃ access ∈ log, access.address = a := by
  induction log with
  | nil => contradiction
  | cons access log ih =>
    cases access with
    | read b v =>
      rw [asksRead,Bool.or_eq_true,decide_eq_true_iff] at asked
      rcases asked with here | later
      · exact ⟨_,List.mem_cons_self,here⟩
      · obtain ⟨other,member,address⟩ := ih later
        exact ⟨other,List.mem_cons_of_mem _ member,address⟩
    | write b v =>
      rw [asksWrite,Bool.and_eq_true] at asked
      obtain ⟨other,member,address⟩ := ih asked.2
      exact ⟨other,List.mem_cons_of_mem _ member,address⟩

theorem writesMember {a : A} {log : List (Access A V)} :
    writes a log = true ↔ ∃ access ∈ log, access.isRead = false ∧ access.address = a := by
  induction log with
  | nil => simp
  | cons access log ih => cases access <;> simp [ih,Access.isRead,Access.address]

namespace Program
variable {d : Device A V σ} {e : Device A V τ} {content : σ → A → V} {inv : τ → Prop} {cell : A → K}
  {cells : τ → K → V}

omit [DecidableEq A] in
theorem foldedKept (folds : e.Folds inv cell cells) (p : Program A V α) {t : τ} (holds : inv t) :
    inv (run e p t).state := by
  induction p generalizing t with
  | done a => exact holds
  | read a next ih =>
    simp only [runRead,folds.read t a holds]
    exact ih _ holds
  | write a v next ih => exact ih (folds.kept t a v holds)

/- A cell no write goes to. -/
theorem foldedFrame (folds : e.Folds inv cell cells) (p : Program A V α) {t : τ} (holds : inv t) {k : K}
    (unwritten : ∀ a, writes a (run e p t).log = true → cell a ≠ k) : cells (run e p t).state k = cells t k := by
  induction p generalizing t with
  | done a => rfl
  | read a next ih =>
    simp only [runRead,folds.read t a holds,writesRead] at unwritten ⊢
    exact ih _ holds unwritten
  | write a v next ih =>
    simp only [runWrite,writesWrite] at unwritten ⊢
    have other : k ≠ cell a := fun same => unwritten a (by simp) same.symm
    rw [ih (folds.kept t a v holds) fun b written => unwritten b (by simp [written]),folds.write t a v k holds,
      if_neg other]

theorem runFolded (store : d.IsStore content) (folds : e.Folds inv cell cells) (p : Program A V α) {s : σ} {t : τ}
    (holds : inv t) (apart : Apart cell (run d p s).log)
    (agree : ∀ a, asks a (run d p s).log = true → cells t (cell a) = content s a) :
    (run e p t).result = (run d p s).result ∧ (run e p t).log = (run d p s).log ∧
      ∀ a, writes a (run d p s).log = true → cells (run e p t).state (cell a) = content (run d p s).state a := by
  induction p generalizing s t with
  | done a => exact ⟨rfl,rfl,fun a written => by contradiction⟩
  | read a next ih =>
    have same : cells t (cell a) = content s a := by
      refine agree a ?_
      simp only [runRead,store.read,asksRead,decide_true,Bool.true_or]
    simp only [runRead,store.read,folds.read t a holds,same] at apart agree ⊢
    obtain ⟨result,log,written⟩ := ih _ holds (apartTail apart) fun b asked => agree b (by simp [asked])
    exact ⟨result,congrArg (List.cons _) log,written⟩
  | write a v next ih =>
    have holds' := folds.kept t a v holds
    have before := apart
    simp only [runWrite] at apart agree ⊢
    have later : ∀ b, asks b (run d next (d.write s a v)).log = true →
        cells (e.write t a v) (cell b) = content (d.write s a v) b := by
      intro b asked
      rw [folds.write t a v _ holds,store.write]
      by_cases here : b = a
      · rw [if_pos here,if_pos (congrArg cell here)]
      · obtain ⟨access,member,address⟩ := asksMember asked
        have other : cell b ≠ cell a := fun shared =>
          here (address ▸ apart access (List.mem_cons_of_mem _ member) _ List.mem_cons_self (address ▸ shared))
        rw [if_neg here,if_neg other]
        exact agree b (by simp [Ne.symm here,asked])
    obtain ⟨result,log,written⟩ := ih holds' (apartTail apart) later
    refine ⟨result,congrArg (List.cons _) log,fun b wrote => ?_⟩
    cases again : writes b (run d next (d.write s a v)).log with
    | true => exact written b again
    | false =>
      obtain rfl : a = b := by simpa [again] using wrote
      rw [runFrame store next _ again,store.write,if_pos rfl,foldedFrame folds next holds' ?_,folds.write t a v _ holds,
        if_pos rfl]
      intro c wrote shared
      rw [log] at wrote
      obtain ⟨access,member,_,address⟩ := writesMember.mp wrote
      have same : access.address = a :=
        apart access (List.mem_cons_of_mem _ member) _ List.mem_cons_self (address ▸ shared)
      rw [← address,same,again] at wrote
      contradiction

end Program
end Emu6502.Interaction
