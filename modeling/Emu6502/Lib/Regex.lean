import Mathlib.Logic.Function.Basic
import Mathlib.Tactic.SplitIfs

/-! ECMAScript regular expressions over any alphabet: the backtracking matcher in
continuation style, what a match can consume, and which of its matches comes first.
Groups are numbered by hand; there are no back references, lookaheads or lazy quantifiers. -/
namespace Emu6502

inductive Regex (α : Type) where
  | set (member : α → Bool)
  | seq (first rest : Regex α)
  | alt (left right : Regex α)
  | star (body : Regex α)
  | opt (body : Regex α)
  | group (number : Nat) (body : Regex α)
  | bol
  | eol

namespace Regex
variable {α β : Type}

def plus (body : Regex α) : Regex α := .seq body (.star body)

def groups : Regex α → List Nat
  | .set _ | .bol | .eol => []
  | .seq r q | .alt r q => r.groups ++ q.groups
  | .star r | .opt r => r.groups
  | .group n r => n :: r.groups

abbrev Captures (α : Type) := Nat → Option (List α)

def Captures.clear (c : Captures α) (gone : List Nat) : Captures α := fun i => if i ∈ gone then none else c i

@[simp] theorem clearNone (c : Captures α) : c.clear [] = c := funext fun i => by simp [Captures.clear]

structure Cursor (α : Type) where
  pos : Nat
  rest : List α
  captures : Captures α

namespace Cursor

def clear (s : Cursor α) (gone : List Nat) : Cursor α := {s with captures := s.captures.clear gone}

/- Closes a group that was opened at s. -/
def capture (t s : Cursor α) (n : Nat) : Cursor α :=
  {t with captures := Function.update t.captures n (some (s.rest.take (t.pos - s.pos)))}

end Cursor

/- A quantifier forgets the captures of its body before each repetition, and gives up on
one that consumed nothing. -/
def iterate (body : Cursor α → (Cursor α → Option β) → Option β) (inside : List Nat) :
    Nat → Cursor α → (Cursor α → Option β) → Option β
  | 0, s, k => k s
  | n+1, s, k =>
      (body (s.clear inside) fun t => if t.pos = s.pos then none else iterate body inside n t k).orElse fun _ => k s

def exec : Regex α → Cursor α → (Cursor α → Option β) → Option β
  | .set member, s, k =>
      match s.rest with
      | [] => none
      | a :: rest => if member a then k ⟨s.pos+1,rest,s.captures⟩ else none
  | .seq r q, s, k => r.exec s fun t => q.exec t k
  | .alt r q, s, k => (r.exec s k).orElse fun _ => q.exec s k
  | .star r, s, k => iterate r.exec r.groups s.rest.length s k
  | .opt r, s, k =>
      (r.exec (s.clear r.groups) fun t => if t.pos = s.pos then none else k t).orElse fun _ => k s
  | .group n r, s, k => r.exec s fun t => k (t.capture s n)
  | .bol, s, k => if s.pos = 0 then k s else none
  | .eol, s, k => if s.rest.isEmpty then k s else none

/- The whole text or nothing: the groups of the first match that reaches the end. -/
def fullMatch (r : Regex α) (text : List α) : Option (Captures α) :=
  r.exec ⟨0,text,fun _ => none⟩ fun t => if t.rest.isEmpty then some t.captures else none

/-! `Consumes r n w rest c d`: at offset n, ahead of rest, r can take w and turn the
captures c into d. -/

inductive Consumes : Regex α → Nat → List α → List α → Captures α → Captures α → Prop where
  | set {member n a rest c} (inside : member a = true) : Consumes (.set member) n [a] rest c c
  | seq {r q n w v rest c d e} (first : Consumes r n w (v ++ rest) c d)
      (second : Consumes q (n + w.length) v rest d e) : Consumes (.seq r q) n (w ++ v) rest c e
  | left {r q n w rest c d} (run : Consumes r n w rest c d) : Consumes (.alt r q) n w rest c d
  | right {r q n w rest c d} (run : Consumes q n w rest c d) : Consumes (.alt r q) n w rest c d
  | stop {r n rest c} : Consumes (.star r) n [] rest c c
  | again {r n w v rest c d e} (first : Consumes r n w (v ++ rest) (c.clear r.groups) d) (progress : w ≠ [])
      (more : Consumes (.star r) (n + w.length) v rest d e) : Consumes (.star r) n (w ++ v) rest c e
  | skip {r n rest c} : Consumes (.opt r) n [] rest c c
  | take {r n w rest c d} (run : Consumes r n w rest (c.clear r.groups) d) (progress : w ≠ []) :
      Consumes (.opt r) n w rest c d
  | group {i r n w rest c d} (run : Consumes r n w rest c d) :
      Consumes (.group i r) n w rest c (Function.update d i (some w))
  | bol {rest c} : Consumes .bol 0 [] rest c c
  | eol {n c} : Consumes .eol n [] [] c c

/- The cursor a consumption ends at. -/
abbrev Lands (r : Regex α) (s t : Cursor α) : Prop :=
  ∃ w, s.rest = w ++ t.rest ∧ t.pos = s.pos + w.length ∧ Consumes r s.pos w t.rest s.captures t.captures

theorem landsShrinks {r : Regex α} {s t : Cursor α} (landed : r.Lands s t) (progress : t.pos ≠ s.pos) :
    t.rest.length < s.rest.length := by
  obtain ⟨w,text,pos,_⟩ := landed
  have longer := congrArg List.length text
  rw [List.length_append] at longer
  omega

theorem landsSeq {r q : Regex α} {s t u : Cursor α} (first : r.Lands s t) (second : q.Lands t u) :
    (Regex.seq r q).Lands s u := by
  obtain ⟨w,text,pos,run⟩ := first
  obtain ⟨v,moreText,morePos,moreRun⟩ := second
  rw [moreText] at run text
  rw [pos] at moreRun
  exact ⟨w ++ v,by simpa using text,by simp [morePos,pos,Nat.add_assoc],.seq run moreRun⟩

theorem landsAgain {r : Regex α} {s t u : Cursor α} (first : r.Lands (s.clear r.groups) t)
    (progress : t.pos ≠ s.pos) (more : (Regex.star r).Lands t u) : (Regex.star r).Lands s u := by
  obtain ⟨w,text,pos,run⟩ := first
  obtain ⟨v,moreText,morePos,moreRun⟩ := more
  have grows : w ≠ [] := by rintro rfl; exact progress pos
  rw [moreText] at run text
  rw [pos] at moreRun
  exact ⟨w ++ v,by simpa [Cursor.clear] using text,by simp [morePos,pos,Nat.add_assoc,Cursor.clear],
    .again run grows moreRun⟩

/-! Soundness: a result comes from the continuation at a cursor the expression can land on. -/

def Sound (r : Regex α) (m : Cursor α → (Cursor α → Option β) → Option β) : Prop :=
  ∀ s k b, m s k = some b → ∃ t, r.Lands s t ∧ k t = some b

theorem orElseCases {x y : Option β} {b : β} (h : (x.orElse fun _ => y) = some b) : x = some b ∨ y = some b := by
  cases x with
  | none => exact Or.inr h
  | some a => exact Or.inl h

theorem iterateSound {r : Regex α} {m : Cursor α → (Cursor α → Option β) → Option β} (sound : r.Sound m) (n : Nat) :
    (Regex.star r).Sound (iterate m r.groups n) := by
  induction n with
  | zero => exact fun s k b found => ⟨s,⟨[],rfl,rfl,.stop⟩,found⟩
  | succ n ih =>
    intro s k b found
    rcases orElseCases found with again | stop
    · obtain ⟨t,landed,next⟩ := sound _ _ _ again
      split at next
      · contradiction
      · rename_i progress
        obtain ⟨u,more,last⟩ := ih _ _ _ next
        exact ⟨u,landsAgain landed progress more,last⟩
    · exact ⟨s,⟨[],rfl,rfl,.stop⟩,stop⟩

theorem execSound (r : Regex α) : r.Sound (r.exec (β := β)) := by
  induction r with
  | set member =>
    intro s k b found
    obtain ⟨pos,text,c⟩ := s
    cases text with
    | nil => contradiction
    | cons a rest =>
      simp only [exec] at found
      split at found
      · rename_i inside; exact ⟨⟨pos+1,rest,c⟩,⟨[a],rfl,rfl,.set inside⟩,found⟩
      · contradiction
  | seq r q first second =>
    intro s k b found
    obtain ⟨t,here,next⟩ := first _ _ _ found
    obtain ⟨u,there,last⟩ := second _ _ _ next
    exact ⟨u,landsSeq here there,last⟩
  | alt r q left right =>
    intro s k b found
    rcases orElseCases found with found | found
    · obtain ⟨t,⟨w,text,pos,run⟩,last⟩ := left _ _ _ found
      exact ⟨t,⟨w,text,pos,.left run⟩,last⟩
    · obtain ⟨t,⟨w,text,pos,run⟩,last⟩ := right _ _ _ found
      exact ⟨t,⟨w,text,pos,.right run⟩,last⟩
  | star r ih => exact fun s => iterateSound ih s.rest.length s
  | opt r ih =>
    intro s k b found
    rcases orElseCases found with taken | skipped
    · obtain ⟨t,⟨w,text,pos,run⟩,last⟩ := ih _ _ _ taken
      split at last
      · contradiction
      · rename_i progress
        have grows : w ≠ [] := by rintro rfl; exact progress pos
        exact ⟨t,⟨w,text,pos,.take run grows⟩,last⟩
    · exact ⟨s,⟨[],rfl,rfl,.skip⟩,skipped⟩
  | group n r ih =>
    intro s k b found
    obtain ⟨t,⟨w,text,pos,run⟩,last⟩ := ih _ _ _ found
    have taken : s.rest.take (t.pos - s.pos) = w := by simp [text,pos]
    refine ⟨t.capture s n,⟨w,text,pos,?_⟩,last⟩
    rw [Cursor.capture,taken]
    exact .group run
  | bol =>
    intro s k b found
    simp only [exec] at found
    split at found
    · rename_i start; exact ⟨s,⟨[],rfl,rfl,start ▸ .bol⟩,found⟩
    · contradiction
  | eol =>
    intro s k b found
    simp only [exec] at found
    split at found
    · rename_i ending
      refine ⟨s,⟨[],rfl,rfl,?_⟩,found⟩
      rw [List.isEmpty_iff.mp ending]
      exact .eol
    · contradiction

theorem execNone (r : Regex α) (s : Cursor α) : (r.exec s fun _ => (none : Option β)) = none := by
  cases found : r.exec s fun _ => (none : Option β) with
  | none => rfl
  | some b =>
    obtain ⟨_,_,bad⟩ := r.execSound _ _ _ found
    contradiction

/-! The matcher asks its continuation only where the expression can land; so the bound on
the repetitions of a star never cuts a match short. -/

def Local (r : Regex α) (m : Cursor α → (Cursor α → Option β) → Option β) : Prop :=
  ∀ s k k', (∀ t, r.Lands s t → k t = k' t) → m s k = m s k'

theorem iterateLocal {r : Regex α} {m : Cursor α → (Cursor α → Option β) → Option β} (asks : r.Local m) (n : Nat) :
    (Regex.star r).Local (iterate m r.groups n) := by
  induction n with
  | zero => exact fun s k k' same => same s ⟨[],rfl,rfl,.stop⟩
  | succ n ih =>
    intro s k k' same
    have stop := same s ⟨[],rfl,rfl,.stop⟩
    have more := asks (s.clear r.groups) (fun t => if t.pos = s.pos then none else iterate m r.groups n t k)
      (fun t => if t.pos = s.pos then none else iterate m r.groups n t k') fun t landed => by
        split_ifs with progress
        · rfl
        · exact ih t k k' fun u further => same u (landsAgain landed progress further)
    simp only [iterate,more,stop]

theorem execLocal (r : Regex α) : r.Local (r.exec (β := β)) := by
  induction r with
  | set member =>
    intro s k k' same
    obtain ⟨pos,text,c⟩ := s
    cases text with
    | nil => rfl
    | cons a rest =>
      simp only [exec]
      split_ifs with inside
      · exact same _ ⟨[a],rfl,rfl,.set inside⟩
      · rfl
  | seq r q first second =>
    intro s k k' same
    refine first s _ _ fun t here => second t k k' fun u there => same u (landsSeq here there)
  | alt r q left right =>
    intro s k k' same
    have one := left s k k' fun t ⟨w,text,pos,run⟩ => same t ⟨w,text,pos,.left run⟩
    have other := right s k k' fun t ⟨w,text,pos,run⟩ => same t ⟨w,text,pos,.right run⟩
    simp only [exec,one,other]
  | star r ih => exact fun s => iterateLocal ih s.rest.length s
  | opt r ih =>
    intro s k k' same
    have taken := ih (s.clear r.groups) (fun t => if t.pos = s.pos then none else k t)
      (fun t => if t.pos = s.pos then none else k' t) fun t ⟨w,text,pos,run⟩ => by
        split_ifs with progress
        · rfl
        · have grows : w ≠ [] := by rintro rfl; exact progress pos
          exact same t ⟨w,text,pos,.take run grows⟩
    simp only [exec,taken,same s ⟨[],rfl,rfl,.skip⟩]
  | group n r ih =>
    intro s k k' same
    refine ih s _ _ fun t ⟨w,text,pos,run⟩ => same _ ⟨w,text,pos,?_⟩
    have taken : s.rest.take (t.pos - s.pos) = w := by simp [text,pos]
    rw [Cursor.capture,taken]
    exact .group run
  | bol =>
    intro s k k' same
    simp only [exec]
    split_ifs with start
    · exact same s ⟨[],rfl,rfl,start ▸ .bol⟩
    · rfl
  | eol =>
    intro s k k' same
    simp only [exec]
    split_ifs with ending
    · refine same s ⟨[],rfl,rfl,?_⟩
      rw [List.isEmpty_iff.mp ending]
      exact .eol
    · rfl

theorem iterateEmpty (r : Regex α) (n : Nat) {s : Cursor α} (k : Cursor α → Option β) (empty : s.rest = []) :
    iterate r.exec r.groups n s k = k s := by
  cases n with
  | zero => rfl
  | succ n =>
    have stuck := r.execLocal (s.clear r.groups)
      (fun t => if t.pos = s.pos then none else iterate r.exec r.groups n t k) (fun _ => none) fun t landed => by
        refine if_pos ?_
        by_contra progress
        have shrinks := landsShrinks landed progress
        simp [Cursor.clear,empty] at shrinks
    simp only [iterate,stuck,execNone]
    rfl

theorem iterateEnough (r : Regex α) {n m : Nat} {s : Cursor α} (k : Cursor α → Option β)
    (first : s.rest.length ≤ n) (second : s.rest.length ≤ m) :
    iterate r.exec r.groups n s k = iterate r.exec r.groups m s k := by
  induction n generalizing m s with
  | zero =>
    have empty := List.eq_nil_of_length_eq_zero (Nat.le_zero.mp first)
    rw [iterateEmpty r 0 k empty,iterateEmpty r m k empty]
  | succ n ih =>
    cases m with
    | zero =>
      have empty := List.eq_nil_of_length_eq_zero (Nat.le_zero.mp second)
      rw [iterateEmpty r (n+1) k empty,iterateEmpty r 0 k empty]
    | succ m =>
      have same := r.execLocal (s.clear r.groups)
        (fun t => if t.pos = s.pos then none else iterate r.exec r.groups n t k)
        (fun t => if t.pos = s.pos then none else iterate r.exec r.groups m t k) fun t landed => by
          split_ifs with progress
          · rfl
          · have shrinks : t.rest.length < s.rest.length := landsShrinks (s := s.clear r.groups) landed progress
            exact ih (by omega) (by omega)
      simp only [iterate,same]

/- RepeatMatcher, for a greedy quantifier without a bound. -/
theorem execStar (r : Regex α) (s : Cursor α) (k : Cursor α → Option β) :
    (Regex.star r).exec s k =
      (r.exec (s.clear r.groups) fun t => if t.pos = s.pos then none else (Regex.star r).exec t k).orElse fun _ => k s := by
  have whole : (Regex.star r).exec s k = iterate r.exec r.groups (s.rest.length+1) s k :=
    iterateEnough r k (Nat.le_refl _) (Nat.le_succ _)
  rw [whole,iterate]
  refine congrArg (Option.orElse · _) (r.execLocal _ _ _ fun t landed => ?_)
  split_ifs with progress
  · rfl
  · have shrinks : t.rest.length < s.rest.length := landsShrinks (s := s.clear r.groups) landed progress
    exact iterateEnough r k (by omega) (Nat.le_refl _)

/-! What a consumption leaves behind, read off the shape of the expression. -/

section Consumes
variable {r q : Regex α} {n : Nat} {w rest : List α} {c d : Captures α}

/- Captures of other groups are untouched. -/
theorem consumesFrame (run : Consumes r n w rest c d) {i : Nat} (outside : i ∉ r.groups) : d i = c i := by
  induction run with
  | set | stop | skip | bol | eol => rfl
  | seq first second one two =>
    simp only [groups,List.mem_append,not_or] at outside
    rw [two outside.2,one outside.1]
  | left run ih =>
    simp only [groups,List.mem_append,not_or] at outside
    exact ih outside.1
  | right run ih =>
    simp only [groups,List.mem_append,not_or] at outside
    exact ih outside.2
  | again first progress more one two => exact (two outside).trans ((one outside).trans (if_neg outside))
  | take run progress ih => exact (ih outside).trans (if_neg outside)
  | group run ih =>
    simp only [groups,List.mem_cons,not_or] at outside
    rw [Function.update_of_ne outside.1,ih outside.2]

theorem consumesSet {member : α → Bool} (run : Consumes (.set member) n w rest c d) :
    ∃ a, w = [a] ∧ member a = true ∧ d = c := by
  cases run with
  | set inside => exact ⟨_,rfl,inside,rfl⟩

theorem consumesSeq (run : Consumes (.seq r q) n w rest c d) :
    ∃ u v e, w = u ++ v ∧ Consumes r n u (v ++ rest) c e ∧ Consumes q (n + u.length) v rest e d := by
  cases run with
  | seq first second => exact ⟨_,_,_,rfl,first,second⟩

theorem consumesRun {member : α → Bool} (run : Consumes (.star (.set member)) n w rest c d) :
    (∀ a ∈ w, member a = true) ∧ d = c := by
  generalize whole : Regex.star (.set member) = r at run
  induction run with
  | stop => exact ⟨by simp,rfl⟩
  | again first progress more one two =>
    cases whole
    obtain ⟨inside,same⟩ := two rfl
    obtain ⟨a,rfl,member,kept⟩ := consumesSet first
    refine ⟨?_,?_⟩
    · rintro b (_ | ⟨_,h⟩)
      · exact member
      · exact inside b h
    · rw [same,kept]
      exact clearNone _
  | _ => contradiction

theorem consumesPlus {member : α → Bool} (run : Consumes (plus (.set member)) n w rest c d) :
    w ≠ [] ∧ (∀ a ∈ w, member a = true) ∧ d = c := by
  obtain ⟨_,v,_,rfl,first,more⟩ := consumesSeq run
  obtain ⟨a,rfl,inside,rfl⟩ := consumesSet first
  obtain ⟨others,rfl⟩ := consumesRun more
  refine ⟨by simp,?_,rfl⟩
  rintro b (_ | ⟨_,h⟩)
  · exact inside
  · exact others b h

theorem consumesGroup {i : Nat} (run : Consumes (.group i r) n w rest c d) :
    ∃ e, Consumes r n w rest c e ∧ d = Function.update e i (some w) := by
  cases run with
  | group run => exact ⟨_,run,rfl⟩

theorem consumesOpt (run : Consumes (.opt r) n w rest c d) :
    w = [] ∧ d = c ∨ Consumes r n w rest (c.clear r.groups) d := by
  cases run with
  | skip => exact Or.inl ⟨rfl,rfl⟩
  | take run progress => exact Or.inr run

/- Every group of r is still open to capture, and no two share a number. -/
structure Fresh (r : Regex α) (c : Captures α) : Prop where
  apart : r.groups.Nodup
  empty : ∀ i ∈ r.groups, c i = none

theorem freshRest (fresh : Fresh (.seq r q) c) (run : Consumes r n w rest c d) : Fresh q d := by
  have apart := List.nodup_append.mp fresh.apart
  refine ⟨apart.2.1,fun i member => ?_⟩
  rw [consumesFrame run fun inside => apart.2.2 i inside i member rfl]
  exact fresh.empty i (List.mem_append_right _ member)

theorem keptRest (fresh : Fresh (.seq r q) c) {e : Captures α} (run : Consumes q n w rest e d) {i : Nat}
    (member : i ∈ r.groups) : d i = e i :=
  consumesFrame run fun inside => (List.nodup_append.mp fresh.apart).2.2 i member i inside rfl

/- An optional group at the front: what it captured is what it consumed, if anything. -/
theorem consumesOptGroup {i : Nat} (fresh : Fresh (.seq (.opt (.group i r)) q) c)
    (run : Consumes (.seq (.opt (.group i r)) q) n w rest c d) :
    ∃ v e, w = (d i).getD [] ++ v ∧ Fresh q e ∧ Consumes q (n + ((d i).getD []).length) v rest e d ∧
      ((d i).getD [] = [] ∧ (∀ j ∈ r.groups, d j = none) ∨
        ∃ b b', Consumes r n ((d i).getD []) (v ++ rest) b b' ∧ ∀ j ∈ r.groups, d j = b' j) := by
  obtain ⟨u,v,e,rfl,first,second⟩ := consumesSeq run
  have kept : ∀ j ∈ i :: r.groups, d j = e j := fun j member => keptRest fresh second member
  have ahead := freshRest fresh first
  rcases consumesOpt first with ⟨rfl,rfl⟩ | taken
  · have none : ∀ j ∈ i :: r.groups, d j = none := fun j member =>
      (kept j member).trans (fresh.empty j (List.mem_append_left _ member))
    have empty : (d i).getD [] = [] := by rw [none i List.mem_cons_self]; rfl
    rw [empty]
    exact ⟨v,_,rfl,ahead,second,Or.inl ⟨rfl,fun j member => none j (List.mem_cons_of_mem i member)⟩⟩
  · obtain ⟨b',inner,rfl⟩ := consumesGroup taken
    have captured : d i = some u := (kept i List.mem_cons_self).trans (Function.update_self i _ b')
    have text : (d i).getD [] = u := by rw [captured]; rfl
    rw [text]
    refine ⟨v,_,rfl,ahead,second,Or.inr ⟨_,b',inner,fun j member => ?_⟩⟩
    have apart : j ≠ i := by
      rintro rfl
      exact (List.nodup_cons.mp (List.nodup_append.mp fresh.apart).1).1 member
    rw [kept j (List.mem_cons_of_mem i member),Function.update_of_ne apart]

theorem fullMatchConsumes {text : List α} (found : r.fullMatch text = some d) :
    Consumes r 0 text [] (fun _ => none) d := by
  obtain ⟨t,⟨w,split,_,run⟩,last⟩ := r.execSound _ _ _ found
  split at last
  · rename_i ending
    have empty := List.isEmpty_iff.mp ending
    obtain rfl := Option.some.inj last
    rw [empty] at run split
    rw [show text = w by simpa using split]
    exact run
  · contradiction

end Consumes

/-! `Takes r w rest c d`: ahead of rest, r tries w first, turning the captures c into d;
so where what follows agrees, that is the match. -/

def Takes (r : Regex α) (w rest : List α) (c d : Captures α) : Prop :=
  ∀ (β : Type) (n : Nat) (k : Cursor α → Option β) (b : β),
    k ⟨n + w.length,rest,d⟩ = some b → r.exec ⟨n,w ++ rest,c⟩ k = some b

section Takes
variable {r q : Regex α} {w v rest : List α} {c d e : Captures α}

theorem takesSet {member : α → Bool} {a : α} (inside : member a = true) : Takes (.set member) [a] rest c c := by
  intro β n k b next
  simpa [exec,inside] using next

theorem takesSeq (first : Takes r w (v ++ rest) c d) (second : Takes q v rest d e) :
    Takes (.seq r q) (w ++ v) rest c e := by
  intro β n k b next
  rw [List.append_assoc]
  refine first β n _ b (second β _ k b ?_)
  rw [← next,List.length_append,Nat.add_assoc]

/- The same at the end of the text. -/
theorem takesEnd (first : Takes r w v c d) (second : Takes q v [] d e) : Takes (.seq r q) (w ++ v) [] c e :=
  takesSeq (by rwa [List.append_nil]) second

theorem takesLeft (run : Takes r w rest c d) : Takes (.alt r q) w rest c d := by
  intro β n k b next
  simp [exec,run β n k b next]

theorem takesRight (stuck : ∀ n w' rest' d', w ++ rest = w' ++ rest' → ¬ Consumes r n w' rest' c d')
    (run : Takes q w rest c d) : Takes (.alt r q) w rest c d := by
  intro β n k b next
  cases found : r.exec ⟨n,w ++ rest,c⟩ k with
  | none => simp [exec,found,run β n k b next]
  | some b' =>
    obtain ⟨t,⟨w',text,_,consumed⟩,_⟩ := r.execSound _ _ _ found
    exact absurd consumed (stuck n w' t.rest t.captures text)

theorem takesOpt (run : Takes r w rest (c.clear r.groups) d) (progress : w ≠ []) : Takes (.opt r) w rest c d := by
  intro β n k b next
  have taken := run β n (fun t => if t.pos = n then none else k t) b (by simpa [progress] using next)
  simp [exec,Cursor.clear,taken]

theorem takesSkip (stuck : ∀ n w' rest' d', rest = w' ++ rest' → ¬ Consumes r n w' rest' (c.clear r.groups) d') :
    Takes (.opt r) [] rest c c := by
  intro β n k b next
  cases found : r.exec (Cursor.clear ⟨n,rest,c⟩ r.groups) fun t => if t.pos = n then none else k t with
  | none => simpa [exec,found] using next
  | some b' =>
    obtain ⟨t,⟨w',text,_,consumed⟩,_⟩ := r.execSound _ _ _ found
    exact absurd consumed (stuck n w' t.rest t.captures text)

theorem takesGroup {i : Nat} (run : Takes r w rest c d) : Takes (.group i r) w rest c (Function.update d i (some w)) := by
  intro β n k b next
  refine run β n _ b ?_
  simpa [Cursor.capture] using next

theorem takesEol : Takes (.eol : Regex α) [] [] c c := by
  intro β n k b next
  simpa [exec] using next

/- A run of one class, which what follows does not continue. -/
theorem takesRun {member : α → Bool} (run : ∀ a ∈ w, member a = true)
    (ends : ∀ a ∈ rest.head?, member a = false) :
    Takes (.star (.set member)) w rest c c := by
  intro β n k b next
  induction w generalizing n with
  | nil =>
    rw [execStar]
    cases rest with
    | nil => simpa [exec,Cursor.clear] using next
    | cons a rest =>
      have out := ends a rfl
      simpa [exec,Cursor.clear,out] using next
  | cons a w ih =>
    have inside := run a List.mem_cons_self
    have more := ih (fun a' h => run a' (List.mem_cons_of_mem a h)) (n+1) (by
      rw [← next,List.length_cons]
      congr 2
      omega)
    rw [execStar]
    have first : (Regex.set member).exec (Cursor.clear ⟨n,a :: w ++ rest,c⟩ [])
        (fun t => if t.pos = n then none else (Regex.star (.set member)).exec t k) = some b := by
      simpa [exec,Cursor.clear,inside] using more
    simp only [groups,first]
    rfl

theorem takesPlus {member : α → Bool} (some : w ≠ []) (run : ∀ a ∈ w, member a = true)
    (ends : ∀ a ∈ rest.head?, member a = false) : Takes (plus (.set member)) w rest c c := by
  cases w with
  | nil => contradiction
  | cons a w =>
    exact takesSeq (w := [a]) (takesSet (run a List.mem_cons_self))
      (takesRun (fun b h => run b (List.mem_cons_of_mem a h)) ends)

theorem fullMatchTakes {text : List α} (run : Takes r text [] (fun _ => none) d) :
    (Regex.seq .bol r).fullMatch text = some d := by
  have whole := run _ 0 (fun t => if t.rest.isEmpty then some t.captures else none) d rfl
  rw [List.append_nil] at whole
  simpa [fullMatch,exec] using whole

end Takes
end Regex
end Emu6502
