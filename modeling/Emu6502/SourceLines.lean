import Emu6502.CompileImage

/-! Asm::compile on one text: the custom getline and the loop that collects its lines. A CR after an
LF is swallowed too, so the CR of a CRLF can go with the line before. -/
namespace Emu6502

/- A stringstream: what its buffer has left, and the state bits getline can set. -/
structure Stream where
  rest : List Char
  eofbit : Bool := false
  failbit : Bool := false
  deriving DecidableEq, Repr

namespace Stream

def sentry (is : Stream) : Stream := {is with failbit := is.failbit || is.eofbit}

def swallow (c : Char) (rest : List Char) : List Char := if rest.head? = some c then rest.tail else rest

def readLine (is : Stream) : List Char → List Char → Stream × List Char
  | [],t => ({is with rest := [], eofbit := is.eofbit || t.isEmpty},t)
  | c :: rest,t =>
    if c = '\n' then ({is with rest := swallow '\r' rest},t)
    else if c = '\r' then ({is with rest := swallow '\n' rest},t)
    else is.readLine rest (t ++ [c])

def getline (is : Stream) : Stream × List Char := is.sentry.readLine is.rest []

def collect : Nat → Stream → List (List Char) → Option (List (List Char))
  | 0,_,_ => none
  | fuel+1,is,lines => if is.getline.1.failbit then some lines else collect fuel is.getline.1 (lines ++ [is.getline.2])

end Stream

def compileSource (beyond : List Char → BitVec 32) (fuel : Nat) (base : Uint16) (source : List Char) :
    Option (Except AsmSyntaxException (List Uint8)) :=
  (Stream.collect fuel {rest := source} []).map (compile beyond base)

/-- The lines in order, each ended by one of `ends`; a last line that is not empty may go without. -/
inductive Joined (ends : List (List Char)) : List (List Char) → List Char → Prop where
  | nil : Joined ends [] []
  | unended {line : List Char} (nonempty : line ≠ []) : Joined ends [line] line
  | ended {line : List Char} {lines : List (List Char)} {term text : List Char} (known : term ∈ ends)
      (tail : Joined ends lines text) : Joined ends (line :: lines) (line ++ (term ++ text))

def lfEnds : List (List Char) := [['\n'],['\r','\n']]
def crEnds : List (List Char) := [['\r'],['\r','\n']]

def Unbroken (line : List Char) : Prop := '\n' ∉ line ∧ '\r' ∉ line

theorem readUnbroken {line : List Char} (unbroken : Unbroken line) (is : Stream) (rest t : List Char) :
    is.readLine (line ++ rest) t = is.readLine rest (t ++ line) := by
  induction line generalizing t with
  | nil => simp
  | cons c line ih =>
    obtain ⟨lf,cr⟩ := unbroken
    simp only [List.mem_cons,not_or] at lf cr
    rw [List.cons_append,Stream.readLine,if_neg (Ne.symm lf.1),if_neg (Ne.symm cr.1),ih ⟨lf.2,cr.2⟩,
      List.append_assoc,List.singleton_append]

theorem swallowOther {c : Char} {rest : List Char} (other : rest.head? ≠ some c) : Stream.swallow c rest = rest :=
  if_neg other

theorem swallowShort (c : Char) (rest : List Char) : (Stream.swallow c rest).length ≤ rest.length := by
  unfold Stream.swallow
  split
  · rw [List.length_tail]
    exact Nat.sub_le _ _
  · exact Nat.le_refl _

theorem unbrokenHead {line : List Char} (unbroken : Unbroken line) {c : Char} (head : line.head? = some c) :
    c ≠ '\n' ∧ c ≠ '\r' := by
  have member := List.mem_of_head? head
  exact ⟨fun lf => unbroken.1 (lf ▸ member),fun cr => unbroken.2 (cr ▸ member)⟩

section text
variable {lines : List (List Char)} {text : List Char}

/- After a CR nothing of the later lines is taken for the rest of a CRLF. -/
theorem crHead (unbroken : ∀ line ∈ lines, Unbroken line) (joined : Joined crEnds lines text) :
    text.head? ≠ some '\n' := by
  intro head
  cases joined with
  | nil => contradiction
  | unended nonempty => exact (unbrokenHead (unbroken text List.mem_cons_self) head).1 rfl
  | @ended line lines term text known tail =>
    cases line with
    | nil =>
      simp only [crEnds,List.mem_cons,List.not_mem_nil,or_false] at known
      rcases known with rfl | rfl <;> simp at head
    | cons c line => exact (unbrokenHead (unbroken _ List.mem_cons_self) head).1 rfl

theorem lfSwallow (unbroken : ∀ line ∈ lines, Unbroken line) (joined : Joined lfEnds lines text) :
    Joined lfEnds lines (Stream.swallow '\r' text) := by
  by_cases head : text.head? = some '\r'
  · cases joined with
    | nil => contradiction
    | unended nonempty => exact absurd rfl (unbrokenHead (unbroken text List.mem_cons_self) head).2
    | @ended line lines term text known tail =>
      cases line with
      | nil =>
        simp only [lfEnds,List.mem_cons,List.not_mem_nil,or_false] at known
        rcases known with rfl | rfl
        · simp at head
        · rw [Stream.swallow,if_pos head]
          exact @Joined.ended _ [] _ ['\n'] _ List.mem_cons_self tail
      | cons c line => exact absurd rfl (unbrokenHead (unbroken _ List.mem_cons_self) head).2
  · rw [swallowOther head]
    exact joined

variable {ends : List (List Char)}

theorem endRead (family : ends = lfEnds ∨ ends = crEnds) (unbroken : ∀ line ∈ lines, Unbroken line)
    (joined : Joined ends lines text) {term : List Char} (known : term ∈ ends) (is : Stream) (t : List Char) :
    ∃ rest, is.readLine (term ++ text) t = ({is with rest := rest},t) ∧ Joined ends lines rest ∧
      rest.length < (term ++ text).length := by
  have crlf : is.readLine (['\r','\n'] ++ text) t = ({is with rest := text},t) := rfl
  rcases family with rfl | rfl
  · simp only [lfEnds,List.mem_cons,List.not_mem_nil,or_false] at known
    rcases known with rfl | rfl
    · exact ⟨_,rfl,lfSwallow unbroken joined,Nat.lt_succ_of_le (swallowShort _ _)⟩
    · exact ⟨text,crlf,joined,Nat.lt_add_of_pos_right Nat.two_pos⟩
  · simp only [crEnds,List.mem_cons,List.not_mem_nil,or_false] at known
    rcases known with rfl | rfl
    · have whole := swallowOther (crHead unbroken joined)
      refine ⟨Stream.swallow '\n' text,rfl,?_,Nat.lt_succ_of_le (swallowShort _ _)⟩
      rw [whole]
      exact joined
    · exact ⟨text,crlf,joined,Nat.lt_add_of_pos_right Nat.two_pos⟩

theorem getlineJoined (family : ends = lfEnds ∨ ends = crEnds) {line : List Char}
    (unbroken : ∀ l ∈ line :: lines, Unbroken l) (joined : Joined ends (line :: lines) text) :
    ∃ rest, ({rest := text} : Stream).getline = ({rest := rest},line) ∧ Joined ends lines rest ∧
      rest.length < text.length := by
  have here := unbroken line List.mem_cons_self
  have later : ∀ l ∈ lines, Unbroken l := fun l member => unbroken l (List.mem_cons_of_mem line member)
  cases joined with
  | unended nonempty =>
    have read := readUnbroken here ({rest := text} : Stream) [] []
    refine ⟨[],?_,.nil,List.length_pos_iff.mpr nonempty⟩
    rw [List.append_nil] at read
    refine read.trans ?_
    simp [Stream.readLine,nonempty]
  | @ended _ _ term text known tail =>
    obtain ⟨rest,read,remaining,short⟩ := endRead family later tail known {rest := line ++ (term ++ text)} line
    refine ⟨rest,(readUnbroken here _ _ []).trans read,remaining,?_⟩
    rw [@List.length_append _ line]
    omega

/- The loop takes one turn a line and two more: the empty line at the end, and the getline that fails. -/
theorem collectJoined (family : ends = lfEnds ∨ ends = crEnds) (unbroken : ∀ l ∈ lines, Unbroken l)
    (joined : Joined ends lines text) {fuel : Nat} (enough : text.length + 2 ≤ fuel) (taken : List (List Char)) :
    Stream.collect fuel {rest := text} taken = some (taken ++ (lines ++ [[]])) := by
  induction lines generalizing text fuel taken with
  | nil =>
    cases joined
    obtain ⟨fuel,rfl⟩ := Nat.exists_eq_add_of_le' enough
    rfl
  | cons line lines ih =>
    obtain ⟨rest,read,remaining,shorter⟩ := getlineJoined family unbroken joined
    obtain ⟨fuel,rfl⟩ := Nat.exists_eq_add_of_le' (Nat.one_le_of_lt enough)
    have later := ih (fun l member => unbroken l (List.mem_cons_of_mem line member)) remaining
      (show rest.length + 2 ≤ fuel by omega) (taken ++ [line])
    rw [Stream.collect,read]
    refine later.trans (congrArg some ?_)
    rw [List.append_assoc,List.singleton_append,List.cons_append]

end text

section compile
variable (beyond : List Char → BitVec 32)

theorem compileExtra (lines : List (List Char)) (index : Nat) (e : Emission) :
    compileFrom beyond index (lines ++ [[]]) e = compileFrom beyond index lines e := by
  induction lines generalizing index e with
  | nil => rfl
  | cons line lines ih =>
    rw [List.cons_append,compileLine,compileLine]
    cases lineBytes beyond line with
    | none => rfl
    | some bytes => exact ih (index+1) (e.write bytes)

theorem compileTrailing (base : Uint16) (lines : List (List Char)) :
    compile beyond base (lines ++ [[]]) = compile beyond base lines := by
  rw [compile,compile,compileExtra]

/-- Any text that joins the lines compiles as the list of them does, whatever the ends chosen. -/
theorem compileJoined {ends : List (List Char)} (family : ends = lfEnds ∨ ends = crEnds)
    {lines : List (List Char)} (unbroken : ∀ line ∈ lines, Unbroken line) {source : List Char}
    (joined : Joined ends lines source) (base : Uint16) {fuel : Nat} (enough : source.length + 2 ≤ fuel) :
    compileSource beyond fuel base source = some (compile beyond base lines) := by
  rw [compileSource,collectJoined family unbroken joined enough,Option.map_some,List.nil_append,compileTrailing]

end compile

theorem compileMixedEnds :
    compileSource (fun _ => 0) 16 0x0400 ['N','O','P','\n','\r','\n','X','X'] =
      some (compile (fun _ => 0) 0x0400 [['N','O','P'],[],['X','X']]) := by
  refine compileJoined _ (Or.inl rfl) (by simp [Unbroken]) ?_ 0x0400 (by decide)
  have last : Joined lfEnds [['X','X']] ['X','X'] := .unended (by decide)
  have blank : Joined lfEnds [[],['X','X']] ['\r','\n','X','X'] :=
    @Joined.ended _ [] _ ['\r','\n'] _ (by simp [lfEnds]) last
  exact @Joined.ended _ ['N','O','P'] _ ['\n'] _ (by simp [lfEnds]) blank

end Emu6502
