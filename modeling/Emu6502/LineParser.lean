import Mathlib.Data.List.TakeWhile
import Emu6502.Grammar

/-! The regular expression and the classifier decide the grammar. One way round, every
match splits the line into the pieces its groups captured, and the classifier names a mode
only where the pieces present are an operand of it; the other way round, on a line of the
grammar the greedy choice is right at every piece, so the first match is that line's. -/
namespace Emu6502
open Regex

/-! Letters and spaces. -/

theorem lowerCases {c l : Char} (lower : c.toLower = l) : c = l ∨ c.val + 32 = l.val := by
  delta Char.toLower at lower
  split at lower
  · exact Or.inr (congrArg Char.val lower)
  · exact Or.inl lower

theorem isspaceCases {c : Char} (space : isspace c = true) :
    c = ' ' ∨ c = '\t' ∨ c = '\n' ∨ c = '\x0b' ∨ c = '\x0c' ∨ c = '\r' := by
  simp only [isspace,Bool.or_eq_true,beq_iff_eq,Bool.and_eq_true,decide_eq_true_eq] at space
  rcases space with rfl | ⟨low,high⟩
  · exact Or.inl rfl
  · have codes : c.toNat = 9 ∨ c.toNat = 10 ∨ c.toNat = 11 ∨ c.toNat = 12 ∨ c.toNat = 13 := by omega
    rcases codes with code | code | code | code | code <;>
      · rw [← Char.ofNat_toNat c,code]
        decide

theorem eitherCase {upper c : Char} (capital : upper.toLower.val = upper.val + 32) (same : c.toLower = upper.toLower) :
    EitherCase upper c := by
  rcases lowerCases same with rfl | shifted
  · exact Or.inr rfl
  · exact Or.inl (Char.ext ((UInt32.add_left_inj 32).mp (shifted.trans capital)))

theorem indexLetter {c : Char} (letter : isIndexLetter c = true) : EitherCase 'X' c ∨ EitherCase 'Y' c := by
  simp only [isIndexLetter,Bool.or_eq_true,beq_iff_eq] at letter
  exact letter.imp (eitherCase rfl) (eitherCase rfl)

/-! Pieces. A match splits its text into what the groups captured, in order. -/

inductive IndexPiece : List Char → List Char → Prop where
  | absent : IndexPiece [] []
  | written {before after : List Char} {c : Char} (ahead : Spaces before) (behind : Spaces after)
      (letter : isIndexLetter c = true) : IndexPiece (before ++ ',' :: (after ++ [c])) [c]

def NumberText (text : List Char) : Prop :=
  ∃ sign digits, text = sign ++ digits ∧ (sign = [] ∨ sign = ['+'] ∨ sign = ['-']) ∧ digits ≠ [] ∧
    ∀ c ∈ digits, c.isDigit = true

structure Pieces (m : Captures Char) : Prop where
  named : subMatch m 1 ≠ []
  letters : ∀ c ∈ subMatch m 1, isLetter c = true
  opar : subMatch m 2 = [] ∨ subMatch m 2 = ['(']
  imm : subMatch m 3 = [] ∨ subMatch m 3 = ['#']
  val : subMatch m 4 = [] ∨ ∃ digits, subMatch m 4 = '$' :: digits ∧ ∀ c ∈ digits, isHex c = true
  inner : IndexPiece (subMatch m 5) (subMatch m 6)
  cpar : subMatch m 7 = [] ∨ subMatch m 7 = [')']
  outer : IndexPiece (subMatch m 8) (subMatch m 9)
  rel : subMatch m 10 = [] ∨ NumberText (subMatch m 10)
  rega : subMatch m 11 = [] ∨ ∃ c, subMatch m 11 = [c] ∧ EitherCase 'A' c
  comment : CommentText (subMatch m 12)

def operandPart (m : Captures Char) : List Char :=
  subMatch m 2 ++ (subMatch m 3 ++ (subMatch m 4 ++ (subMatch m 5 ++ (subMatch m 7 ++ (subMatch m 8 ++
    (subMatch m 10 ++ subMatch m 11))))))

section split
variable {n : Nat} {w rest : List Char} {c d : Captures Char}

open LineRegex

theorem litConsumes {x : Char} (run : Consumes (lit x) n w rest c d) : w = [x] := by
  obtain ⟨a,rfl,same,_⟩ := consumesSet run
  rw [beq_iff_eq.mp same]

theorem indexConsumes {letter : Nat}
    (run : Consumes (.seq spaces (.seq (lit ',') (.seq spaces (.group letter (.set isIndexLetter))))) n w rest c d) :
    ∃ before after x, Spaces before ∧ Spaces after ∧ isIndexLetter x = true ∧
      w = before ++ ',' :: (after ++ [x]) ∧ d letter = some [x] := by
  obtain ⟨before,_,_,rfl,ahead,run⟩ := consumesSeq run
  obtain ⟨_,_,_,rfl,comma,run⟩ := consumesSeq run
  obtain ⟨after,_,_,rfl,behind,run⟩ := consumesSeq run
  obtain ⟨_,inside,rfl⟩ := consumesGroup run
  obtain ⟨x,rfl,register,_⟩ := consumesSet inside
  rw [litConsumes comma]
  exact ⟨before,after,x,(consumesRun ahead).1,(consumesRun behind).1,register,rfl,Function.update_self letter _ _⟩

theorem numberConsumes
    (run : Consumes (.seq (.opt (.alt (lit '+') (lit '-'))) (plus (.set Char.isDigit))) n w rest c d) :
    NumberText w := by
  obtain ⟨sign,digits,_,rfl,signs,run⟩ := consumesSeq run
  obtain ⟨some,decimal,_⟩ := consumesPlus run
  refine ⟨sign,digits,rfl,?_,some,decimal⟩
  rcases consumesOpt signs with ⟨empty,_⟩ | signed
  · exact Or.inl empty
  · cases signed with
    | left run => exact Or.inr (Or.inl (litConsumes run))
    | right run => exact Or.inr (Or.inr (litConsumes run))

theorem hexConsumes (run : Consumes (.seq (lit '$') (plus (.set isHex))) n w rest c d) :
    ∃ digits, w = '$' :: digits ∧ ∀ c ∈ digits, isHex c = true := by
  obtain ⟨_,digits,_,rfl,dollar,run⟩ := consumesSeq run
  rw [litConsumes dollar]
  exact ⟨digits,rfl,(consumesPlus run).2.1⟩

theorem accumulatorConsumes (run : Consumes (.set fun c : Char => c.toLower == 'a') n w rest c d) :
    ∃ a, w = [a] ∧ EitherCase 'A' a := by
  obtain ⟨a,rfl,letter,_⟩ := consumesSet run
  exact ⟨a,rfl,eitherCase rfl (beq_iff_eq.mp letter)⟩

theorem commentConsumes (run : Consumes (.seq (lit ';') (.star dot)) n w rest c d) : CommentText w := by
  obtain ⟨_,words,_,rfl,semicolon,run⟩ := consumesSeq run
  rw [litConsumes semicolon]
  refine Or.inr ⟨words,rfl,fun c member => ?_⟩
  simpa using (consumesRun run).1 c member

theorem gapConsumes {tail : Regex Char} (run : Consumes (.seq (.alt (plus (.set isspace)) .eol) tail) n w [] c d) :
    ∃ gap v, w = gap ++ v ∧ Spaces gap ∧ (gap = [] → v = []) ∧
      ∃ e, Consumes (.alt (plus (.set isspace)) .eol) n gap v c e ∧ Consumes tail (n + gap.length) v [] e d := by
  obtain ⟨gap,v,e,rfl,first,second⟩ := consumesSeq run
  rw [List.append_nil] at first
  refine ⟨gap,v,rfl,?_,?_,e,first,second⟩
  · cases first with
    | left run => exact (consumesPlus run).2.1
    | right run => cases run; exact fun c member => absurd member (List.not_mem_nil)
  · rintro rfl
    cases first with
    | left run => exact absurd rfl (consumesPlus run).1
    | right run => cases run; rfl

theorem indexOutcome {m : Captures Char} {i j : Nat}
    (outcome : subMatch m i = [] ∧ (∀ k ∈ [j], m k = none) ∨
      ∃ b b', Consumes (.seq spaces (.seq (lit ',') (.seq spaces (.group j (.set isIndexLetter))))) n (subMatch m i)
        rest b b' ∧ ∀ k ∈ [j], m k = b' k) :
    IndexPiece (subMatch m i) (subMatch m j) := by
  rcases outcome with ⟨empty,uncaptured⟩ | ⟨_,_,run,kept⟩
  · rw [empty,subMatch,uncaptured j List.mem_cons_self]
    exact .absent
  · obtain ⟨before,after,x,ahead,behind,register,text,captured⟩ := indexConsumes run
    rw [text,subMatch,kept j List.mem_cons_self,captured]
    exact .written ahead behind register

end split

theorem matchSplits {s : List Char} {m : Captures Char} (found : lineRegex.fullMatch s = some m) :
    Pieces m ∧ ∃ lead gap trail, Spaces lead ∧ Spaces gap ∧ Spaces trail ∧
      s = lead ++ (subMatch m 1 ++ (gap ++ (operandPart m ++ (trail ++ subMatch m 12)))) ∧
      (gap = [] → operandPart m = [] ∧ trail = [] ∧ subMatch m 12 = []) := by
  have run := fullMatchConsumes found
  have fresh : Fresh lineRegex (fun _ => none) := ⟨by decide,fun _ _ => rfl⟩
  obtain ⟨_,_,_,rfl,bol,run⟩ := consumesSeq run
  replace fresh := freshRest fresh bol
  cases bol
  obtain ⟨lead,_,_,rfl,margin,run⟩ := consumesSeq run
  replace fresh := freshRest fresh margin
  obtain ⟨name,_,_,rfl,mnemonic,run⟩ := consumesSeq run
  have named : subMatch m 1 = name := by
    obtain ⟨_,_,rfl⟩ := consumesGroup mnemonic
    rw [subMatch,keptRest fresh run List.mem_cons_self,Function.update_self]
    rfl
  replace fresh := freshRest fresh mnemonic
  obtain ⟨gap,_,rfl,blank,only,_,alternative,run⟩ := gapConsumes run
  replace fresh := freshRest fresh alternative
  obtain ⟨_,_,rfl,fresh,run,opar⟩ := consumesOptGroup fresh run
  obtain ⟨_,_,rfl,fresh,run,imm⟩ := consumesOptGroup fresh run
  obtain ⟨_,_,rfl,fresh,run,val⟩ := consumesOptGroup fresh run
  obtain ⟨_,_,rfl,fresh,run,inner⟩ := consumesOptGroup fresh run
  obtain ⟨_,_,rfl,fresh,run,cpar⟩ := consumesOptGroup fresh run
  obtain ⟨_,_,rfl,fresh,run,outer⟩ := consumesOptGroup fresh run
  obtain ⟨_,_,rfl,fresh,run,rel⟩ := consumesOptGroup fresh run
  obtain ⟨_,_,rfl,fresh,run,rega⟩ := consumesOptGroup fresh run
  obtain ⟨trail,_,_,rfl,after,run⟩ := consumesSeq run
  replace fresh := freshRest fresh after
  obtain ⟨_,_,rfl,fresh,run,comment⟩ := consumesOptGroup fresh run
  cases run
  obtain ⟨_,run,_⟩ := consumesGroup mnemonic
  obtain ⟨some,letters,_⟩ := consumesPlus run
  refine ⟨{
    named := named ▸ some
    letters := named ▸ letters
    opar := opar.imp And.left fun ⟨_,_,run,_⟩ => litConsumes run
    imm := imm.imp And.left fun ⟨_,_,run,_⟩ => litConsumes run
    val := val.imp And.left fun ⟨_,_,run,_⟩ => hexConsumes run
    inner := indexOutcome inner
    cpar := cpar.imp And.left fun ⟨_,_,run,_⟩ => litConsumes run
    outer := indexOutcome outer
    rel := rel.imp And.left fun ⟨_,_,run,_⟩ => numberConsumes run
    rega := rega.imp And.left fun ⟨_,_,run,_⟩ => accumulatorConsumes run
    comment := ?_},lead,gap,trail,(consumesRun margin).1,blank,(consumesRun after).1,?_,?_⟩
  · rcases comment with ⟨empty,_⟩ | ⟨_,_,run,_⟩
    · exact Or.inl empty
    · exact commentConsumes run
  · rw [named]
    simp [operandPart,subMatch]
  · intro bare
    simpa [operandPart,subMatch,and_assoc] using only bare

/-! The classifier, mode by mode: which sub-matches are there, and what is in them. -/

structure Shape where
  opar : Bool := false
  imm : Bool := false
  width : Nat := 0
  inner : List Char := []
  cpar : Bool := false
  outer : List Char := []
  noRel : Bool := true
  rega : Bool := false
  deriving DecidableEq

def Fields.shape (f : Fields) : Shape := ⟨f.opar,f.imm,f.val.length,f.inner,f.cpar,f.outer,f.noRel,f.rega⟩

def AddressingType.shape : AddressingType → Option Shape
  | absolute => some {width := 5}
  | absoluteX => some {width := 5, inner := ['X']}
  | absoluteY => some {width := 5, inner := ['Y']}
  | accumulator => some {rega := true}
  | immediate => some {imm := true, width := 3}
  | implied => some {}
  | indirect => some {opar := true, width := 5, cpar := true}
  | indirectX => some {opar := true, width := 3, inner := ['X'], cpar := true}
  | indirectY => some {opar := true, width := 3, cpar := true, outer := ['Y']}
  | relative => some {noRel := false}
  | zeroPage => some {width := 3}
  | zeroPageX => some {width := 3, inner := ['X']}
  | zeroPageY => some {width := 3, inner := ['Y']}
  | unkown => none

theorem typeOfShape {f : Fields} {t : AddressingType} (shape : t.shape = some f.shape) : f.type = t := by
  cases t
  case unkown => contradiction
  all_goals
    simp only [AddressingType.shape,Fields.shape,Option.some.injEq,Shape.mk.injEq] at shape
    obtain ⟨opar,imm,width,inner,cpar,outer,rel,rega⟩ := shape
    simp only [Fields.type,Fields.zp,Fields.abs,Fields.noVal,Fields.noIdx,← opar,← imm,← width,← inner,← cpar,← outer,
      ← rel,← rega]
    rfl

theorem shapeOfType {f : Fields} (registers : f.inner = [] ∨ f.inner = ['X'] ∨ f.inner = ['Y'])
    (known : f.type ≠ .unkown) : f.type.shape = some f.shape := by
  obtain ⟨opar,eqOpar⟩ : ∃ b, f.opar = b := ⟨_,rfl⟩
  obtain ⟨imm,eqImm⟩ : ∃ b, f.imm = b := ⟨_,rfl⟩
  obtain ⟨rega,eqRega⟩ : ∃ b, f.rega = b := ⟨_,rfl⟩
  obtain ⟨noRel,eqNoRel⟩ : ∃ b, f.noRel = b := ⟨_,rfl⟩
  have balanced : f.opar = f.cpar := by
    by_contra apart
    exact known (by simp only [Fields.type,bne_iff_ne.mpr apart,if_true])
  simp only [Fields.type,balanced,bne_self_eq_false,Bool.false_eq_true,if_false] at known ⊢
  rw [balanced] at eqOpar
  -- What the flags allow leaves five cases: indirect, immediate, accumulator, relative and plain.
  cases opar <;> cases imm <;> cases rega <;> cases noRel <;>
    simp only [eqOpar,eqImm,eqRega,eqNoRel,if_true,Bool.false_eq_true,if_false,Bool.not_true,Bool.not_false,
      Bool.or_true,Bool.or_false,Bool.and_true,Bool.and_false,ne_eq,not_true] at known ⊢
  all_goals
    simp only [Fields.shape,eqOpar,eqImm,eqRega,eqNoRel,balanced]
    repeat' split at known
    all_goals simp_all [AddressingType.shape,Fields.zp,Fields.abs,Fields.noVal,Fields.noIdx]

/-! The operand the sub-matches of a classified line denote. -/

def Fields.value (f : Fields) (n : Nat) : BitVec n := BitVec.ofNat n (hexValue (f.val.drop 1))

def Fields.operand (f : Fields) : Option Operand :=
  match f.type with
  | .absolute => some (.absolute (f.value 16))
  | .absoluteX => some (.absoluteX (f.value 16))
  | .absoluteY => some (.absoluteY (f.value 16))
  | .accumulator => some .accumulator
  | .immediate => some (.immediate (f.value 8))
  | .implied => some .implied
  | .indirect => some (.indirect (f.value 16))
  | .indirectX => some (.indirectX (f.value 8))
  | .indirectY => some (.indirectY (f.value 8))
  | .relative => some (.relative (signedValue f.rel))
  | .zeroPage => some (.zeroPage (f.value 8))
  | .zeroPageX => some (.zeroPageX (f.value 8))
  | .zeroPageY => some (.zeroPageY (f.value 8))
  | .unkown => none

theorem operandMode {f : Fields} {o : Operand} (read : f.operand = some o) : f.type = o.mode := by
  unfold Fields.operand at read
  split at read <;> cases read
  all_goals assumption

theorem eitherUpper {register c : Char} (known : register = 'X' ∨ register = 'Y') (letter : EitherCase register c) :
    c.toUpper = register := by
  rcases known with rfl | rfl <;> rcases letter with rfl | rfl <;> decide

theorem indexPiece {whole reg : List Char} (piece : IndexPiece whole reg) :
    whole = [] ∧ uppercopy reg = [] ∨
      ∃ register, (register = 'X' ∨ register = 'Y') ∧ uppercopy reg = [register] ∧ IndexText register whole := by
  cases piece with
  | absent => exact Or.inl ⟨rfl,rfl⟩
  | written ahead behind letter =>
    rcases indexLetter letter with x | y
    · exact Or.inr ⟨'X',Or.inl rfl,congrArg (· :: []) (eitherUpper (Or.inl rfl) x),.intro ahead behind x⟩
    · exact Or.inr ⟨'Y',Or.inr rfl,congrArg (· :: []) (eitherUpper (Or.inr rfl) y),.intro ahead behind y⟩

/- What a match with the given shape captured. -/
structure Present (m : Captures Char) (s : Shape) : Prop where
  opar : subMatch m 2 = if s.opar then ['('] else []
  imm : subMatch m 3 = if s.imm then ['#'] else []
  noVal : s.width = 0 → subMatch m 4 = []
  val : ∀ n, s.width ≠ 0 → 4 * s.width = n + 4 →
    ∃ digits, subMatch m 4 = '$' :: digits ∧ HexText ((fields m).value n) digits
  noInner : s.inner = [] → subMatch m 5 = []
  inner : ∀ register, s.inner = [register] → IndexText register (subMatch m 5)
  cpar : subMatch m 7 = if s.cpar then [')'] else []
  noOuter : s.outer = [] → subMatch m 8 = []
  outer : ∀ register, s.outer = [register] → IndexText register (subMatch m 8)
  noRel : s.noRel = true → subMatch m 10 = []
  rel : s.noRel = false → NumberText (subMatch m 10)
  noRega : s.rega = false → subMatch m 11 = []
  rega : s.rega = true → ∃ c, subMatch m 11 = [c] ∧ EitherCase 'A' c

theorem litPresent {x : Char} {text : List Char} (piece : text = [] ∨ text = [x]) :
    text = if decide (0 < text.length) then [x] else [] := by
  rcases piece with rfl | rfl <;> rfl

theorem indexAbsent {whole reg : List Char} (piece : IndexPiece whole reg) (absent : uppercopy reg = []) : whole = [] := by
  rcases indexPiece piece with ⟨empty,_⟩ | ⟨register,_,upper,_⟩
  · exact empty
  · rw [absent] at upper
    contradiction

theorem indexPresent {whole reg : List Char} (piece : IndexPiece whole reg) (register : Char)
    (upper : uppercopy reg = [register]) : IndexText register whole := by
  rcases indexPiece piece with ⟨_,absent⟩ | ⟨_,_,same,text⟩
  · rw [absent] at upper
    contradiction
  · obtain rfl := List.singleton_inj.mp (same.symm.trans upper)
    exact text

theorem present {m : Captures Char} (pieces : Pieces m) : Present m (fields m).shape where
  opar := litPresent pieces.opar
  imm := litPresent pieces.imm
  noVal := List.eq_nil_of_length_eq_zero
  val n some wide := by
    rcases pieces.val with empty | ⟨digits,text,hex⟩
    · exact absurd (congrArg List.length empty) some
    · have width : (fields m).shape.width = digits.length + 1 := congrArg List.length text
      refine ⟨digits,text,by omega,hex,?_⟩
      simp only [Fields.value,fields,text,List.drop_succ_cons,List.drop_zero]
  noInner := indexAbsent pieces.inner
  inner := indexPresent pieces.inner
  cpar := litPresent pieces.cpar
  noOuter := indexAbsent pieces.outer
  outer := indexPresent pieces.outer
  noRel absent := List.eq_nil_of_length_eq_zero (beq_iff_eq.mp absent)
  rel some := pieces.rel.resolve_left fun empty => by
    simp [Fields.shape,Fields.noRel,fields,empty] at some
  noRega absent := List.eq_nil_of_length_eq_zero (by simpa [Fields.shape,fields] using absent)
  rega some := pieces.rega.resolve_left fun empty => by
    simp [Fields.shape,fields,empty] at some

theorem registersRead {m : Captures Char} (pieces : Pieces m) :
    (fields m).inner = [] ∨ (fields m).inner = ['X'] ∨ (fields m).inner = ['Y'] := by
  rcases indexPiece pieces.inner with ⟨_,absent⟩ | ⟨_,known,upper,_⟩
  · exact Or.inl absent
  · rcases known with rfl | rfl
    · exact Or.inr (Or.inl upper)
    · exact Or.inr (Or.inr upper)

/- The operand, with the pieces its shape has. -/
theorem Present.part {m : Captures Char} {s : Shape} (here : Present m s) :
    operandPart m = (if s.opar then ['('] else []) ++ ((if s.imm then ['#'] else []) ++
      ((if s.width = 0 then [] else subMatch m 4) ++ ((if s.inner = [] then [] else subMatch m 5) ++
        ((if s.cpar then [')'] else []) ++ ((if s.outer = [] then [] else subMatch m 8) ++
          ((if s.noRel then [] else subMatch m 10) ++ if s.rega then subMatch m 11 else [])))))) := by
  have val : subMatch m 4 = if s.width = 0 then [] else subMatch m 4 := by
    split_ifs with none
    · exact here.noVal none
    · rfl
  have inner : subMatch m 5 = if s.inner = [] then [] else subMatch m 5 := by
    split_ifs with none
    · exact here.noInner none
    · rfl
  have outer : subMatch m 8 = if s.outer = [] then [] else subMatch m 8 := by
    split_ifs with none
    · exact here.noOuter none
    · rfl
  have rel : subMatch m 10 = if s.noRel then [] else subMatch m 10 := by
    split_ifs with none
    · exact here.noRel none
    · rfl
  have rega : subMatch m 11 = if s.rega then subMatch m 11 else [] := by
    split_ifs with some
    · rfl
    · exact here.noRega (by simpa using some)
  rw [← here.opar,← here.imm,← val,← inner,← here.cpar,← outer,← rel,← rega]
  rfl

/- The pieces of a line the classifier has a mode for are an operand of that mode. -/
theorem operandSound {m : Captures Char} (pieces : Pieces m) {o : Operand} (read : (fields m).operand = some o) :
    OperandText o (operandPart m) := by
  have known : (fields m).type ≠ .unkown := by
    intro unknown
    simp [Fields.operand,unknown] at read
  have shape := shapeOfType (registersRead pieces) known
  have here := present pieces
  unfold Fields.operand at read
  split at read <;> rename_i type <;> cases read <;> rw [type] at shape <;>
    rw [← Option.some.inj shape] at here <;> rw [here.part]
  · obtain ⟨digits,text,hex⟩ := here.val 16 (by decide) rfl
    simpa [text] using OperandText.absolute hex
  · obtain ⟨digits,text,hex⟩ := here.val 16 (by decide) rfl
    simpa [text] using OperandText.absoluteX hex (here.inner 'X' rfl)
  · obtain ⟨digits,text,hex⟩ := here.val 16 (by decide) rfl
    simpa [text] using OperandText.absoluteY hex (here.inner 'Y' rfl)
  · obtain ⟨c,text,letter⟩ := here.rega rfl
    simpa [text] using OperandText.accumulator letter
  · obtain ⟨digits,text,hex⟩ := here.val 8 (by decide) rfl
    simpa [text] using OperandText.immediate hex
  · exact .implied
  · obtain ⟨digits,text,hex⟩ := here.val 16 (by decide) rfl
    simpa [text] using OperandText.indirect hex
  · obtain ⟨digits,text,hex⟩ := here.val 8 (by decide) rfl
    simpa [text] using OperandText.indirectX hex (here.inner 'X' rfl)
  · obtain ⟨digits,text,hex⟩ := here.val 8 (by decide) rfl
    simpa [text] using OperandText.indirectY hex (here.outer 'Y' rfl)
  · obtain ⟨sign,digits,text,signs,some,decimal⟩ := here.rel rfl
    rw [show (fields m).rel = sign ++ digits from text]
    simpa [text] using OperandText.relative signs some decimal
  · obtain ⟨digits,text,hex⟩ := here.val 8 (by decide) rfl
    simpa [text] using OperandText.zeroPage hex
  · obtain ⟨digits,text,hex⟩ := here.val 8 (by decide) rfl
    simpa [text] using OperandText.zeroPageX hex (here.inner 'X' rfl)
  · obtain ⟨digits,text,hex⟩ := here.val 8 (by decide) rfl
    simpa [text] using OperandText.zeroPageY hex (here.inner 'Y' rfl)

theorem spacesAppend {one other : List Char} (first : Spaces one) (second : Spaces other) : Spaces (one ++ other) := by
  intro c member
  rcases List.mem_append.mp member with h | h
  · exact first c h
  · exact second c h

theorem ltrimSplit (line : List Char) : ∃ margin, Spaces margin ∧ line = margin ++ ltrim line :=
  ⟨line.takeWhile isspace,fun _ member => List.mem_takeWhile_imp member,List.takeWhile_append_dropWhile.symm⟩

theorem emptyOperand {o : Operand} (text : OperandText o []) : o = .implied := by
  generalize empty : ([] : List Char) = t at text
  cases text with
  | implied => rfl
  | relative signs some decimal => exact absurd (List.append_eq_nil_iff.mp empty.symm).2 some
  | _ => simp at empty

theorem lineSound {line : List Char} {m : Captures Char} {o : Operand}
    (found : lineRegex.fullMatch (ltrim line) = some m) (read : (fields m).operand = some o) :
    LineText line (uppercopy (fields m).instr) o := by
  obtain ⟨pieces,lead,gap,trail,ahead,blank,after,split,bare⟩ := matchSplits found
  obtain ⟨margin,outside,whole⟩ := ltrimSplit line
  have operand := operandSound pieces read
  rw [whole,split,← List.append_assoc]
  by_cases empty : gap = []
  · obtain ⟨part,rfl,comment⟩ := bare empty
    rw [part] at operand
    rw [emptyOperand operand,empty,part,comment]
    simpa [fields] using LineText.bare (spacesAppend outside ahead) pieces.named pieces.letters
  · exact .full (spacesAppend outside ahead) pieces.named pieces.letters empty blank operand after pieces.comment

end Emu6502
