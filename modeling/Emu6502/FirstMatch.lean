import Mathlib.Tactic.IntervalCases
import Emu6502.LineParser

/-! The other half of the parser: on a line of the grammar the greedy choice at each
optional piece is the line's own reading, so the first match captures it. -/
namespace Emu6502
open Regex

def Avoids (p : Char → Bool) (text : List Char) : Prop := ∀ c ∈ text.head?, p c = false

@[simp] theorem avoidsNil (p : Char → Bool) : Avoids p [] := fun _ member => absurd member (by simp)

@[simp] theorem avoidsCons (p : Char → Bool) (c : Char) (rest : List Char) : Avoids p (c :: rest) ↔ p c = false := by
  simp [Avoids]

theorem avoidsSpaces {p : Char → Bool} {before rest : List Char} (ahead : Spaces before)
    (free : ∀ c, isspace c = true → p c = false) (next : Avoids p rest) : Avoids p (before ++ rest) := by
  cases before with
  | nil => exact next
  | cons c before => exact (avoidsCons p c _).mpr (free c (ahead c List.mem_cons_self))

theorem spaceFree {p : Char → Bool}
    (six : (p ' ' || p '\t' || p '\n' || p '\x0b' || p '\x0c' || p '\r') = false) :
    ∀ c, isspace c = true → p c = false := by
  simp only [Bool.or_eq_false_iff] at six
  intro c space
  rcases isspaceCases space with rfl | rfl | rfl | rfl | rfl | rfl
  all_goals tauto

/-! Each optional piece is taken where it is written and skipped where its first character
is missing. -/

def mark (c : Captures Char) (i : Nat) (v : List Char) : Captures Char :=
  if v = [] then c else Function.update c i (some v)

section pieces
variable {i : Nat} {r : Regex Char} {v rest : List Char} {c : Captures Char} {p : Char → Bool}

open LineRegex

theorem takePiece (plain : r.groups = []) (some : v ≠ []) (run : ∀ c, Takes r v rest c c) :
    Takes (.opt (.group i r)) v rest c (mark c i v) := by
  have whole := takesOpt (c := c) (takesGroup (i := i) (run _)) some
  have same : Function.update (c.clear (Regex.group i r).groups) i (.some v) = mark c i v := by
    funext j
    simp only [mark,if_neg some,Function.update_apply,Captures.clear,groups,plain,List.mem_singleton]
    split_ifs <;> rfl
  rwa [same] at whole

theorem skipOpt {r : Regex Char}
    (starts : ∀ n w rest' d d', Consumes r n w rest' d d' → ∃ a w', w = a :: w' ∧ p a = true)
    (avoids : Avoids p rest) : Takes (.opt r) [] rest c c := by
  refine takesSkip fun n w rest' d split run => ?_
  obtain ⟨a,w',rfl,first⟩ := starts _ _ _ _ _ run
  rw [split] at avoids
  rw [(avoidsCons p a _).mp avoids] at first
  contradiction

theorem skipPiece (starts : ∀ n w rest' d d', Consumes r n w rest' d d' → ∃ a w', w = a :: w' ∧ p a = true)
    (avoids : Avoids p rest) : Takes (.opt (.group i r)) [] rest c (mark c i []) := by
  refine skipOpt (fun n w rest' d d' run => ?_) avoids
  obtain ⟨_,inside,_⟩ := consumesGroup run
  exact starts _ _ _ _ _ inside

theorem litPiece {x : Char} (choice : v = [x] ∨ v = [] ∧ Avoids (· == x) rest) :
    Takes (.opt (.group i (lit x))) v rest c (mark c i v) := by
  rcases choice with rfl | ⟨rfl,avoids⟩
  · exact takePiece rfl (by simp) fun _ => takesSet (by simp)
  · exact skipPiece (fun _ _ _ _ _ run => ⟨x,[],litConsumes run,by simp⟩) avoids

theorem valPiece (choice : (∃ digits, v = '$' :: digits ∧ digits ≠ [] ∧ (∀ c ∈ digits, isHex c = true) ∧
      Avoids isHex rest) ∨
    v = [] ∧ Avoids (· == '$') rest) :
    Takes (.opt (.group i (.seq (lit '$') (plus (.set isHex))))) v rest c (mark c i v) := by
  rcases choice with ⟨digits,rfl,some,hex,ends⟩ | ⟨rfl,avoids⟩
  · exact takePiece rfl (by simp) fun _ => takesSeq (w := ['$']) (takesSet (by simp)) (takesPlus some hex ends)
  · refine skipPiece (fun _ _ _ _ _ run => ?_) avoids
    obtain ⟨digits,text,_⟩ := hexConsumes run
    exact ⟨'$',digits,text,by simp⟩

theorem signTakes {sign digits : List Char} (signs : sign = [] ∨ sign = ['+'] ∨ sign = ['-']) (some : digits ≠ [])
    (decimal : ∀ c ∈ digits, c.isDigit = true) :
    Takes (.opt (.alt (lit '+') (lit '-'))) sign (digits ++ rest) c c := by
  rcases signs with rfl | rfl | rfl
  · refine skipOpt (p := fun c => c == '+' || c == '-') (fun n w rest' d d' run => ?_) ?_
    · cases run with
      | left run => exact ⟨'+',[],litConsumes run,by decide⟩
      | right run => exact ⟨'-',[],litConsumes run,by decide⟩
    · cases digits with
      | nil => contradiction
      | cons a digits =>
        have digit := decimal a List.mem_cons_self
        refine (avoidsCons _ a _).mpr ?_
        by_contra sign
        simp only [Bool.not_eq_false,Bool.or_eq_true,beq_iff_eq] at sign
        rcases sign with rfl | rfl <;> contradiction
  · exact takesOpt (takesLeft (takesSet (by decide))) (by simp)
  · refine takesOpt (takesRight (fun n w rest' d split run => ?_) (takesSet (by decide))) (by simp)
    rw [litConsumes run] at split
    simp at split

theorem relPiece (choice : NumberText v ∧ Avoids Char.isDigit rest ∨
    v = [] ∧ Avoids (fun c => c == '+' || c == '-' || c.isDigit) rest) :
    Takes (.opt (.group i (.seq (.opt (.alt (lit '+') (lit '-'))) (plus (.set Char.isDigit))))) v rest c (mark c i v) := by
  rcases choice with ⟨⟨sign,digits,rfl,signs,some,decimal⟩,ends⟩ | ⟨rfl,avoids⟩
  · refine takePiece rfl (by simp [some]) fun _ => takesSeq (signTakes signs some decimal)
      (takesPlus some decimal ends)
  · refine skipPiece (fun _ _ _ _ _ run => ?_) avoids
    obtain ⟨sign,digits,rfl,signs,some,decimal⟩ := numberConsumes run
    rcases signs with rfl | rfl | rfl
    · obtain ⟨a,digits,rfl⟩ := List.exists_cons_of_ne_nil some
      exact ⟨a,digits,rfl,by simp [decimal a List.mem_cons_self]⟩
    · exact ⟨'+',digits,rfl,by decide⟩
    · exact ⟨'-',digits,rfl,by decide⟩

theorem regaPiece (choice : (∃ a, v = [a] ∧ EitherCase 'A' a) ∨ v = [] ∧ Avoids (fun c => c.toLower == 'a') rest) :
    Takes (.opt (.group i (.set fun c => c.toLower == 'a'))) v rest c (mark c i v) := by
  rcases choice with ⟨a,rfl,letter⟩ | ⟨rfl,avoids⟩
  · exact takePiece rfl (by simp) fun _ => takesSet (by rcases letter with rfl | rfl <;> decide)
  · refine skipPiece (fun _ _ _ _ _ run => ?_) avoids
    obtain ⟨a,rfl,lower,_⟩ := consumesSet run
    exact ⟨a,[],rfl,lower⟩

theorem commentPiece (text : CommentText v) :
    Takes (.opt (.group i (.seq (lit ';') (.star dot)))) v [] c (mark c i v) := by
  rcases text with rfl | ⟨words,rfl,plain⟩
  · refine skipPiece (p := (· == ';')) (fun _ _ _ _ _ run => ?_) (avoidsNil _)
    obtain ⟨_,w,_,rfl,semicolon,_⟩ := consumesSeq run
    exact ⟨';',w,by rw [litConsumes semicolon]; rfl,by simp⟩
  · exact takePiece rfl (by simp) fun _ => takesSeq (w := [';']) (takesSet (by simp))
      (takesRun (fun c member => by simpa using plain c member) (by simp))

def markIndex (c : Captures Char) (i j : Nat) (v reg : List Char) : Captures Char := mark (mark c j reg) i v

theorem indexTakes {whole letter : Nat} {reg : List Char} (choice : IndexPiece v reg ∧ v ≠ [] ∨
    v = [] ∧ reg = [] ∧ Avoids (· == ',') (rest.dropWhile isspace)) :
    Takes (index whole letter) v rest c (markIndex c whole letter v reg) := by
  rcases choice with ⟨piece,some⟩ | ⟨rfl,rfl,avoids⟩
  · cases piece with
    | absent => contradiction
    | @written before after a ahead behind register =>
      have visible : ∀ c ∈ ([a] ++ rest).head?, isspace c = false := by
        intro c same
        obtain rfl := Option.some.inj same
        rcases indexLetter register with letter | letter <;> rcases letter with rfl | rfl <;> decide
      have inside : ∀ c, Takes (.seq spaces (.seq (lit ',') (.seq spaces (.group letter (.set isIndexLetter)))))
          (before ++ ',' :: (after ++ [a])) rest c (Function.update c letter (.some [a])) := fun c =>
        takesSeq (takesRun ahead (by simp [isspace])) (takesSeq (w := [',']) (takesSet (by decide))
          (takesSeq (takesRun behind visible) (takesGroup (takesSet register))))
      have taken := takesOpt (c := c) (takesGroup (i := whole) (inside _)) some
      have same : Function.update (Function.update (c.clear [whole,letter]) letter (.some [a])) whole
          (.some (before ++ ',' :: (after ++ [a]))) = markIndex c whole letter (before ++ ',' :: (after ++ [a])) [a] := by
        funext j
        simp only [markIndex,mark,if_neg some,List.cons_ne_nil,if_false,Function.update_apply,Captures.clear,
          List.mem_cons,List.not_mem_nil,or_false]
        split_ifs <;> tauto
      rw [← same]
      exact taken
  · refine takesSkip fun n w rest' d split run => ?_
    obtain ⟨_,inside,_⟩ := consumesGroup run
    obtain ⟨before,after,a,ahead,_,_,rfl,_⟩ := indexConsumes inside
    rw [split,List.append_assoc,List.dropWhile_append_of_pos ahead] at avoids
    exact absurd ((avoidsCons _ ',' _).mp avoids) (by decide)

end pieces

/-! An operand laid out over the eight pieces. -/

structure Layout where
  opar : List Char := []
  imm : List Char := []
  val : List Char := []
  inner : List Char := []
  innerReg : List Char := []
  cpar : List Char := []
  outer : List Char := []
  outerReg : List Char := []
  rel : List Char := []
  rega : List Char := []

namespace Layout

def text (l : Layout) : List Char :=
  l.opar ++ (l.imm ++ (l.val ++ (l.inner ++ (l.cpar ++ (l.outer ++ (l.rel ++ l.rega))))))

def captures (l : Layout) (c : Captures Char) : Captures Char :=
  mark (mark (markIndex (mark (markIndex (mark (mark (mark c 2 l.opar) 3 l.imm) 4 l.val) 5 6 l.inner l.innerReg) 7 l.cpar)
    8 9 l.outer l.outerReg) 10 l.rel) 11 l.rega

def fields (l : Layout) (instr : List Char) : Fields where
  instr := instr
  opar := 0 < l.opar.length
  imm := 0 < l.imm.length
  val := l.val
  inner := uppercopy l.innerReg
  cpar := 0 < l.cpar.length
  outer := uppercopy l.outerReg
  rel := l.rel
  rega := 0 < l.rega.length

/- Ahead of tail, each piece is written where its first character is next. -/
structure Greedy (l : Layout) (tail : List Char) : Prop where
  opar : l.opar = ['('] ∨ l.opar = [] ∧
    Avoids (· == '(') (l.imm ++ (l.val ++ (l.inner ++ (l.cpar ++ (l.outer ++ (l.rel ++ (l.rega ++ tail)))))))
  imm : l.imm = ['#'] ∨ l.imm = [] ∧
    Avoids (· == '#') (l.val ++ (l.inner ++ (l.cpar ++ (l.outer ++ (l.rel ++ (l.rega ++ tail))))))
  val : (∃ digits, l.val = '$' :: digits ∧ digits ≠ [] ∧ (∀ c ∈ digits, isHex c = true) ∧
      Avoids isHex (l.inner ++ (l.cpar ++ (l.outer ++ (l.rel ++ (l.rega ++ tail)))))) ∨
    l.val = [] ∧ Avoids (· == '$') (l.inner ++ (l.cpar ++ (l.outer ++ (l.rel ++ (l.rega ++ tail)))))
  inner : IndexPiece l.inner l.innerReg ∧ l.inner ≠ [] ∨ l.inner = [] ∧ l.innerReg = [] ∧
    Avoids (· == ',') ((l.cpar ++ (l.outer ++ (l.rel ++ (l.rega ++ tail)))).dropWhile isspace)
  cpar : l.cpar = [')'] ∨ l.cpar = [] ∧ Avoids (· == ')') (l.outer ++ (l.rel ++ (l.rega ++ tail)))
  outer : IndexPiece l.outer l.outerReg ∧ l.outer ≠ [] ∨ l.outer = [] ∧ l.outerReg = [] ∧
    Avoids (· == ',') ((l.rel ++ (l.rega ++ tail)).dropWhile isspace)
  rel : NumberText l.rel ∧ Avoids Char.isDigit (l.rega ++ tail) ∨
    l.rel = [] ∧ Avoids (fun c => c == '+' || c == '-' || c.isDigit) (l.rega ++ tail)
  rega : (∃ a, l.rega = [a] ∧ EitherCase 'A' a) ∨ l.rega = [] ∧ Avoids (fun c => c.toLower == 'a') tail

end Layout

/- The end of a line: spaces, then the comment. -/
structure Remark (trail comment : List Char) : Prop where
  after : Spaces trail
  text : CommentText comment

/- A space is none of the characters that open a piece, and neither is the semicolon. -/
theorem remarkAvoids {trail comment : List Char} (remark : Remark trail comment) {p : Char → Bool}
    (free : ∀ c, isspace c = true → p c = false) (semicolon : p ';' = false) : Avoids p (trail ++ comment) := by
  refine avoidsSpaces remark.after free ?_
  rcases remark.text with rfl | ⟨words,rfl,_⟩
  · exact avoidsNil p
  · exact (avoidsCons p _ _).mpr semicolon

theorem layoutTakes {l : Layout} {trail comment : List Char} {c : Captures Char} (remark : Remark trail comment)
    (greedy : l.Greedy (trail ++ comment)) :
    Takes operandRegex (l.text ++ (trail ++ comment)) [] c (mark (l.captures c) 12 comment) := by
  have visible : ∀ a ∈ comment.head?, isspace a = false := by
    intro a first
    rcases remark.text with rfl | ⟨words,rfl,_⟩
    · contradiction
    · obtain rfl := Option.some.inj first
      decide
  have last := takesEnd (commentPiece (c := l.captures c) (i := 12) remark.text) takesEol
  rw [List.append_nil] at last
  have whole := takesEnd (litPiece greedy.opar) (takesEnd (litPiece greedy.imm) (takesEnd (valPiece greedy.val)
    (takesEnd (indexTakes greedy.inner) (takesEnd (litPiece greedy.cpar) (takesEnd (indexTakes greedy.outer)
      (takesEnd (relPiece greedy.rel) (takesEnd (regaPiece greedy.rega)
        (takesEnd (takesRun remark.after visible) last))))))))
  have split : l.text ++ (trail ++ comment) = l.opar ++ (l.imm ++ (l.val ++ (l.inner ++ (l.cpar ++ (l.outer ++
      (l.rel ++ (l.rega ++ (trail ++ comment)))))))) := by
    simp [Layout.text]
  rw [split]
  exact whole

theorem subMark (c : Captures Char) (i j : Nat) (v : List Char) :
    subMatch (mark c i v) j = if j = i ∧ v ≠ [] then v else subMatch c j := by
  unfold mark subMatch
  by_cases empty : v = []
  · simp [empty]
  · by_cases same : j = i <;> simp [empty,same]

theorem layoutFields (l : Layout) (name comment : List Char) :
    fields (mark (l.captures (Function.update (fun _ => none) 1 (some name))) 12 comment) = l.fields name := by
  have orNil : ∀ v : List Char, (if v = [] then [] else v) = v := fun v => by
    split_ifs with empty
    · exact empty.symm
    · rfl
  have first : ∀ i, subMatch (Function.update (fun _ => none) 1 (some name)) i = if i = 1 then name else [] := fun i => by
    by_cases one : i = 1 <;> simp [subMatch,one]
  simp [fields,Layout.fields,Layout.captures,markIndex,subMark,first,orNil]

/-! Every operand of the grammar has a greedy layout, and the classifier reads it back. -/

theorem hexSome {n : Nat} {v : BitVec n} {digits : List Char} (hex : HexText v digits) (positive : 0 < n) :
    digits ≠ [] := by
  rintro rfl
  have := hex.width
  simp at this
  omega

theorem hexByte {v : Uint8} {digits : List Char} (hex : HexText v digits) : digits.length = 2 := by
  have := hex.width
  omega

theorem hexWord {v : Uint16} {digits : List Char} (hex : HexText v digits) : digits.length = 4 := by
  have := hex.width
  omega

structure Written (register : Char) (index reg : List Char) : Prop where
  piece : IndexPiece index reg
  some : index ≠ []
  upper : uppercopy reg = [register]
  ends : ∀ rest, Avoids isHex (index ++ rest)

theorem indexWritten {register : Char} (known : register = 'X' ∨ register = 'Y') {index : List Char}
    (text : IndexText register index) : ∃ reg, Written register index reg := by
  obtain ⟨ahead,behind,letter⟩ := text
  refine ⟨[_],.written ahead behind ?_,by simp,congrArg (· :: []) (eitherUpper known letter),fun rest => ?_⟩
  · rcases known with rfl | rfl <;> rcases letter with rfl | rfl <;> decide
  · rw [List.append_assoc]
    exact avoidsSpaces ahead (spaceFree rfl) ((avoidsCons _ ',' _).mpr rfl)

theorem closeOutside : isHex ')' = false ∧ isspace ')' = false := ⟨rfl,rfl⟩

theorem digitCases {c : Char} (digit : c.isDigit = true) : c ∈ ['0','1','2','3','4','5','6','7','8','9'] := by
  simp only [Char.isDigit,Bool.and_eq_true,decide_eq_true_eq,ge_iff_le] at digit
  have low : 48 ≤ c.toNat := UInt32.le_iff_toNat_le.mp digit.1
  have high : c.toNat ≤ 57 := UInt32.le_iff_toNat_le.mp digit.2
  rw [← Char.ofNat_toNat c]
  interval_cases c.toNat <;> decide

def numberHeads : List Char := ['+','-','0','1','2','3','4','5','6','7','8','9']

theorem numberHead {text : List Char} (number : NumberText text) : ∃ a rest, text = a :: rest ∧ a ∈ numberHeads := by
  obtain ⟨sign,digits,rfl,signs,some,decimal⟩ := number
  rcases signs with rfl | rfl | rfl
  · obtain ⟨a,digits,rfl⟩ := List.exists_cons_of_ne_nil some
    exact ⟨a,digits,rfl,List.mem_append_right ['+','-'] (digitCases (decimal a List.mem_cons_self))⟩
  · exact ⟨'+',digits,rfl,by decide⟩
  · exact ⟨'-',digits,rfl,by decide⟩

theorem numberApart {a : Char} (head : a ∈ numberHeads) :
    (a == '(') = false ∧ (a == '#') = false ∧ (a == '$') = false ∧ (a == ',') = false ∧ (a == ')') = false ∧
      isspace a = false := by
  have each : numberHeads.all (fun c => decide ((c == '(') = false ∧ (c == '#') = false ∧ (c == '$') = false ∧
      (c == ',') = false ∧ (c == ')') = false ∧ isspace c = false)) = true := by decide
  exact of_decide_eq_true (List.all_eq_true.mp each a head)

/- What stops each piece at the end of the operand. -/
structure Stops (tail : List Char) : Prop where
  opar : Avoids (· == '(') tail
  imm : Avoids (· == '#') tail
  val : Avoids (· == '$') tail
  hex : Avoids isHex tail
  comma : Avoids (· == ',') (tail.dropWhile isspace)
  cpar : Avoids (· == ')') tail
  digit : Avoids Char.isDigit tail
  rel : Avoids (fun c => c == '+' || c == '-' || c.isDigit) tail
  rega : Avoids (fun c => c.toLower == 'a') tail

attribute [simp] Stops.opar Stops.imm Stops.val Stops.hex Stops.comma Stops.cpar Stops.digit Stops.rel Stops.rega

theorem remarkStops {trail comment : List Char} (remark : Remark trail comment) : Stops (trail ++ comment) where
  opar := remarkAvoids remark (spaceFree rfl) rfl
  imm := remarkAvoids remark (spaceFree rfl) rfl
  val := remarkAvoids remark (spaceFree rfl) rfl
  hex := remarkAvoids remark (spaceFree rfl) rfl
  comma := by
    rw [List.dropWhile_append_of_pos remark.after]
    rcases remark.text with rfl | ⟨words,rfl,_⟩
    · exact avoidsNil _
    · exact (avoidsCons _ ';' _).mpr rfl
  cpar := remarkAvoids remark (spaceFree rfl) rfl
  digit := remarkAvoids remark (spaceFree rfl) rfl
  rel := remarkAvoids remark (spaceFree rfl) rfl
  rega := remarkAvoids remark (spaceFree rfl) rfl

@[simp] theorem upperNil : uppercopy [] = [] := rfl

theorem layoutShape (l : Layout) (name : List Char) : (l.fields name).shape =
    ⟨0 < l.opar.length,0 < l.imm.length,l.val.length,uppercopy l.innerReg,0 < l.cpar.length,uppercopy l.outerReg,
      l.rel.length == 0,0 < l.rega.length⟩ := rfl

theorem greedyHex {n : Nat} {v : BitVec n} {digits tail : List Char} (hex : HexText v digits) (positive : 0 < n)
    (stops : Stops tail) : Layout.Greedy {val := '$' :: digits} tail := by
  have present := hexSome hex positive
  constructor <;> simp +contextual [stops,present,hex.hex]

theorem greedyIndexed {n : Nat} {v : BitVec n} {digits index reg tail : List Char} {register : Char} (hex : HexText v digits)
    (positive : 0 < n) (written : Written register index reg) (stops : Stops tail) :
    Layout.Greedy {val := '$' :: digits, inner := index, innerReg := reg} tail := by
  have present := hexSome hex positive
  constructor <;> simp +contextual [stops,present,hex.hex,written.piece,written.some,written.ends]

/-! The operands that are digits, and those that are digits and an index. -/

section digits
variable {n : Nat} {v : BitVec n} {digits : List Char} (mode : AddressingType) (make : BitVec n → Operand)
  (hex : HexText v digits) (positive : 0 < n)
include hex positive

theorem plainLayout (shape : mode.shape = some {width := digits.length + 1})
    (reads : ∀ f : Fields, f.type = mode → f.operand = some (make (f.value n))) :
    ∃ l : Layout, l.text = '$' :: digits ∧ (∀ tail, Stops tail → l.Greedy tail) ∧
      ∀ name, (l.fields name).operand = some (make v) := by
  refine ⟨{val := '$' :: digits},by simp [Layout.text],fun _ => greedyHex hex positive,fun name => ?_⟩
  have read : mode.shape = some (({val := '$' :: digits} : Layout).fields name).shape := shape
  rw [reads _ (typeOfShape read)]
  exact congrArg (fun v => some (make v)) hex.value

theorem indexedLayout {index reg : List Char} {register : Char} (written : Written register index reg)
    (shape : mode.shape = some {width := digits.length + 1, inner := [register]})
    (reads : ∀ f : Fields, f.type = mode → f.operand = some (make (f.value n))) :
    ∃ l : Layout, l.text = '$' :: digits ++ index ∧ (∀ tail, Stops tail → l.Greedy tail) ∧
      ∀ name, (l.fields name).operand = some (make v) := by
  refine ⟨{val := '$' :: digits, inner := index, innerReg := reg},by simp [Layout.text],
    fun _ => greedyIndexed hex positive written,fun name => ?_⟩
  rw [← written.upper] at shape
  have read : mode.shape =
      some (({val := '$' :: digits, inner := index, innerReg := reg} : Layout).fields name).shape := shape
  rw [reads _ (typeOfShape read)]
  exact congrArg (fun v => some (make v)) hex.value

end digits

theorem operandLayout {o : Operand} {text : List Char} (operand : OperandText o text) :
    ∃ l : Layout, l.text = text ∧ (∀ tail, Stops tail → l.Greedy tail) ∧ ∀ name, (l.fields name).operand = some o := by
  cases operand with
  | implied =>
    refine ⟨{},rfl,fun tail stops => ?_,fun name => ?_⟩
    · constructor <;> simp [stops]
    · rw [Fields.operand,typeOfShape (t := .implied) rfl]
  | @accumulator c letter =>
    refine ⟨{rega := [c]},rfl,fun tail stops => ?_,fun name => ?_⟩
    · rcases letter with rfl | rfl <;> constructor <;> simp [stops,EitherCase,isspace]
    · rw [Fields.operand,typeOfShape (t := .accumulator) rfl]
  | @immediate v digits hex =>
    have present := hexSome hex (by decide)
    refine ⟨{imm := ['#'], val := '$' :: digits},by simp [Layout.text],fun tail stops => ?_,fun name => ?_⟩
    · constructor <;> simp +contextual [stops,present,hex.hex]
    · rw [Fields.operand,typeOfShape (t := .immediate) (by simp [AddressingType.shape,layoutShape,hexByte hex])]
      exact congrArg _ (congrArg Operand.immediate hex.value)
  | zeroPage hex =>
    exact plainLayout .zeroPage .zeroPage hex (by decide) (by rw [hexByte hex]; rfl) fun _ type => by rw [Fields.operand,type]
  | absolute hex =>
    exact plainLayout .absolute .absolute hex (by decide) (by rw [hexWord hex]; rfl) fun _ type => by rw [Fields.operand,type]
  | zeroPageX hex x =>
    obtain ⟨reg,written⟩ := indexWritten (Or.inl rfl) x
    exact indexedLayout .zeroPageX .zeroPageX hex (by decide) written (by rw [hexByte hex]; rfl) fun _ type => by
      rw [Fields.operand,type]
  | zeroPageY hex y =>
    obtain ⟨reg,written⟩ := indexWritten (Or.inr rfl) y
    exact indexedLayout .zeroPageY .zeroPageY hex (by decide) written (by rw [hexByte hex]; rfl) fun _ type => by
      rw [Fields.operand,type]
  | absoluteX hex x =>
    obtain ⟨reg,written⟩ := indexWritten (Or.inl rfl) x
    exact indexedLayout .absoluteX .absoluteX hex (by decide) written (by rw [hexWord hex]; rfl) fun _ type => by
      rw [Fields.operand,type]
  | absoluteY hex y =>
    obtain ⟨reg,written⟩ := indexWritten (Or.inr rfl) y
    exact indexedLayout .absoluteY .absoluteY hex (by decide) written (by rw [hexWord hex]; rfl) fun _ type => by
      rw [Fields.operand,type]
  | @indirect v digits hex =>
    have present := hexSome hex (by decide)
    refine ⟨{opar := ['('], val := '$' :: digits, cpar := [')']},by simp [Layout.text],fun tail stops => ?_,fun name => ?_⟩
    · constructor <;> simp +contextual [stops,present,hex.hex,closeOutside]
    · rw [Fields.operand,typeOfShape (t := .indirect) (by simp [AddressingType.shape,layoutShape,hexWord hex])]
      exact congrArg _ (congrArg Operand.indirect hex.value)
  | @indirectX v digits index hex x =>
    have present := hexSome hex (by decide)
    obtain ⟨reg,written⟩ := indexWritten (Or.inl rfl) x
    refine ⟨{opar := ['('], val := '$' :: digits, inner := index, innerReg := reg, cpar := [')']},
      by simp [Layout.text],fun tail stops => ?_,fun name => ?_⟩
    · constructor <;> simp +contextual [stops,present,hex.hex,written.piece,written.some,written.ends,closeOutside]
    · rw [Fields.operand,typeOfShape (t := .indirectX) (by simp [AddressingType.shape,layoutShape,hexByte hex,written.upper])]
      exact congrArg _ (congrArg Operand.indirectX hex.value)
  | @indirectY v digits index hex y =>
    have present := hexSome hex (by decide)
    obtain ⟨reg,written⟩ := indexWritten (Or.inr rfl) y
    refine ⟨{opar := ['('], val := '$' :: digits, cpar := [')'], outer := index, outerReg := reg},
      by simp [Layout.text],fun tail stops => ?_,fun name => ?_⟩
    · constructor <;> simp +contextual [stops,present,hex.hex,written.piece,written.some,closeOutside]
    · rw [Fields.operand,typeOfShape (t := .indirectY) (by simp [AddressingType.shape,layoutShape,hexByte hex,written.upper])]
      exact congrArg _ (congrArg Operand.indirectY hex.value)
  | @relative sign digits signs some decimal =>
    have number : NumberText (sign ++ digits) := ⟨sign,digits,rfl,signs,some,decimal⟩
    refine ⟨{rel := sign ++ digits},by simp [Layout.text],fun tail stops => ?_,fun name => ?_⟩
    · obtain ⟨a,rest,text,first⟩ := numberHead number
      rw [text] at number ⊢
      obtain ⟨opar,imm,val,comma,cpar,space⟩ := numberApart first
      constructor <;> simp_all
    · rw [Fields.operand,typeOfShape (t := .relative) (by simp [AddressingType.shape,layoutShape,some])]
      rfl

/-! The whole line. -/

theorem letterVisible {c : Char} (letter : isLetter c = true) : isspace c = false := by
  by_contra space
  have space := isspaceCases (by simpa using space)
  rcases space with rfl | rfl | rfl | rfl | rfl | rfl <;> contradiction

theorem spaceNoLetter {c : Char} (space : isspace c = true) : isLetter c = false := by
  by_contra letter
  rw [letterVisible (by simpa using letter)] at space
  contradiction

theorem operandVisible {o : Operand} {text : List Char} (operand : OperandText o text) :
    o = .implied ∧ text = [] ∨ text ≠ [] ∧ ∀ rest, Avoids isspace (text ++ rest) := by
  cases operand with
  | implied => exact Or.inl ⟨rfl,rfl⟩
  | accumulator letter => exact Or.inr ⟨by simp,by rcases letter with rfl | rfl <;> simp [isspace]⟩
  | @relative sign digits signs some decimal =>
    obtain ⟨a,rest,text,first⟩ := numberHead ⟨sign,digits,rfl,signs,some,decimal⟩
    obtain ⟨_,_,_,_,_,space⟩ := numberApart first
    rw [text]
    exact Or.inr ⟨by simp,fun _ => (avoidsCons _ a _).mpr space⟩
  | _ => exact Or.inr ⟨by simp,fun _ => (avoidsCons _ _ _).mpr rfl⟩

section line
variable {lead mnemonic : List Char}

theorem ltrimLine (margin : Spaces lead) (named : mnemonic ≠ []) (letters : ∀ c ∈ mnemonic, isLetter c = true)
    (rest : List Char) : ltrim (lead ++ (mnemonic ++ rest)) = mnemonic ++ rest := by
  rw [ltrim,List.dropWhile_append_of_pos margin]
  cases mnemonic with
  | nil => contradiction
  | cons c mnemonic => simp [letterVisible (letters c List.mem_cons_self)]

theorem mnemonicTakes (named : mnemonic ≠ []) (letters : ∀ c ∈ mnemonic, isLetter c = true) {body : List Char}
    (ends : Avoids isLetter body) {tail : Regex Char} {d : Captures Char}
    (more : Takes tail body [] (Function.update (fun _ => none) 1 (some mnemonic)) d) :
    Takes (.seq LineRegex.spaces (.seq (.group 1 (plus (.set isLetter))) tail)) (mnemonic ++ body) [] (fun _ => none) d := by
  have visible : ∀ a ∈ (mnemonic ++ body).head?, isspace a = false := by
    cases mnemonic with
    | nil => contradiction
    | cons c mnemonic =>
      intro a first
      obtain rfl := Option.some.inj first
      exact letterVisible (letters c List.mem_cons_self)
  exact takesEnd (w := []) (takesRun (by simp) visible) (takesEnd (takesGroup (takesPlus named letters ends)) more)

/- A line whose gap is all of the space after the mnemonic: what is captured does not
depend on how it is spaced, or on the comment. -/
theorem gapMatches {text : List Char} {o : Operand} (named : mnemonic ≠ [])
    (letters : ∀ c ∈ mnemonic, isLetter c = true) (operand : OperandText o text) :
    ∃ f : Fields, f.instr = mnemonic ∧ f.operand = some o ∧
      ∀ gap trail comment, gap ≠ [] → Spaces gap → Remark trail comment → Avoids isspace (text ++ (trail ++ comment)) →
        ∃ m, lineRegex.fullMatch (mnemonic ++ (gap ++ (text ++ (trail ++ comment)))) = some m ∧ fields m = f := by
  obtain ⟨l,rfl,greedy,reads⟩ := operandLayout operand
  refine ⟨l.fields mnemonic,rfl,reads mnemonic,fun gap trail comment gapped blank remark visible => ?_⟩
  have letterless : Avoids isLetter (gap ++ (l.text ++ (trail ++ comment))) := by
    cases gap with
    | nil => contradiction
    | cons c gap => exact (avoidsCons _ c _).mpr (spaceNoLetter (blank c List.mem_cons_self))
  have body := layoutTakes (c := Function.update (fun _ => none) 1 (some mnemonic)) remark (greedy _ (remarkStops remark))
  have ending : ∀ c, Takes (.alt (plus (.set isspace)) .eol) gap (l.text ++ (trail ++ comment)) c c := fun c =>
    takesLeft (takesPlus gapped blank visible)
  exact ⟨_,fullMatchTakes (mnemonicTakes named letters letterless (takesEnd (ending _) body)),layoutFields l mnemonic comment⟩

theorem bareMatches (named : mnemonic ≠ []) (letters : ∀ c ∈ mnemonic, isLetter c = true) :
    ∃ m, lineRegex.fullMatch mnemonic = some m ∧ (fields m).instr = mnemonic ∧ (fields m).operand = some .implied := by
  have remark : Remark [] [] := ⟨fun c member => absurd member List.not_mem_nil,Or.inl rfl⟩
  obtain ⟨l,text,greedy,reads⟩ := operandLayout .implied
  have ending : ∀ c, Takes (.alt (plus (.set isspace)) .eol) [] ([] : List Char) c c := fun c => by
    refine takesRight (fun n w rest d split run => ?_) takesEol
    have empty := (List.append_eq_nil_iff.mp split.symm).1
    exact absurd empty (consumesPlus run).1
  have operand := layoutTakes (c := Function.update (fun _ => none) 1 (some mnemonic)) remark (greedy _ (remarkStops remark))
  rw [text] at operand
  have whole := mnemonicTakes named letters (avoidsNil _) (takesEnd (ending _) operand)
  rw [List.append_nil] at whole
  refine ⟨_,fullMatchTakes whole,?_,?_⟩
  · rw [layoutFields]
    rfl
  · rw [layoutFields]
    exact reads mnemonic

/- A line with a gap, under every comment. -/
theorem fullComplete {gap text trail : List Char} {o : Operand} (margin : Spaces lead) (named : mnemonic ≠ [])
    (letters : ∀ c ∈ mnemonic, isLetter c = true) (gapped : gap ≠ []) (blank : Spaces gap)
    (operand : OperandText o text) (after : Spaces trail) :
    ∃ f : Fields, f.instr = mnemonic ∧ f.operand = some o ∧ ∀ comment, CommentText comment →
      ∃ m, lineRegex.fullMatch (ltrim (lead ++ (mnemonic ++ (gap ++ (text ++ (trail ++ comment)))))) = some m ∧
        fields m = f := by
  obtain ⟨f,instr,read,found⟩ := gapMatches named letters operand
  refine ⟨f,instr,read,fun comment remark => ?_⟩
  rw [ltrimLine margin named letters]
  rcases operandVisible operand with ⟨rfl,rfl⟩ | ⟨_,visible⟩
  · have visible : Avoids isspace comment := by
      rcases remark with rfl | ⟨words,rfl,_⟩
      · exact avoidsNil _
      · exact (avoidsCons _ ';' words).mpr rfl
    have short : Remark [] comment := ⟨fun c member => absurd member List.not_mem_nil,remark⟩
    have matched := found (gap ++ trail) [] comment (by simp [gapped]) (spacesAppend blank after) short visible
    simpa using matched
  · exact found gap trail comment gapped blank ⟨after,remark⟩ (visible _)

end line

theorem lineComplete {line name : List Char} {o : Operand} (text : LineText line name o) :
    ∃ m, lineRegex.fullMatch (ltrim line) = some m ∧ uppercopy (fields m).instr = name ∧
      (fields m).operand = some o := by
  cases text with
  | @bare lead mnemonic margin named letters =>
    obtain ⟨m,found,instr,read⟩ := bareMatches named letters
    have trimmed := ltrimLine margin named letters []
    rw [List.append_nil] at trimmed
    rw [trimmed]
    exact ⟨m,found,congrArg uppercopy instr,read⟩
  | full margin named letters gapped blank operand after remark =>
    obtain ⟨f,instr,read,each⟩ := fullComplete margin named letters gapped blank operand after
    obtain ⟨m,found,rfl⟩ := each _ remark
    exact ⟨m,found,congrArg uppercopy instr,read⟩

end Emu6502
