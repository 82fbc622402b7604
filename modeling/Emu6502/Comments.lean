import Emu6502.SourceRoundTrip

/-! Comments. A semicolon and what follows it change nothing about a line, except where the
semicolon stands right behind a mnemonic: the regular expression wants space there, or the
end of the line. -/
namespace Emu6502

theorem semicolonFree {p : Char → Bool} (free : p ';' = false) {text : List Char} (each : ∀ c ∈ text, p c = true) :
    ';' ∉ text := by
  intro member
  rw [each _ member] at free
  contradiction

theorem spacesPlain {text : List Char} (blank : Spaces text) : ';' ∉ text := semicolonFree rfl blank

theorem hexPlain {n : Nat} {v : BitVec n} {digits : List Char} (hex : HexText v digits) : ';' ∉ digits :=
  semicolonFree rfl hex.hex

theorem indexPlain {register : Char} (known : register = 'X' ∨ register = 'Y') {index : List Char}
    (text : IndexText register index) : ';' ∉ index := by
  obtain ⟨ahead,behind,letter⟩ := text
  have before := spacesPlain ahead
  have after := spacesPlain behind
  rcases known with rfl | rfl <;> rcases letter with rfl | rfl <;> simp [before,after]

theorem operandPlain {o : Operand} {text : List Char} (operand : OperandText o text) : ';' ∉ text := by
  cases operand with
  | implied => exact List.not_mem_nil
  | accumulator letter => rcases letter with rfl | rfl <;> decide
  | immediate hex | zeroPage hex | absolute hex | indirect hex => simp [hexPlain hex]
  | zeroPageX hex x | absoluteX hex x | indirectX hex x => simp [hexPlain hex,indexPlain (Or.inl rfl) x]
  | zeroPageY hex y | absoluteY hex y | indirectY hex y => simp [hexPlain hex,indexPlain (Or.inr rfl) y]
  | relative signs some decimal =>
    have digits := semicolonFree rfl decimal
    rcases signs with rfl | rfl | rfl <;> simp [digits]

theorem firstSemicolon {text : List Char} (plain : ';' ∉ text) (words : List Char) :
    (text ++ ';' :: words).takeWhile (· != ';') = text := by
  have before : ∀ c ∈ text, (c != ';') = true := fun c member =>
    bne_iff_ne.mpr fun same => plain (same ▸ member)
  rw [List.takeWhile_append_of_pos before]
  simp

theorem semicolonSplit {one other words words' : List Char} (plain : ';' ∉ one) (plain' : ';' ∉ other)
    (same : one ++ ';' :: words = other ++ ';' :: words') : one = other := by
  rw [← firstSemicolon plain words,same,firstSemicolon plain' words']

inductive BareText : List Char → List Char → Prop where
  | intro {lead mnemonic} (margin : Spaces lead) (some : mnemonic ≠ []) (letters : ∀ c ∈ mnemonic, isLetter c = true) :
      BareText (lead ++ mnemonic) (uppercopy mnemonic)

inductive GappedText : List Char → List Char → Operand → Prop where
  | intro {lead mnemonic gap text trail o} (margin : Spaces lead) (some : mnemonic ≠ [])
      (letters : ∀ c ∈ mnemonic, isLetter c = true) (gapped : gap ≠ []) (blank : Spaces gap)
      (operand : OperandText o text) (after : Spaces trail) :
      GappedText (lead ++ (mnemonic ++ (gap ++ (text ++ trail)))) (uppercopy mnemonic) o

section text
variable {line name comment : List Char} {o : Operand}

theorem gappedPlain (gapped : GappedText line name o) : ';' ∉ line := by
  cases gapped with
  | intro margin some letters gapped blank operand after =>
    have mnemonic := semicolonFree rfl letters
    simp [spacesPlain margin,mnemonic,spacesPlain blank,operandPlain operand,spacesPlain after]

theorem textCases (text : LineText line name o) :
    BareText line name ∧ o = .implied ∨
      ∃ front comment, line = front ++ comment ∧ GappedText front name o ∧ CommentText comment := by
  cases text with
  | bare margin some letters => exact Or.inl ⟨.intro margin some letters,rfl⟩
  | full margin some letters gapped blank operand after remark =>
    refine Or.inr ⟨_,_,?_,.intro margin some letters gapped blank operand after,remark⟩
    simp only [List.append_assoc]

theorem bareChars (bare : BareText line name) : ∀ c ∈ line, (isspace c || isLetter c) = true := by
  cases bare with
  | intro margin _ letters =>
    intro c member
    rw [Bool.or_eq_true]
    exact (List.mem_append.mp member).imp (margin c) (letters c)

theorem barePlain (bare : BareText line name) : ';' ∉ line := semicolonFree rfl (bareChars bare)

theorem plainCases (plain : ';' ∉ line) (text : LineText line name o) :
    BareText line name ∧ o = .implied ∨ GappedText line name o := by
  rcases textCases text with bare | ⟨front,comment,rfl,gapped,remark⟩
  · exact Or.inl bare
  · rcases remark with rfl | ⟨words,rfl,_⟩
    · rw [List.append_nil]
      exact Or.inr gapped
    · simp at plain

theorem bareLine (bare : BareText line name) : LineText line name .implied := by
  cases bare with
  | intro margin some letters => exact .bare margin some letters

theorem remarkCases (plain : ';' ∉ line) {words : List Char} (text : LineText (line ++ ';' :: words) name o) :
    GappedText line name o := by
  have semicolon : ';' ∈ line ++ ';' :: words := List.mem_append_right line List.mem_cons_self
  rcases textCases text with ⟨bare,_⟩ | ⟨front,comment,split,gapped,remark⟩
  · exact absurd semicolon (barePlain bare)
  · have clean := gappedPlain gapped
    rcases remark with rfl | ⟨words',rfl,_⟩
    · rw [split,List.append_nil] at semicolon
      contradiction
    · rw [semicolonSplit plain clean split]
      exact gapped

theorem bareApart (bare : BareText line name) {name' : List Char} (gapped : GappedText line name' o) : False := by
  generalize spelled : line = text at bare
  cases bare with
  | @intro lead mnemonic margin named letters =>
    cases gapped with
    | intro margin' named' letters' gapped blank operand after =>
      have trimmed := ltrimLine margin named letters []
      rw [List.append_nil,← spelled,ltrimLine margin' named' letters'] at trimmed
      obtain ⟨c,rest,rfl⟩ := List.exists_cons_of_ne_nil gapped
      have letter : isLetter c = true := letters c (by simp [← trimmed])
      rw [spaceNoLetter (blank c List.mem_cons_self)] at letter
      contradiction

theorem blankRemark (plain : ';' ∉ line) (words : List Char) : skipped (line ++ ';' :: words) = skipped line := by
  rw [Bool.eq_iff_iff,skippedIff,skippedIff]
  constructor
  · rintro ⟨margin,rest,split,blank,rfl | ⟨words',rfl⟩⟩
    · have semicolon : ';' ∈ line ++ ';' :: words := List.mem_append_right line List.mem_cons_self
      rw [split,List.append_nil] at semicolon
      exact absurd semicolon (spacesPlain blank)
    · exact ⟨margin,[],by rw [List.append_nil,semicolonSplit plain (spacesPlain blank) split],blank,Or.inl rfl⟩
  · rintro ⟨margin,rest,rfl,blank,rfl | ⟨words',rfl⟩⟩
    · exact ⟨margin,';' :: words,by rw [List.append_nil],blank,Or.inr ⟨words,rfl⟩⟩
    · simp at plain

end text

section compile
variable (beyond : List Char → BitVec 32) {line : List Char}

theorem gappedSelect {name comment : List Char} {o : Operand} (gapped : GappedText line name o)
    (remark : CommentText comment) : selectInstr beyond (line ++ comment) = selectInstr beyond line := by
  cases gapped with
  | @intro lead mnemonic gap text trail _ margin some letters gapped blank operand after =>
    obtain ⟨f,_,_,each⟩ := fullComplete margin some letters gapped blank operand after
    obtain ⟨m,found,same⟩ := each comment remark
    obtain ⟨m',found',same'⟩ := each [] (Or.inl rfl)
    rw [List.append_nil] at found'
    simp only [← List.append_assoc] at found
    simp only [← List.append_assoc] at found' ⊢
    rw [selectMatch beyond found,selectMatch beyond found',same,same']

/- The lines of an implied instruction's mnemonic and nothing else, not even a space after it. -/
def BareImplied (line : List Char) : Prop := ∃ d ∈ documentedSet, d.mode = .implied ∧ BareText line d.name

theorem remarkBytes (plain : ';' ∉ line) {words : List Char} (oneLine : ∀ c ∈ words, c ≠ '\n' ∧ c ≠ '\r')
    (roomy : ¬ BareImplied line) : lineBytes beyond (line ++ ';' :: words) = lineBytes beyond line := by
  by_cases shape : ∃ name o, GappedText line name o
  · obtain ⟨name,o,gapped⟩ := shape
    rw [lineBytes,lineBytes,blankRemark plain,gappedSelect beyond gapped (Or.inr ⟨words,rfl,oneLine⟩)]
  · cases blank : skipped line with
    | true => rw [lineBytes,lineBytes,blankRemark plain,blank,if_pos rfl,if_pos rfl]
    | false =>
      have refused : ¬ lineBytes beyond line ≠ none := by
        rw [lineAccepted beyond line blank]
        rintro ⟨d,documented,o,mode,text⟩
        rcases plainCases plain text with ⟨bare,rfl⟩ | gapped
        · exact roomy ⟨d,documented,mode,bare⟩
        · exact shape ⟨_,_,gapped⟩
      have refused' : ¬ lineBytes beyond (line ++ ';' :: words) ≠ none := by
        rw [lineAccepted beyond _ ((blankRemark plain words).trans blank)]
        rintro ⟨d,_,o,_,text⟩
        exact shape ⟨_,_,remarkCases plain text⟩
      rw [not_not.mp refused,not_not.mp refused']

theorem bareBytes (bare : BareImplied line) (words : List Char) :
    lineBytes beyond line ≠ none ∧ lineBytes beyond (line ++ ';' :: words) = none := by
  obtain ⟨d,documented,implied,bareText⟩ := bare
  have plain := barePlain bareText
  have mode : d.mode = Operand.implied.mode := implied
  have text : LineText line d.name .implied := bareLine bareText
  have live := textLive text
  refine ⟨(lineAccepted beyond line live).mpr ⟨d,documented,_,mode,text⟩,?_⟩
  by_contra accepted
  obtain ⟨d',_,o,_,remarked⟩ := (lineAccepted beyond _ ((blankRemark plain words).trans live)).mp accepted
  exact bareApart bareText (remarkCases plain remarked)

/- A line counts in a program through what it encodes to. -/
theorem compileSame {line line' : List Char} (same : lineBytes beyond line = lineBytes beyond line') (base : Uint16)
    (before after : List (List Char)) :
    compile beyond base (before ++ line :: after) = compile beyond base (before ++ line' :: after) := by
  have each : ∀ index e, compileFrom beyond index (before ++ line :: after) e =
      compileFrom beyond index (before ++ line' :: after) e := by
    induction before with
    | nil =>
      intro index e
      rw [List.nil_append,List.nil_append,compileLine,compileLine,same]
    | cons first before ih =>
      intro index e
      rw [List.cons_append,List.cons_append,compileLine,compileLine]
      cases lineBytes beyond first with
      | none => rfl
      | some bytes => exact ih _ _
  rw [compile,compile,each]

/- In every position of every program the line counts the same with the comment as without. -/
def Ignores (line words : List Char) : Prop :=
  ∀ base before after, compile beyond base (before ++ (line ++ ';' :: words) :: after) =
    compile beyond base (before ++ line :: after)

theorem commentIgnoredIff {words : List Char} (plain : ';' ∉ line) (oneLine : ∀ c ∈ words, c ≠ '\n' ∧ c ≠ '\r') :
    Ignores beyond line words ↔ ¬ BareImplied line := by
  constructor
  · intro ignored bare
    obtain ⟨accepted,refused⟩ := bareBytes beyond bare words
    obtain ⟨image,returned⟩ := (compileSingle beyond 0 line).mpr accepted
    have commented := (compileSingle beyond 0 (line ++ ';' :: words)).mp ⟨image,(ignored 0 [] []).trans returned⟩
    exact commented refused
  · intro roomy base before after
    exact compileSame beyond (remarkBytes beyond plain oneLine roomy) base before after

end compile

theorem commentedLoad : Ignores (fun _ => 0) "lda #$01".toList " one".toList := by
  have roomy : ¬ BareImplied "lda #$01".toList := by
    rintro ⟨d,_,_,bare⟩
    exact absurd (bareChars bare '#' (by decide)) (by decide)
  have plain : ';' ∉ "lda #$01".toList := by decide
  have oneLine : ∀ c ∈ [' ','o','n','e'], c ≠ '\n' ∧ c ≠ '\r' := by simp
  exact (commentIgnoredIff (fun _ => 0) plain oneLine).mpr roomy

/- nop;x is a syntax error, and nop is not. -/
theorem commentBreaksNop :
    (∃ image, compile (fun _ => 0) 0x0400 ["nop".toList] = .ok image) ∧
      compile (fun _ => 0) 0x0400 ["nop;x".toList] = .error ⟨1⟩ ∧ ¬ Ignores (fun _ => 0) "nop".toList "x".toList := by
  have alone : lineBytes (fun _ => 0) "nop".toList = some [0xea] := rfl
  have commented : lineBytes (fun _ => 0) "nop;x".toList = none := rfl
  have accepted := (compileSingle (fun _ => 0) 0x0400 "nop".toList).mpr (by rw [alone]; exact Option.some_ne_none _)
  have first : FirstRejected (fun _ => 0) ["nop;x".toList] 0 := ⟨[],"nop;x".toList,[],rfl,rfl,by simp,commented⟩
  refine ⟨accepted,compileError (fun _ => 0) first 0x0400,fun ignored => ?_⟩
  obtain ⟨image,returned⟩ := accepted
  have same := (ignored 0x0400 [] []).trans returned
  exact (compileSingle (fun _ => 0) 0x0400 "nop;x".toList).mp ⟨image,same⟩ commented

end Emu6502
