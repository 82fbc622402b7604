import Emu6502.SourceRoundTrip

/-! Branch displacements. The grammar takes a decimal number of any length, and the emitter
writes the low byte of whatever atoi made of it. -/
namespace Emu6502

section branch
variable (beyond : List Char → BitVec 32)

/- A program with the line in it is rejected, or has the branch and the displacement as
written where the line stands. -/
def ExactBranch (opcode : Uint8) (displacement : Int) (line : List Char) : Prop :=
  ∀ base before after,
    (∃ e, compile beyond base (before ++ line :: after) = .error e) ∨
    ∃ pre byte post, program beyond before = some pre ∧ program beyond after = some post ∧
      compile beyond base (before ++ line :: after) = .ok (imageOf base (pre ++ opcode :: byte :: post)) ∧
      byte.toInt = displacement

variable {d : Documented} {displacement : Int} {line : List Char}

theorem exactInRange (documented : d ∈ documentedSet) (branch : d.mode = .relative)
    (text : LineText line d.name (.relative displacement)) (near : (Operand.relative displacement).Near) :
    ExactBranch beyond d.opcode displacement line := by
  intro base before after
  rcases acceptedOrRejected beyond (before ++ line :: after) with ⟨whole,accepted⟩ | ⟨k,rejected⟩
  · obtain ⟨pre,bytes,post,earlier,here,later,rfl⟩ := programAround beyond accepted
    have mode : d.mode = (Operand.relative displacement).mode := branch
    have encoded := textBytes beyond documented mode text (nearFits near)
    obtain rfl := Option.some.inj (here.symm.trans encoded)
    refine Or.inr ⟨pre,BitVec.ofInt 8 displacement,post,earlier,later,compileImage beyond accepted base,?_⟩
    exact BitVec.toInt_ofInt_eq_self (by decide) near.1 near.2
  · exact Or.inl ⟨_,compileError beyond rejected base⟩

theorem aloneAccepted (documented : d ∈ documentedSet) (branch : d.mode = .relative)
    (text : LineText line d.name (.relative displacement)) (base : Uint16) :
    ∃ image, compile beyond base [line] = .ok image := by
  have mode : d.mode = (Operand.relative displacement).mode := branch
  refine (compileSingle beyond base line).mpr ?_
  exact (lineAccepted beyond line (textLive text)).mpr ⟨d,documented,_,mode,text⟩

theorem exactBranchIff (documented : d ∈ documentedSet) (branch : d.mode = .relative)
    (text : LineText line d.name (.relative displacement)) :
    ExactBranch beyond d.opcode displacement line ↔ -128 ≤ displacement ∧ displacement ≤ 127 := by
  constructor
  · intro written
    obtain ⟨image,returned⟩ := aloneAccepted beyond documented branch text 0
    rcases written 0 [] [] with ⟨e,thrown⟩ | ⟨pre,byte,post,_,_,_,rfl⟩
    · rw [List.nil_append,returned] at thrown
      contradiction
    · have low := byte.le_toInt
      have high := byte.toInt_lt
      omega
  · rintro ⟨low,high⟩
    exact exactInRange beyond documented branch text ⟨low,by omega⟩

end branch

theorem farthestBack : ExactBranch (fun _ => 0) 0x10 (-128) "bpl -128".toList := by
  have letters : ∀ c ∈ ['b','p','l'], isLetter c = true := List.all_eq_true.mp rfl
  have decimal : ∀ c ∈ ['1','2','8'], c.isDigit = true := List.all_eq_true.mp rfl
  have blank : Spaces [' '] := by simp [Spaces,isspace]
  have number : OperandText (.relative (-128)) ['-','1','2','8'] :=
    .relative (Or.inr (Or.inr rfl)) (List.cons_ne_nil '1' _) decimal
  have text : LineText "bpl -128".toList "BPL".toList (.relative (-128)) :=
    LineText.full spacesNil (List.cons_ne_nil 'b' _) letters (List.cons_ne_nil ' ' []) blank number spacesNil (Or.inl rfl)
  have documented : ⟨"BPL".toList,.relative,0x10⟩ ∈ documentedSet := by decide
  exact (exactBranchIff (fun _ => 0) documented rfl text).mpr ⟨by decide,by decide⟩

/- bne 200 goes back by 56. -/
theorem branchTooFar :
    compile (fun _ => 0) 0x0400 ["bne 200".toList] = .ok (imageOf 0x0400 [0xd0,0xc8]) ∧ (0xc8 : Uint8).toInt = -56 ∧
      ¬ ExactBranch (fun _ => 0) 0xd0 200 "bne 200".toList := by
  have encoded : program (fun _ => 0) ["bne 200".toList] = some [0xd0,0xc8] := rfl
  refine ⟨compileImage (fun _ => 0) encoded 0x0400,by decide,fun written => ?_⟩
  obtain ⟨image,returned⟩ : ∃ image, compile (fun _ => 0) 0x0400 ["bne 200".toList] = .ok image :=
    ⟨_,compileImage (fun _ => 0) encoded 0x0400⟩
  rcases written 0x0400 [] [] with ⟨e,thrown⟩ | ⟨pre,byte,post,_,_,_,far⟩
  · rw [List.nil_append,returned] at thrown
    contradiction
  · have high := byte.toInt_lt
    omega

end Emu6502
