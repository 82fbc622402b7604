import Emu6502.Assembler
import Emu6502.Lib.WrappingCursor

/-! Asm::compile line by line. What a line encodes to is a function of that line; a run
over the lines writes the encodings one after another through the wrapping cursor, or
stops at the first line that has none. -/
namespace Emu6502
open WrappingCursor

theorem maskByte {n : Nat} {mask : BitVec n} (whole : mask.setWidth 8 = BitVec.allOnes 8) (x : BitVec n) :
    (x &&& mask).setWidth 8 = x.setWidth 8 := by
  rw [BitVec.setWidth_and,whole,BitVec.and_allOnes]

def AddrT.bytes (addr : AddrT) (val : BitVec 32) : List Uint8 :=
  match addr with
  | addr2Param => [(val &&& 0xff).setWidth 8,(val.sshiftRight 8 &&& 0xff).setWidth 8]
  | addr1Param => [(val &&& 0xff).setWidth 8]
  | addrNoParams => []

def AsmInstr.bytes (instr : AsmInstr) (val : BitVec 32) : List Uint8 := instr.opcode :: instr.addr.bytes val

def Emission.write (e : Emission) (bytes : List Uint8) : Emission :=
  {r := place e.r e.pc bytes, pc := e.pc + BitVec.ofNat 16 bytes.length}

theorem putWrite (e : Emission) (v : Uint8) : e.put v = e.write [v] := by
  simp only [Emission.put,Emission.write,place,List.length_singleton]
  exact congrArg (Emission.mk · _) (funext fun a => (Function.update_apply e.r e.pc v a).symm)

theorem writeNil (e : Emission) : e.write [] = e := by
  rw [Emission.write,List.length_nil,firstCell]
  rfl

theorem writeAppend (e : Emission) (first last : List Uint8) : (e.write first).write last = e.write (first ++ last) := by
  simp only [Emission.write,placeAppend,List.length_append,BitVec.ofNat_add,BitVec.add_assoc]

theorem emitBytes (instr : AsmInstr) (val : BitVec 32) (e : Emission) : instr.emit val e = e.write (instr.bytes val) := by
  unfold AsmInstr.emit AsmInstr.bytes
  cases instr.addr <;> simp only [AddrT.emit,AddrT.bytes,putWrite,writeAppend,List.cons_append,List.nil_append]

theorem bytesLength (instr : AsmInstr) (val : BitVec 32) :
    1 ≤ (instr.bytes val).length ∧ (instr.bytes val).length ≤ 3 := by
  unfold AsmInstr.bytes
  cases instr.addr <;> simp [AddrT.bytes]

section lines
variable (beyond : List Char → BitVec 32)

/- Nothing for a line that is skipped. -/
def lineBytes (line : List Char) : Option (List Uint8) :=
  if skipped line then some [] else (selectInstr beyond line).map fun chosen => chosen.1.bytes chosen.2

def program : List (List Char) → Option (List Uint8)
  | [] => some []
  | line :: lines => do
      let bytes ← lineBytes beyond line
      let rest ← program lines
      pure (bytes ++ rest)

def FirstRejected (lines : List (List Char)) (k : Nat) : Prop :=
  ∃ before line after, lines = before ++ line :: after ∧ before.length = k ∧
    (∀ earlier ∈ before, lineBytes beyond earlier ≠ none) ∧ lineBytes beyond line = none

theorem compileLine (index : Nat) (line : List Char) (lines : List (List Char)) (e : Emission) :
    compileFrom beyond index (line :: lines) e =
      match lineBytes beyond line with
      | none => .error ⟨BitVec.ofNat 32 (index+1)⟩
      | some bytes => compileFrom beyond (index+1) lines (e.write bytes) := by
  unfold lineBytes
  rw [compileFrom]
  split_ifs with blank
  · simp only [writeNil]
  · cases selectInstr beyond line with
    | none => rfl
    | some chosen => simp only [Option.map_some,emitBytes]

theorem programAround {before after : List (List Char)} {line : List Char} {whole : List Uint8}
    (accepted : program beyond (before ++ line :: after) = some whole) :
    ∃ pre bytes post, program beyond before = some pre ∧ lineBytes beyond line = some bytes ∧
      program beyond after = some post ∧ whole = pre ++ (bytes ++ post) := by
  induction before generalizing whole with
  | nil =>
    simp only [List.nil_append,program,Option.bind_eq_bind,Option.bind_eq_some_iff,Option.pure_def,Option.some.injEq]
      at accepted
    obtain ⟨bytes,encoded,post,more,rfl⟩ := accepted
    exact ⟨[],bytes,post,rfl,encoded,more,rfl⟩
  | cons first before ih =>
    simp only [List.cons_append,program,Option.bind_eq_bind,Option.bind_eq_some_iff,Option.pure_def,Option.some.injEq]
      at accepted
    obtain ⟨head,encoded,rest,more,rfl⟩ := accepted
    obtain ⟨pre,bytes,post,earlier,here,later,rfl⟩ := ih more
    refine ⟨head ++ pre,bytes,post,?_,here,later,(List.append_assoc head pre _).symm⟩
    simp only [program,encoded,earlier,Option.bind_eq_bind,Option.bind_some,Option.pure_def]

theorem compileAccepted {lines : List (List Char)} {bytes : List Uint8} (accepted : program beyond lines = some bytes)
    (index : Nat) (e : Emission) : compileFrom beyond index lines e = .ok (e.write bytes) := by
  induction lines generalizing index e bytes with
  | nil =>
    obtain rfl := Option.some.inj accepted
    rw [writeNil]
    rfl
  | cons line lines ih =>
    simp only [program,Option.bind_eq_bind,Option.bind_eq_some_iff,Option.pure_def,Option.some.injEq] at accepted
    obtain ⟨first,encoded,rest,more,rfl⟩ := accepted
    rw [compileLine,encoded]
    exact (ih more _ _).trans (congrArg Except.ok (writeAppend e first rest))

theorem compileRejected {lines : List (List Char)} {k : Nat} (rejected : FirstRejected beyond lines k) (index : Nat)
    (e : Emission) : compileFrom beyond index lines e = .error ⟨BitVec.ofNat 32 (index+k+1)⟩ := by
  obtain ⟨before,line,after,rfl,rfl,earlier,bad⟩ := rejected
  induction before generalizing index e with
  | nil => rw [List.nil_append,compileLine,bad]; rfl
  | cons first before ih =>
    cases encoded : lineBytes beyond first with
    | none => exact absurd encoded (earlier first List.mem_cons_self)
    | some bytes =>
      rw [List.cons_append,compileLine,encoded]
      refine (ih _ _ fun l member => earlier l (List.mem_cons_of_mem first member)).trans ?_
      rw [List.length_cons,Nat.add_assoc index 1,Nat.add_comm 1]

theorem acceptedOrRejected (lines : List (List Char)) :
    (∃ bytes, program beyond lines = some bytes) ∨ ∃ k, FirstRejected beyond lines k := by
  induction lines with
  | nil => exact Or.inl ⟨[],rfl⟩
  | cons line lines ih =>
    cases encoded : lineBytes beyond line with
    | none => exact Or.inr ⟨0,[],line,lines,rfl,rfl,by simp,encoded⟩
    | some bytes =>
      rcases ih with ⟨rest,more⟩ | ⟨k,before,bad,after,rfl,rfl,earlier,rejected⟩
      · exact Or.inl ⟨bytes ++ rest,by simp [program,encoded,more]⟩
      · refine Or.inr ⟨before.length+1,line :: before,bad,after,rfl,rfl,?_,rejected⟩
        rintro l (_ | ⟨_,member⟩)
        · rw [encoded]
          exact Option.some_ne_none bytes
        · exact earlier l member

/-! The image. -/

def imageOf (base : Uint16) (bytes : List Uint8) : List Uint8 :=
  List.ofFn fun i : Fin 65536 => place (freshImage base) base bytes (BitVec.ofFin i)

theorem compileImage {lines : List (List Char)} {bytes : List Uint8} (accepted : program beyond lines = some bytes)
    (base : Uint16) : compile beyond base lines = .ok (imageOf base bytes) := by
  rw [compile,compileAccepted beyond accepted]
  rfl

theorem compileError {lines : List (List Char)} {k : Nat} (rejected : FirstRejected beyond lines k) (base : Uint16) :
    compile beyond base lines = .error ⟨BitVec.ofNat 32 (k+1)⟩ := by
  rw [compile,compileRejected beyond rejected,Nat.zero_add]
  rfl

end lines

theorem imageLength (base : Uint16) (bytes : List Uint8) : (imageOf base bytes).length = 65536 := List.length_ofFn

theorem imageCell (base : Uint16) (bytes : List Uint8) (a : Uint16) :
    (imageOf base bytes)[a.toNat]? = some (place (freshImage base) base bytes a) := by
  rw [imageOf,List.getElem?_ofFn,dif_pos a.isLt]
  rfl

theorem cellNat (base : Uint16) (k : Nat) : (base + BitVec.ofNat 16 k).toNat = (base.toNat + k) % 65536 := by
  rw [BitVec.toNat_add,BitVec.toNat_ofNat,Nat.add_mod_mod]

structure ImageSpec (base : Uint16) (bytes image : List Uint8) : Prop where
  size : image.length = 65536
  code : ∀ k (within : k < bytes.length), image[(base.toNat + k) % 65536]? = some bytes[k]
  vectorLow : (∀ k < bytes.length, (base.toNat + k) % 65536 ≠ 0xfffc) → image[0xfffc]? = some (lowByte base)
  vectorHigh : (∀ k < bytes.length, (base.toNat + k) % 65536 ≠ 0xfffd) → image[0xfffd]? = some (highByte base)
  filler : ∀ a < 65536, a ≠ 0xfffc → a ≠ 0xfffd → (∀ k < bytes.length, (base.toNat + k) % 65536 ≠ a) →
    image[a]? = some 0xff

theorem imageOutside {base : Uint16} {bytes : List Uint8} {a : Nat} (small : a < 65536)
    (outside : ∀ k < bytes.length, (base.toNat + k) % 65536 ≠ a) :
    (imageOf base bytes)[a]? = some (freshImage base (BitVec.ofNat 16 a)) := by
  have value : (BitVec.ofNat 16 a).toNat = a := (BitVec.toNat_ofNat a 16).trans (Nat.mod_eq_of_lt small)
  have cell := imageCell base bytes (BitVec.ofNat 16 a)
  rw [value] at cell
  rw [cell,placeOutside]
  intro k within same
  exact outside k within ((cellNat base k).symm.trans ((congrArg BitVec.toNat same).trans value))

theorem imageSpec {base : Uint16} {bytes : List Uint8} (fits : bytes.length ≤ 65536) :
    ImageSpec base bytes (imageOf base bytes) where
  size := imageLength base bytes
  code k within := by
    rw [← cellNat,imageCell,placeInside fits within]
  vectorLow outside := by
    rw [imageOutside (by decide) outside]
    exact congrArg some (maskByte rfl base)
  vectorHigh outside := by
    rw [imageOutside (by decide) outside]
    exact congrArg some (maskByte rfl (base >>> 8))
  filler a small notLow notHigh outside := by
    have apart : ∀ c : Uint16, a ≠ c.toNat → BitVec.ofNat 16 a ≠ c := fun c differ same => by
      have vals := congrArg BitVec.toNat same
      rw [BitVec.toNat_ofNat,Nat.mod_eq_of_lt small] at vals
      exact differ vals
    rw [imageOutside small outside,freshImage,if_neg (apart 0xfffd notHigh),if_neg (apart 0xfffc notLow)]

section spec
variable (beyond : List Char → BitVec 32)

/- What compile does with a base address and a list of lines. -/
structure CompileSpec (base : Uint16) (lines : List (List Char)) : Prop where
  throws : ∀ e, compile beyond base lines = .error e ↔
    ∃ k, FirstRejected beyond lines k ∧ e.line.toInt = (k + 1 : Nat)
  returns : ∀ bytes, program beyond lines = some bytes → bytes.length ≤ 65536 →
    ∃ image, compile beyond base lines = .ok image ∧ ImageSpec base bytes image

theorem rejectedAt {lines : List (List Char)} {j k : Nat} (one : FirstRejected beyond lines j)
    (other : FirstRejected beyond lines k) : j ≤ k := by
  obtain ⟨before,line,after,split,rfl,earlier,_⟩ := one
  obtain ⟨before',line',after',split',rfl,_,bad⟩ := other
  by_contra late
  have here : lines[before'.length]? = some line' := by simp [split']
  rw [split,List.getElem?_append_left (by omega)] at here
  exact earlier line' (List.mem_of_getElem? here) bad

theorem rejectedUnique {lines : List (List Char)} {j k : Nat} (one : FirstRejected beyond lines j)
    (other : FirstRejected beyond lines k) : j = k :=
  Nat.le_antisymm (rejectedAt beyond one other) (rejectedAt beyond other one)

theorem lineNumber (k : Nat) : (BitVec.ofNat 32 (k+1)).toInt = (k + 1 : Nat) ↔ k + 1 < 2^31 := by
  constructor
  · intro number
    have bound := (BitVec.ofNat 32 (k+1)).toInt_lt
    omega
  · intro small
    rw [BitVec.toInt_eq_toNat_cond,BitVec.toNat_ofNat,Nat.mod_eq_of_lt (by omega),if_pos (by omega)]

theorem specNumbers {base : Uint16} {lines : List (List Char)} (spec : CompileSpec beyond base lines) {k : Nat}
    (rejected : FirstRejected beyond lines k) : k + 1 < 2^31 := by
  obtain ⟨j,first,number⟩ := (spec.throws _).mp (compileError beyond rejected base)
  rw [rejectedUnique beyond first rejected] at number
  exact (lineNumber k).mp number

theorem numbersSpec {base : Uint16} {lines : List (List Char)}
    (small : ∀ k, FirstRejected beyond lines k → k + 1 < 2^31) : CompileSpec beyond base lines where
  throws e := by
    constructor
    · intro thrown
      rcases acceptedOrRejected beyond lines with ⟨bytes,accepted⟩ | ⟨k,rejected⟩
      · rw [compileImage beyond accepted] at thrown
        contradiction
      · have same := (compileError beyond rejected base).symm.trans thrown
        obtain rfl := Except.error.inj same
        exact ⟨k,rejected,(lineNumber k).mpr (small k rejected)⟩
    · rintro ⟨k,rejected,number⟩
      rw [compileError beyond rejected base]
      have line : BitVec.ofNat 32 (k+1) = e.line :=
        BitVec.eq_of_toInt_eq (((lineNumber k).mpr (small k rejected)).trans number.symm)
      exact congrArg (fun line => Except.error (AsmSyntaxException.mk line)) line
  returns bytes accepted fits := ⟨imageOf base bytes,compileImage beyond accepted base,imageSpec fits⟩

/- The constructor of the exception takes the number of the line as an int; up to there the
number is the line's, whatever stands after it. -/
theorem compileCompositional :
    (∀ line bytes, skipped line = false → lineBytes beyond line = some bytes →
      1 ≤ bytes.length ∧ bytes.length ≤ 3) ∧
    ∀ base lines, CompileSpec beyond base lines ↔ ∀ k, FirstRejected beyond lines k → k + 1 < 2^31 := by
  refine ⟨fun line bytes live encoded => ?_,fun base lines =>
    ⟨fun spec k => specNumbers beyond spec,numbersSpec beyond⟩⟩
  rw [lineBytes,live,if_neg Bool.false_ne_true,Option.map_eq_some_iff] at encoded
  obtain ⟨chosen,_,rfl⟩ := encoded
  exact bytesLength chosen.1 chosen.2

end spec

/- 2^31 - 1 blank lines and a bad one: the number that is thrown, and that what() prints, is negative. -/
theorem lineNumberWraps :
    let lines := List.replicate 2147483647 [] ++ [['?']]
    ¬ CompileSpec (fun _ => 0) 0x0400 lines ∧
      ∃ e, compile (fun _ => 0) 0x0400 lines = .error e ∧ e.what = "Syntax error at line: -2147483648" := by
  intro lines
  have blank : lineBytes (fun _ => 0) [] = some [] := rfl
  have bad : lineBytes (fun _ => 0) ['?'] = none := rfl
  have rejected : FirstRejected (fun _ => 0) lines 2147483647 :=
    ⟨_,['?'],[],rfl,List.length_replicate,fun line member => by
      rw [List.eq_of_mem_replicate member,blank]
      exact Option.some_ne_none [],bad⟩
  refine ⟨fun spec => ?_,_,compileError _ rejected 0x0400,?_⟩
  · exact absurd (specNumbers _ spec rejected) (by decide)
  · decide +kernel

end Emu6502
