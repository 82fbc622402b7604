import Emu6502.RoundTrip

/-! push8, push16, pop8 and pop16 over a Memory of any number of pages. A host calls them in any
order, and may write elsewhere in between; as long as it nests, they are a list of bytes. -/
namespace Emu6502
open Interaction

inductive StackCall where
  | push8 (val : Uint8)
  | push16 (val : Uint16)
  | pop8
  | pop16
  | write (address : Uint16) (value : Uint8)
  deriving DecidableEq, Repr

inductive Answer where
  | none
  | byte (val : Uint8)
  | word (val : Uint16)
  deriving DecidableEq, Repr

def helper : StackCall → Exec Answer
  | .push8 val => do
      push8 val
      pure .none
  | .push16 val => do
      push16 val
      pure .none
  | .pop8 => do
      let val ← pop8
      pure (.byte val)
  | .pop16 => do
      let val ← pop16
      pure (.word val)
  | .write address value => do
      busWrite address value
      pure .none

def helpers : List StackCall → Exec (List Answer)
  | [] => pure []
  | c :: calls => do
      let answer ← helper c
      let answers ← helpers calls
      pure (answer :: answers)

/-! The list the helpers stand for, top first. A call that would empty it below nothing, or fill
it past 256 bytes, is none. -/

def lifo (stack : List Uint8) : StackCall → Option (List Uint8 × Answer)
  | .push8 val => if stack.length + 1 ≤ 256 then some (val :: stack,.none) else none
  | .push16 val =>
      if stack.length + 2 ≤ 256 then some (lowByte val :: highByte val :: stack,.none) else none
  | .pop8 =>
      match stack with
      | val :: rest => some (rest,.byte val)
      | [] => none
  | .pop16 =>
      match stack with
      | low :: high :: rest => some (rest,.word (Emu6502.word low high))
      | _ => none
  | .write _ _ => some (stack,.none)

def lifoRun (stack : List Uint8) : List StackCall → Option (List Uint8 × List Answer)
  | [] => some (stack,[])
  | c :: calls => do
      let (next,answer) ← lifo stack c
      let (last,answers) ← lifoRun next calls
      pure (last,answer :: answers)

namespace StackHelpers

/- Page 1 is one byte a stack pointer even where it is mirrored: every size is whole pages. -/
theorem stackCellsApart (m : Memory) {a b : Uint8} :
    m.checkAddress (stackAddress a) = m.checkAddress (stackAddress b) ↔ a = b := by
  refine ⟨fun same => ?_,fun same => same ▸ rfl⟩
  have vals := congrArg Fin.val same
  rw [Memory.checkAddressVal,Memory.checkAddressVal,m.sized,maxBytesPerPage,Nat.mul_comm] at vals
  have low := congrArg (· % 256) vals
  simp only [Nat.mod_mul_right_mod] at low
  have := a.isLt
  have := b.isLt
  simp only [stackAddress,BitVec.toNat_add,BitVec.toNat_setWidth] at low
  exact BitVec.eq_of_toNat_eq (by omega)

def pageOneOf : WrappingStack.Store 8 Uint8 Memory where
  read m sp := m.read (stackAddress sp)
  write m sp v := m.write (stackAddress sp) v
  readWrite m sp other v := by
    by_cases same : other = sp
    · rw [if_pos same,same,Memory.readWriteSame]
    · rw [if_neg same,Memory.readWriteOther]
      exact fun cells => same ((stackCellsApart m).mp cells)

/- The registers and the memory of a stack that began empty with SP at `initial`. -/
structure Represents (initial : Uint8) (regs : Registers) (m : Memory) (stack : List Uint8) : Prop where
  sp : regs.sp = initial - BitVec.ofNat 8 stack.length
  held : WrappingStack.Holds pageOneOf m regs.sp stack
  fits : stack.length ≤ 256

def InPageOne (address : Uint16) : Prop := 0x0100 ≤ address.toNat ∧ address.toNat ≤ 0x01ff

theorem stackInPageOne (sp : Uint8) : InPageOne (stackAddress sp) := by
  have small := sp.isLt
  have page : (0x0100 : Uint16).toNat = 256 := rfl
  simp only [InPageOne,stackAddress,BitVec.toNat_add,BitVec.toNat_setWidth,page]
  omega

variable {initial : Uint8} {regs : Registers} {m : Memory} {stack : List Uint8}

theorem pushRepresents (here : Represents initial regs m stack) (room : stack.length + 1 ≤ 256) (v : Uint8) :
    Represents initial {regs with sp := regs.sp - 1} (m.write (stackAddress regs.sp) v) (v :: stack) := by
  refine ⟨?_,WrappingStack.holdsPush pageOneOf (show stack.length < 2^8 by omega) v here.held,room⟩
  have below : BitVec.ofNat 8 (stack.length + 1) = BitVec.ofNat 8 stack.length + 1 := BitVec.ofNat_add _ _
  rw [List.length_cons,below,here.sp]
  exact BitVec.sub_sub _ _ _

theorem popRepresents {v : Uint8} (here : Represents initial regs m (v :: stack)) :
    m.read (stackAddress (regs.sp + 1)) = v ∧ Represents initial {regs with sp := regs.sp + 1} m stack := by
  have above : BitVec.ofNat 8 (stack.length + 1) = BitVec.ofNat 8 stack.length + 1 := BitVec.ofNat_add _ _
  have sp := here.sp
  rw [List.length_cons,above,← BitVec.sub_sub] at sp
  refine ⟨here.held.1,?_,here.held.2,Nat.le_of_succ_le here.fits⟩
  rw [sp]
  exact BitVec.sub_add_cancel _ _

theorem elsewhereRepresents (here : Represents initial regs m stack) {address : Uint16} (v : Uint8)
    (apart : ∀ sp, m.checkAddress (stackAddress sp) ≠ m.checkAddress address) :
    Represents initial regs (m.write address v) stack := by
  refine ⟨here.sp,WrappingStack.holdsAgree pageOneOf (fun k _ _ => ?_) here.held,here.fits⟩
  exact Memory.readWriteOther m v (apart _)

theorem apartKept {after : Memory} (same : after.pages = m.pages) {address other : Uint16}
    (apart : m.checkAddress other ≠ m.checkAddress address) : after.checkAddress other ≠ after.checkAddress address := by
  intro cells
  refine apart (Fin.ext ?_)
  have vals := congrArg Fin.val cells
  rwa [Memory.checkAddressVal,Memory.checkAddressVal,after.sized,same,← m.sized,← Memory.checkAddressVal,
    ← Memory.checkAddressVal] at vals

/- The accesses the helpers make themselves; a host's write between them is its own. -/
def Inside (calls : List StackCall) (log : List (Access Uint16 Uint8)) : Prop :=
  ∀ access ∈ log, InPageOne access.address ∨
    ∃ address value, access = .write address value ∧ .write address value ∈ calls

def Elsewhere (m : Memory) (calls : List StackCall) : Prop :=
  ∀ address value, .write address value ∈ calls → ∀ sp, m.checkAddress (stackAddress sp) ≠ m.checkAddress address

theorem insideNil {calls : List StackCall} : Inside calls [] := List.forall_mem_nil _

theorem insideStack {calls : List StackCall} {log : List (Access Uint16 Uint8)} {access : Access Uint16 Uint8}
    (sp : Uint8) (cell : access.address = stackAddress sp) (rest : Inside calls log) : Inside calls (access :: log) :=
  List.forall_mem_cons.mpr ⟨.inl (cell ▸ stackInPageOne sp),rest⟩

theorem helperServes (here : Represents initial regs m stack) {c : StackCall} {next : List Uint8} {answer : Answer}
    (nested : lifo stack c = some (next,answer)) (elsewhere : Elsewhere m [c]) :
    let out := ((helper c).run regs).run Bus.device ⟨some m⟩
    ∃ after, out.result.1 = answer ∧ out.state = ⟨some after⟩ ∧ after.pages = m.pages ∧
      Represents initial out.result.2 after next ∧ Inside [c] out.log := by
  cases c with
  | push8 val =>
    simp only [lifo,Option.ite_none_right_eq_some,Option.some.injEq,Prod.mk.injEq] at nested
    obtain ⟨room,rfl,rfl⟩ := nested
    exact ⟨_,rfl,rfl,rfl,pushRepresents here room val,insideStack _ rfl insideNil⟩
  | push16 val =>
    simp only [lifo,Option.ite_none_right_eq_some,Option.some.injEq,Prod.mk.injEq] at nested
    obtain ⟨room,rfl,rfl⟩ := nested
    have high := pushRepresents here (Nat.le_of_succ_le room) (highByte val)
    have low := pushRepresents high room (lowByte val)
    exact ⟨_,rfl,rfl,rfl,low,insideStack _ rfl (insideStack _ rfl insideNil)⟩
  | pop8 =>
    cases stack with
    | nil => simp [lifo] at nested
    | cons val rest =>
      simp only [lifo,Option.some.injEq,Prod.mk.injEq] at nested
      obtain ⟨rfl,rfl⟩ := nested
      obtain ⟨top,popped⟩ := popRepresents here
      exact ⟨m,congrArg Answer.byte top,rfl,rfl,popped,insideStack _ rfl insideNil⟩
  | pop16 =>
    match stack with
    | [] => simp [lifo] at nested
    | [_] => simp [lifo] at nested
    | low :: high :: rest =>
      simp only [lifo,Option.some.injEq,Prod.mk.injEq] at nested
      obtain ⟨rfl,rfl⟩ := nested
      obtain ⟨first,once⟩ := popRepresents here
      obtain ⟨second,twice⟩ := popRepresents once
      exact ⟨m,congrArg₂ (fun l h => Answer.word (word l h)) first second,rfl,rfl,twice,
        insideStack _ rfl (insideStack _ rfl insideNil)⟩
  | write address value =>
    simp only [lifo,Option.some.injEq,Prod.mk.injEq] at nested
    obtain ⟨rfl,rfl⟩ := nested
    have apart := elsewhere address value List.mem_cons_self
    refine ⟨_,rfl,rfl,rfl,elsewhereRepresents here value apart,?_⟩
    exact List.forall_mem_singleton.mpr (.inr ⟨address,value,rfl,List.mem_cons_self⟩)

theorem helpersCons (c : StackCall) (calls : List StackCall) (regs : Registers) (bus : Bus) :
    let first := ((helper c).run regs).run Bus.device bus
    let rest := ((helpers calls).run first.result.2).run Bus.device first.state
    ((helpers (c :: calls)).run regs).run Bus.device bus =
      ⟨(first.result.1 :: rest.result.1,rest.result.2),rest.state,first.log ++ rest.log⟩ := by
  simp only [helpers,execRunBind,Program.runBind]
  simp

theorem helpersServe {calls : List StackCall} {last : List Uint8} {answers : List Answer}
    (here : Represents initial regs m stack) (nested : lifoRun stack calls = some (last,answers))
    (elsewhere : Elsewhere m calls) :
    let out := ((helpers calls).run regs).run Bus.device ⟨some m⟩
    ∃ after, out.result.1 = answers ∧ out.state = ⟨some after⟩ ∧ Represents initial out.result.2 after last ∧
      Inside calls out.log := by
  induction calls generalizing regs m stack answers with
  | nil =>
    simp only [lifoRun,Option.some.injEq,Prod.mk.injEq] at nested
    obtain ⟨rfl,rfl⟩ := nested
    exact ⟨m,rfl,rfl,here,insideNil⟩
  | cons c calls ih =>
    simp only [lifoRun,bind,Option.bind_eq_some_iff,Prod.exists] at nested
    obtain ⟨next,answer,first,final,others,rest,whole⟩ := nested
    obtain ⟨rfl,rfl⟩ := Prod.mk.inj (Option.some.inj whole)
    obtain ⟨middle,answered,bus,sized,represented,inside⟩ :=
      helperServes here first fun a v call => elsewhere a v (List.mem_singleton.mp call ▸ List.mem_cons_self)
    have apart : Elsewhere middle calls := fun a v call sp =>
      apartKept sized (elsewhere a v (List.mem_cons_of_mem c call) sp)
    obtain ⟨after,later,left,kept,within⟩ := ih represented rest apart
    rw [helpersCons,bus]
    refine ⟨after,congrArg₂ List.cons answered later,left,kept,fun access made => ?_⟩
    rcases List.mem_append.mp made with here | after
    · refine (inside access here).imp_right fun ⟨a,v,wrote,call⟩ => ⟨a,v,wrote,?_⟩
      exact List.mem_singleton.mp call ▸ List.mem_cons_self
    · exact (within access after).imp_right fun ⟨a,v,wrote,call⟩ => ⟨a,v,wrote,List.mem_cons_of_mem c call⟩

/-- Calls that nest as a list of at most 256 bytes answer as that list does, at SP = start - depth
and never off page 1: whatever SP was, whatever the size of the memory, whatever is written elsewhere. -/
theorem helpersAreLifo (regs : Registers) (m : Memory) (calls : List StackCall) (stack : List Uint8)
    (answers : List Answer) (nested : lifoRun [] calls = some (stack,answers))
    (elsewhere : ∀ address value, .write address value ∈ calls →
      ∀ sp, m.checkAddress (stackAddress sp) ≠ m.checkAddress address) :
    let out := ((helpers calls).run regs).run Bus.device ⟨some m⟩
    out.result.1 = answers ∧ out.result.2.sp = regs.sp - BitVec.ofNat 8 stack.length ∧
      ∀ access ∈ out.log, (0x0100 ≤ access.address.toNat ∧ access.address.toNat ≤ 0x01ff) ∨
        ∃ address value, access = .write address value ∧ .write address value ∈ calls := by
  have empty : Represents regs.sp regs m [] := ⟨(BitVec.sub_zero _).symm,trivial,Nat.zero_le _⟩
  obtain ⟨after,answered,_,represented,inside⟩ := helpersServe empty nested elsewhere
  exact ⟨answered,represented.sp,inside⟩

/- A word pushed across the wrap of SP, in a memory of one page, which page 1 mirrors. -/
theorem lifoAcrossTheWrap :
    let calls : List StackCall := [.push16 0x1234,.push8 0x56,.pop8,.push8 0x78,.pop16,.pop8]
    let regs : Registers := {a := 0, x := 0, y := 0, sr := flagU, sp := 0x00, pc := 0}
    (((helpers calls).run regs).run Bus.device ⟨some (Memory.ofPages 1)⟩).result.1 =
      [.none,.none,.byte 0x56,.none,.word 0x3478,.byte 0x12] := by
  intro calls regs
  exact (helpersAreLifo regs (Memory.ofPages 1) calls [] _ (by decide) (by simp [calls])).1

end StackHelpers
end Emu6502
