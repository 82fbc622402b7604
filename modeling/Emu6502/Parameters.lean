import Emu6502.Registers
import Emu6502.Lib.Interaction

/-! The addressing-mode policies of parameters.h. The structs share one record here:
each mode reads only the fields its struct declares. Operands of `|` are evaluated
left to right, so a low byte is always fetched before its high byte. -/
namespace Emu6502
open Interaction

abbrev Exec := StateT Registers (Program Uint16 Uint8)

def busRead (address : Uint16) : Exec Uint8 := StateT.lift (.read address .done)
def busWrite (address : Uint16) (value : Uint8) : Exec Unit := StateT.lift (.write address value (.done ()))

@[simp] theorem busReadRun (address : Uint16) (regs : Registers) :
    (busRead address).run regs = .read address (fun v => .done (v,regs)) := rfl

@[simp] theorem busWriteRun (address : Uint16) (value : Uint8) (regs : Registers) :
    (busWrite address value).run regs = .write address value (.done ((),regs)) := rfl

@[simp] theorem execRunBind {α β : Type} (first : Exec α) (rest : α → Exec β) (regs : Registers) :
    (first >>= rest).run regs = first.run regs >>= fun out => (rest out.1).run out.2 := rfl

@[simp] theorem execRunPure {α : Type} (a : α) (regs : Registers) :
    (pure a : Exec α).run regs = .done (a,regs) := rfl

@[simp] theorem execRunGet (regs : Registers) : (get : Exec Registers).run regs = .done (regs,regs) := rfl

@[simp] theorem execRunModify (f : Registers → Registers) (regs : Registers) :
    (modify f : Exec PUnit).run regs = .done (⟨⟩,f regs) := rfl

inductive Mode where
  | null
  | accumulator
  | immediate
  | zeroPage
  | zeroPageX
  | zeroPageY
  | relative
  | absConst
  | absolute
  | absoluteX
  | absoluteY
  | indirect
  | indirectX
  | indirectY
  deriving DecidableEq, Repr

/-- `data` is the operand of the one-byte modes and `data16` that of the two-byte
modes. `resolved`/`pointer` are m_resolved/m_addr in IndirectXParams and
m_baseResolved/m_base in IndirectYParams. -/
structure Params where
  crossed : Bool := false
  dummyDone : Bool := false
  data : Uint8 := 0
  data16 : Uint16 := 0
  resolved : Bool := false
  pointer : Uint16 := 0
  deriving DecidableEq, Repr

namespace Params

def extraCycles (params : Params) : Nat := if params.crossed then 1 else 0

end Params

def zeroPageAddress (offset : Uint8) : Uint16 := offset.setWidth 16

def read16 (ad : Uint16) : Exec Uint16 := do
  let lo ← busRead ad
  let hi ← busRead (ad+1)
  pure (word lo hi)

/- ZP_READ16: the high byte wraps within the zero page. -/
def zpRead16 (zp : Uint8) : Exec Uint16 := do
  let lo ← busRead (zeroPageAddress zp)
  let hi ← busRead (zeroPageAddress (zp+1))
  pure (word lo hi)

namespace Mode

def init (mode : Mode) (params : Params) : Exec Params :=
  match mode with
  | null | accumulator => pure params
  | immediate | zeroPage | zeroPageX | zeroPageY | relative | indirectX | indirectY => do
      let regs ← get
      modify fun r => {r with pc := r.pc+1}
      let data ← busRead regs.pc
      pure {params with data := data}
  | absConst | absolute | absoluteX | absoluteY | indirect => do
      let regs ← get
      let lo ← busRead regs.pc
      let hi ← busRead (regs.pc+1)
      modify fun r => {r with pc := r.pc+2}
      pure {params with data16 := word lo hi}

/- The address before indexing: `data` for the absolute modes, the memoised pointer
for (zp),Y. The other structs have no such member. -/
def base (mode : Mode) (params : Params) : Exec (Uint16 × Params) :=
  match mode with
  | absoluteX | absoluteY => pure (params.data16,params)
  | indirectY =>
      if params.resolved then pure (params.pointer,params) else do
        let ptr ← zpRead16 params.data
        pure (ptr,{params with pointer := ptr, resolved := true})
  | _ => pure (0,params)

def indexed (ptr : Uint16) (index : Uint8) (params : Params) : Uint16 × Params :=
  let ad := ptr + index.setWidth 16
  (ad,{params with crossed := (ad &&& 0xff00) != (ptr &&& 0xff00)})

def addr (mode : Mode) (params : Params) : Exec (Uint16 × Params) :=
  match mode with
  | absoluteX => do
      let regs ← get
      pure (indexed params.data16 regs.x params)
  | absoluteY => do
      let regs ← get
      pure (indexed params.data16 regs.y params)
  | indirectX =>
      if params.resolved then pure (params.pointer,params) else do
        let regs ← get
        let ad ← zpRead16 (params.data + regs.x)
        pure (ad,{params with pointer := ad, resolved := true})
  | indirectY => do
      let (ptr,params) ← base indirectY params
      let regs ← get
      pure (indexed ptr regs.y params)
  | _ => pure (0,params)

/- The high byte of `ptr` over the low byte of `ptr + index`: what is driven before the carry. -/
def unfixed (ptr : Uint16) (index : Uint8) : Uint16 :=
  (ptr &&& 0xff00) ||| ((ptr + index.setWidth 16) &&& 0x00ff)

def dummyRead (mode : Mode) (params : Params) : Exec Params :=
  match mode with
  | zeroPageX | zeroPageY =>
      if params.dummyDone then pure params else do
        let _ ← busRead (zeroPageAddress params.data)
        pure {params with dummyDone := true}
  | absoluteX =>
      if params.dummyDone then pure params else do
        let regs ← get
        let _ ← busRead (unfixed params.data16 regs.x)
        pure {params with dummyDone := true}
  | absoluteY =>
      if params.dummyDone then pure params else do
        let regs ← get
        let _ ← busRead (unfixed params.data16 regs.y)
        pure {params with dummyDone := true}
  | indirectY =>
      if params.dummyDone then pure params else do
        let (ptr,params) ← base indirectY {params with dummyDone := true}
        let regs ← get
        let _ ← busRead (unfixed ptr regs.y)
        pure params
  | _ => pure params

def get8bit (mode : Mode) (params : Params) : Exec (Uint8 × Params) :=
  match mode with
  | null => pure (0,params)
  | accumulator => do
      let regs ← get
      pure (regs.a,params)
  | immediate | relative => pure (params.data,params)
  | zeroPage => do
      let v ← busRead (zeroPageAddress params.data)
      pure (v,params)
  | zeroPageX => do
      let params ← dummyRead zeroPageX params
      let regs ← get
      let v ← busRead (zeroPageAddress (params.data + regs.x))
      pure (v,params)
  | zeroPageY => do
      let params ← dummyRead zeroPageY params
      let regs ← get
      let v ← busRead (zeroPageAddress (params.data + regs.y))
      pure (v,params)
  | absConst => pure (lowByte params.data16,params)
  | absolute | indirect => do
      let v ← busRead params.data16
      pure (v,params)
  | absoluteX | absoluteY | indirectY => do
      let (ad,params) ← addr mode params
      let params ← if params.crossed then dummyRead mode params else pure params
      let v ← busRead ad
      pure (v,params)
  | indirectX => do
      let (ad,params) ← addr indirectX params
      let v ← busRead ad
      pure (v,params)

def get16bit (mode : Mode) (params : Params) : Exec (Uint16 × Params) :=
  match mode with
  | null => pure (0,params)
  | accumulator => do
      let regs ← get
      pure (regs.a.setWidth 16,params)
  | immediate | relative => pure (params.data.setWidth 16,params)
  | zeroPage => do
      let v ← zpRead16 params.data
      pure (v,params)
  | zeroPageX => do
      let regs ← get
      let v ← zpRead16 (params.data + regs.x)
      pure (v,params)
  | zeroPageY => do
      let regs ← get
      let v ← zpRead16 (params.data + regs.y)
      pure (v,params)
  | absConst => pure (params.data16,params)
  | absolute => do
      let v ← read16 params.data16
      pure (v,params)
  | indirect => do
      -- The vector's high byte comes from the start of the same page.
      let hi := (params.data16 &&& 0xff00) ||| ((params.data16 + 1) &&& 0x00ff)
      let l ← busRead params.data16
      let h ← busRead hi
      pure (word l h,params)
  | absoluteX | absoluteY | indirectX | indirectY => do
      let (ad,params) ← addr mode params
      let v ← read16 ad
      pure (v,params)

def set8bit (mode : Mode) (params : Params) (val : Uint8) : Exec Params :=
  match mode with
  | null | immediate | relative | absConst | indirect => pure params
  | accumulator => do
      modify fun r => {r with a := val}
      pure params
  | zeroPage => do
      busWrite (zeroPageAddress params.data) val
      pure params
  | zeroPageX => do
      let regs ← get
      busWrite (zeroPageAddress (params.data + regs.x)) val
      pure params
  | zeroPageY => do
      let regs ← get
      busWrite (zeroPageAddress (params.data + regs.y)) val
      pure params
  | absolute => do
      busWrite params.data16 val
      pure params
  | absoluteX | absoluteY | indirectX | indirectY => do
      let (ad,params) ← addr mode params
      busWrite ad val
      pure params

end Mode
end Emu6502
