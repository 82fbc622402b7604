import Emu6502.Parameters

/-! The operation templates of InstructionImpl.h and the stack helpers they call.
Templates that differ in one expression share a body that takes the expression;
each template keeps a definition of its own, which names the body and the values. -/
namespace Emu6502
open Interaction

/-! Stack helpers. -/

def stackAddress (sp : Uint8) : Uint16 := 0x0100 + sp.setWidth 16

def push8 (val : Uint8) : Exec Unit := do
  let regs ← get
  busWrite (stackAddress regs.sp) val
  modify fun r => {r with sp := r.sp - 1}

def push16 (val : Uint16) : Exec Unit := do
  push8 (highByte val)
  push8 (lowByte val)

def pop8 : Exec Uint8 := do
  modify fun r => {r with sp := r.sp + 1}
  let regs ← get
  busRead (stackAddress regs.sp)

def pop16 : Exec Uint16 := do
  let low ← pop8
  let high ← pop8
  pure (word low high)

/-! Cores shared between templates. -/

def setNZ (regs : Registers) (val : Uint8) : Registers :=
  (regs.setStatus flagZ (val == 0)).setStatus flagN ((val &&& 0x80) != 0)

def adcCore (regs : Registers) (val : Uint8) : Registers :=
  let a := regs.a
  let res : Uint16 := a.setWidth 16 + val.setWidth 16 + (if regs.getStatus flagC then 1 else 0)
  let regs := regs.setStatus flagZ ((res &&& 0xff) == 0)
  if !regs.decimalDisabled && regs.getStatus flagD then
    let digits := (a &&& 0xf).toNat + (val &&& 0xf).toNat + (if regs.getStatus flagC then 1 else 0)
    let res := if digits > 9 then res + 6 else res
    let regs := regs.setStatus flagN ((res &&& 0x80) != 0)
    let regs := regs.setStatus flagV
      (((a ^^^ val) &&& 0x80) == 0 && ((a.setWidth 16 ^^^ res) &&& 0x80) != 0)
    let res := if res > 0x99 then res + 96 else res
    let regs := regs.setStatus flagC (decide (res > 0x99))
    {regs with a := lowByte res}
  else
    let regs := regs.setStatus flagV
      ((~~~(a.setWidth 16 ^^^ val.setWidth 16) &&& (a.setWidth 16 ^^^ res) &&& 0x80) != 0)
    let regs := regs.setStatus flagC (decide (res > 0x00ff))
    let regs := regs.setStatus flagN ((res &&& 0x80) != 0)
    {regs with a := lowByte res}

def sbcCore (regs : Registers) (val : Uint8) : Registers :=
  let a := regs.a
  let res : Uint16 := a.setWidth 16 - val.setWidth 16 - (if regs.getStatus flagC then 0 else 1)
  let regs := regs.setStatus flagV
    (((a.setWidth 16 ^^^ val.setWidth 16) &&& (a.setWidth 16 ^^^ res) &&& 0x80) != 0)
  let regs := regs.setStatus flagN ((res &&& 0x80) != 0)
  let regs := regs.setStatus flagZ ((res &&& 0xff) == 0)
  let res :=
    if !regs.decimalDisabled && regs.getStatus flagD then
      -- The digit comparison is made in int, where the left side can be -1.
      let borrow : Int := if regs.getStatus flagC then 0 else 1
      let res := if ((a &&& 0x0f).toNat : Int) - borrow < ((val &&& 0x0f).toNat : Int) then res - 6 else res
      if res > 0x99 then res - 0x60 else res
    else res
  let regs := {regs with a := lowByte res}
  regs.setStatus flagC (decide (res < 0x100))

def cmpCore (regs : Registers) (reg val : Uint8) : Registers :=
  let r : Uint16 := reg.setWidth 16 - val.setWidth 16
  let regs := regs.setStatus flagC (decide (r < 0x100))
  let regs := regs.setStatus flagZ (r == 0)
  regs.setStatus flagN ((r &&& 0x80) != 0)

def rmwStore (mode : Mode) (params : Params) (orig val : Uint8) : Exec Params := do
  let params ← mode.set8bit params orig
  mode.set8bit params val

def branch (mode : Mode) (flag : Uint8) (set : Bool) (cycles : Nat) : Exec Nat := do
  let params ← mode.init {}
  let (data,_) ← mode.get8bit params
  let regs ← get
  if regs.getStatus flag != set then pure cycles else do
    let val : Uint16 := data.setWidth 16
    let val := if (val &&& 0x80) != 0 then val ||| 0xff00 else val
    let target := val + regs.pc
    let extra := if (regs.pc &&& 0xff00) != (target &&& 0xff00) then 2 else 1
    modify fun r => {r with pc := target}
    pure (cycles + extra)

/-! Bodies. -/

def readBody (apply : Registers → Uint8 → Registers) (mode : Mode) (cycles : Nat) : Exec Nat := do
  let params ← mode.init {}
  let (val,params) ← mode.get8bit params
  modify fun regs => apply regs val
  pure (cycles + params.extraCycles)

/- Reads that return their base count whatever the address did. -/
def readFlatBody (apply : Registers → Uint8 → Registers) (mode : Mode) (cycles : Nat) : Exec Nat := do
  let params ← mode.init {}
  let (val,_) ← mode.get8bit params
  modify fun regs => apply regs val
  pure cycles

/- Read-modify-write. `result` is the byte stored, `before` and `after` what the
template does to the registers ahead of rmwStore and behind it. -/
def rmwBody (result : Registers → Uint8 → Uint8) (before : Registers → Uint8 → Uint8 → Registers)
    (after : Registers → Uint8 → Registers) (mode : Mode) (cycles : Nat) : Exec Nat := do
  let params ← mode.init {}
  let params ← mode.dummyRead params
  let (orig,params) ← mode.get8bit params
  let regs ← get
  let val := result regs orig
  modify fun regs => before regs orig val
  let _ ← rmwStore mode params orig val
  modify fun regs => after regs val
  pure cycles

def storeBody (source : Registers → Uint8) (mode : Mode) (cycles : Nat) : Exec Nat := do
  let params ← mode.init {}
  let params ← mode.dummyRead params
  let regs ← get
  let _ ← mode.set8bit params (source regs)
  pure cycles

def impliedBody (apply : Registers → Registers) (cycles : Nat) : Exec Nat := do
  modify apply
  pure cycles

def nopBody (mode : Mode) (cycles : Nat) : Exec Nat := do
  let _ ← mode.init {}
  pure cycles

def pushBody (value : Registers → Uint8) (cycles : Nat) : Exec Nat := do
  let regs ← get
  push8 (value regs)
  pure cycles

def pullBody (apply : Registers → Uint8 → Registers) (cycles : Nat) : Exec Nat := do
  let val ← pop8
  modify fun regs => apply regs val
  pure cycles

/- What PLP and RTI make of a pulled status byte: B is not a register bit, bit 5 reads as set. -/
def pulledStatus (val : Uint8) : Uint8 := (val &&& ~~~flagB) ||| flagU

def brkBody (cycles : Nat) : Exec Nat := do
  let regs ← get
  push16 (regs.pc + 1)
  push8 (regs.sr ||| flagB ||| flagU)
  modify fun r => r.setStatus flagI true
  let target ← read16 0xfffe
  modify fun r => {r with pc := target}
  pure cycles

def jmpBody (mode : Mode) (cycles : Nat) : Exec Nat := do
  let params ← mode.init {}
  let (ad,_) ← mode.get16bit params
  modify fun r => {r with pc := ad}
  pure cycles

def jsrBody (mode : Mode) (cycles : Nat) : Exec Nat := do
  let params ← mode.init {}
  let (ad,_) ← mode.get16bit params
  let regs ← get
  push16 (regs.pc - 1)
  modify fun r => {r with pc := ad}
  pure cycles

def rtiBody (cycles : Nat) : Exec Nat := do
  let val ← pop8
  modify fun r => {r with sr := pulledStatus val}
  let target ← pop16
  modify fun r => {r with pc := target}
  pure cycles

def rtsBody (cycles : Nat) : Exec Nat := do
  let target ← pop16
  modify fun r => {r with pc := target + 1}
  pure cycles

/- The switch on the template's `Reg` argument: SHA (0), SHX (1), SHY (2) and TAS (3). -/
def shxSource (reg : Nat) (regs : Registers) : Uint8 :=
  match reg with
  | 1 => regs.x
  | 2 => regs.y
  | _ => regs.a &&& regs.x

def shxBody (reg : Nat) (mode : Mode) (cycles : Nat) : Exec Nat := do
  let params ← mode.init {}
  let regs ← get
  let src := shxSource reg regs
  modify fun r => if reg = 3 then {r with sp := r.a &&& r.x} else r
  let (ptr,params) ← mode.base params
  let hi : Uint8 := highByte ptr + 1
  let _ ← mode.set8bit params (src &&& hi)
  pure cycles

/-- A class template before its addressing mode and cycle count are given. -/
inductive Template where
  | read (apply : Registers → Uint8 → Registers)
  | readFlat (apply : Registers → Uint8 → Registers)
  | rmw (result : Registers → Uint8 → Uint8) (before : Registers → Uint8 → Uint8 → Registers)
      (after : Registers → Uint8 → Registers)
  | store (source : Registers → Uint8)
  | implied (apply : Registers → Registers)
  | branch (flag : Uint8) (set : Bool)
  | push (value : Registers → Uint8)
  | pull (apply : Registers → Uint8 → Registers)
  | nop
  | brk
  | jmp
  | jsr
  | rti
  | rts
  | shx (reg : Nat)

def Template.execute (t : Template) (mode : Mode) (cycles : Nat) : Exec Nat :=
  match t with
  | read apply => readBody apply mode cycles
  | readFlat apply => readFlatBody apply mode cycles
  | rmw result before after => rmwBody result before after mode cycles
  | store source => storeBody source mode cycles
  | implied apply => impliedBody apply cycles
  | branch flag set => Emu6502.branch mode flag set cycles
  | push value => pushBody value cycles
  | pull apply => pullBody apply cycles
  | nop => nopBody mode cycles
  | brk => brkBody cycles
  | jmp => jmpBody mode cycles
  | jsr => jsrBody mode cycles
  | rti => rtiBody cycles
  | rts => rtsBody cycles
  | shx reg => shxBody reg mode cycles

/-! Shifts and rotates, as the byte stored and the carry set ahead of the store. -/

def shiftLeft (_ : Registers) (orig : Uint8) : Uint8 := orig <<< 1
def shiftRight (_ : Registers) (orig : Uint8) : Uint8 := orig >>> 1
def rotateLeft (regs : Registers) (old : Uint8) : Uint8 :=
  (old <<< 1) ||| (if regs.getStatus flagC then 1 else 0)
def rotateRight (regs : Registers) (old : Uint8) : Uint8 :=
  (old >>> 1) ||| (if regs.getStatus flagC then 0x80 else 0)
def increment (_ : Registers) (orig : Uint8) : Uint8 := orig + 1
def decrement (_ : Registers) (orig : Uint8) : Uint8 := orig - 1

def carryFromTop (regs : Registers) (orig _val : Uint8) : Registers :=
  regs.setStatus flagC ((orig &&& 0x80) != 0)
def carryFromBottom (regs : Registers) (orig _val : Uint8) : Registers :=
  regs.setStatus flagC ((orig &&& 0x01) != 0)
def untouched (regs : Registers) (_orig _val : Uint8) : Registers := regs

/-! Documented instructions. -/

def adcImpl : Template := .read adcCore
def andImpl : Template := .read fun regs val => setNZ {regs with a := regs.a &&& val} (regs.a &&& val)
def aslImpl : Template :=
  .rmw shiftLeft (fun regs orig val => setNZ (carryFromTop regs orig val) val) fun regs _ => regs
def bccImpl : Template := .branch flagC false
def bcsImpl : Template := .branch flagC true
def beqImpl : Template := .branch flagZ true
def bitImpl : Template := .readFlat fun regs val =>
  ((regs.setStatus flagV ((val &&& flagV) != 0)).setStatus flagN ((val &&& flagN) != 0)).setStatus
    flagZ ((val &&& regs.a) == 0)
def bmiImpl : Template := .branch flagN true
def bneImpl : Template := .branch flagZ false
def bplImpl : Template := .branch flagN false
def brkImpl : Template := .brk
def bvcImpl : Template := .branch flagV false
def bvsImpl : Template := .branch flagV true
def clcImpl : Template := .implied fun regs => regs.setStatus flagC false
def cldImpl : Template := .implied fun regs => regs.setStatus flagD false
def cliImpl : Template := .implied fun regs => regs.setStatus flagI false
def clvImpl : Template := .implied fun regs => regs.setStatus flagV false
def cmpImpl : Template := .read fun regs val => cmpCore regs regs.a val
def cpxImpl : Template := .readFlat fun regs val => cmpCore regs regs.x val
def cpyImpl : Template := .readFlat fun regs val => cmpCore regs regs.y val
def decImpl : Template := .rmw decrement untouched setNZ
def dexImpl : Template := .implied fun regs => setNZ {regs with x := regs.x - 1} (regs.x - 1)
def deyImpl : Template := .implied fun regs => setNZ {regs with y := regs.y - 1} (regs.y - 1)
def eorImpl : Template := .read fun regs val => setNZ {regs with a := regs.a ^^^ val} (regs.a ^^^ val)
def incImpl : Template := .rmw increment untouched setNZ
def inxImpl : Template := .implied fun regs => setNZ {regs with x := regs.x + 1} (regs.x + 1)
def inyImpl : Template := .implied fun regs => setNZ {regs with y := regs.y + 1} (regs.y + 1)
def jmpImpl : Template := .jmp
def jsrImpl : Template := .jsr
def ldaImpl : Template := .read fun regs val => setNZ {regs with a := val} val
def ldxImpl : Template := .read fun regs val => setNZ {regs with x := val} val
def ldyImpl : Template := .read fun regs val => setNZ {regs with y := val} val
def lsrImpl : Template :=
  .rmw shiftRight (fun regs orig val => setNZ (carryFromBottom regs orig val) val) fun regs _ => regs
def nopImpl : Template := .nop
def noprImpl : Template := .read fun regs _ => regs
def oraImpl : Template := .read fun regs val => setNZ {regs with a := regs.a ||| val} (regs.a ||| val)
def phaImpl : Template := .push fun regs => regs.a
def phpImpl : Template := .push fun regs => regs.sr ||| flagB ||| flagU
def plaImpl : Template := .pull fun regs val => setNZ {regs with a := val} val
def plpImpl : Template := .pull fun regs val => {regs with sr := pulledStatus val}
def rolImpl : Template :=
  .rmw rotateLeft (fun regs orig val => setNZ (carryFromTop regs orig val) val) fun regs _ => regs
def rorImpl : Template :=
  .rmw rotateRight (fun regs orig val => setNZ (carryFromBottom regs orig val) val) fun regs _ => regs
def rtiImpl : Template := .rti
def rtsImpl : Template := .rts
def sbcImpl : Template := .read sbcCore
def secImpl : Template := .implied fun regs => regs.setStatus flagC true
def sedImpl : Template := .implied fun regs => regs.setStatus flagD true
def seiImpl : Template := .implied fun regs => regs.setStatus flagI true
def staImpl : Template := .store fun regs => regs.a
def stxImpl : Template := .store fun regs => regs.x
def styImpl : Template := .store fun regs => regs.y
def taxImpl : Template := .implied fun regs => setNZ {regs with x := regs.a} regs.a
def tayImpl : Template := .implied fun regs => setNZ {regs with y := regs.a} regs.a
def tsxImpl : Template := .implied fun regs => setNZ {regs with x := regs.sp} regs.sp
def txaImpl : Template := .implied fun regs => setNZ {regs with a := regs.x} regs.x
def txsImpl : Template := .implied fun regs => {regs with sp := regs.x}
def tyaImpl : Template := .implied fun regs => setNZ {regs with a := regs.y} regs.y

/-! Undocumented instructions. -/

def laxImpl : Template := .read fun regs val => setNZ {regs with a := val, x := val} val
def saxImpl : Template := .store fun regs => regs.a &&& regs.x
def dcpImpl : Template := .rmw decrement untouched fun regs val => cmpCore regs regs.a val
def iscImpl : Template := .rmw increment untouched sbcCore
def sloImpl : Template :=
  .rmw shiftLeft carryFromTop fun regs val => setNZ {regs with a := regs.a ||| val} (regs.a ||| val)
def rlaImpl : Template :=
  .rmw rotateLeft carryFromTop fun regs val => setNZ {regs with a := regs.a &&& val} (regs.a &&& val)
def sreImpl : Template :=
  .rmw shiftRight carryFromBottom fun regs val => setNZ {regs with a := regs.a ^^^ val} (regs.a ^^^ val)
def rraImpl : Template := .rmw rotateRight carryFromBottom adcCore

def ancImpl : Template := .readFlat fun regs val =>
  let a := regs.a &&& val
  (setNZ {regs with a := a} a).setStatus flagC ((a &&& 0x80) != 0)

def alrImpl : Template := .readFlat fun regs data =>
  let val := regs.a &&& data
  setNZ {regs.setStatus flagC ((val &&& 0x01) != 0) with a := val >>> 1} (val >>> 1)

def arrImpl : Template := .readFlat fun regs data =>
  let val := regs.a &&& data
  let a := (val >>> 1) ||| (if regs.getStatus flagC then 0x80 else 0)
  ((setNZ {regs with a := a} a).setStatus flagC ((a &&& 0x40) != 0)).setStatus
    flagV ((((a >>> 6) ^^^ (a >>> 5)) &&& 0x01) != 0)

def sbxImpl : Template := .readFlat fun regs val =>
  let lhs := regs.a &&& regs.x
  setNZ {regs.setStatus flagC (decide (val ≤ lhs)) with x := lhs - val} (lhs - val)

def lasImpl : Template := .read fun regs data =>
  let val := data &&& regs.sp
  setNZ {regs with a := val, x := val, sp := val} val

def shxImpl (reg : Nat) : Template := .shx reg

def xaaImpl : Template := .readFlat fun regs val =>
  let a := (regs.a ||| 0xee) &&& regs.x &&& val
  setNZ {regs with a := a} a

def kilImpl : Template := .implied fun regs => {regs with pc := regs.pc - 1}

end Emu6502
