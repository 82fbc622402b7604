import Emu6502.InstructionImpl

/-! Processor.cpp: the opcode matrix, the interrupt sequence and one step of the
fetch-execute loop, then the emulator's reset. The clock is the default one, which
only counts. -/
namespace Emu6502
open Interaction

inductive Op where
  | adc | and | asl | bcc | bcs | beq | bit | bmi | bne | bpl | brk | bvc | bvs | clc | cld | cli
  | clv | cmp | cpx | cpy | dec | dex | dey | eor | inc | inx | iny | jmp | jsr | lda | ldx | ldy
  | lsr | nop | nopr | ora | pha | php | pla | plp | rol | ror | rti | rts | sbc | sec | sed | sei
  | sta | stx | sty | tax | tay | tsx | txa | txs | tya | lax | sax | dcp | isc | slo | rla | sre
  | rra | anc | alr | arr | sbx | las | shx (reg : Nat) | xaa | kil
  deriving DecidableEq, Repr

def Op.template : Op → Template
  | .adc => adcImpl
  | .and => andImpl
  | .asl => aslImpl
  | .bcc => bccImpl
  | .bcs => bcsImpl
  | .beq => beqImpl
  | .bit => bitImpl
  | .bmi => bmiImpl
  | .bne => bneImpl
  | .bpl => bplImpl
  | .brk => brkImpl
  | .bvc => bvcImpl
  | .bvs => bvsImpl
  | .clc => clcImpl
  | .cld => cldImpl
  | .cli => cliImpl
  | .clv => clvImpl
  | .cmp => cmpImpl
  | .cpx => cpxImpl
  | .cpy => cpyImpl
  | .dec => decImpl
  | .dex => dexImpl
  | .dey => deyImpl
  | .eor => eorImpl
  | .inc => incImpl
  | .inx => inxImpl
  | .iny => inyImpl
  | .jmp => jmpImpl
  | .jsr => jsrImpl
  | .lda => ldaImpl
  | .ldx => ldxImpl
  | .ldy => ldyImpl
  | .lsr => lsrImpl
  | .nop => nopImpl
  | .nopr => noprImpl
  | .ora => oraImpl
  | .pha => phaImpl
  | .php => phpImpl
  | .pla => plaImpl
  | .plp => plpImpl
  | .rol => rolImpl
  | .ror => rorImpl
  | .rti => rtiImpl
  | .rts => rtsImpl
  | .sbc => sbcImpl
  | .sec => secImpl
  | .sed => sedImpl
  | .sei => seiImpl
  | .sta => staImpl
  | .stx => stxImpl
  | .sty => styImpl
  | .tax => taxImpl
  | .tay => tayImpl
  | .tsx => tsxImpl
  | .txa => txaImpl
  | .txs => txsImpl
  | .tya => tyaImpl
  | .lax => laxImpl
  | .sax => saxImpl
  | .dcp => dcpImpl
  | .isc => iscImpl
  | .slo => sloImpl
  | .rla => rlaImpl
  | .sre => sreImpl
  | .rra => rraImpl
  | .anc => ancImpl
  | .alr => alrImpl
  | .arr => arrImpl
  | .sbx => sbxImpl
  | .las => lasImpl
  | .shx reg => shxImpl reg
  | .xaa => xaaImpl
  | .kil => kilImpl

structure Instr where
  op : Op
  mode : Mode
  cycles : Nat
  deriving DecidableEq, Repr

def execute (i : Instr) : Exec Nat := i.op.template.execute i.mode i.cycles

-- Entries of a 256-entry table, kept as rows by high nibble.
def byNibbles {α : Type} (table : Vector (Vector α 16) 16) (code : Uint8) : α :=
  (table.get ⟨code.toNat / 16,by omega⟩).get ⟨code.toNat % 16,by omega⟩

def instructionTable : Vector (Vector Instr 16) 16 := #v[
  #v[⟨.brk,.null,7⟩, ⟨.ora,.indirectX,6⟩, ⟨.kil,.null,3⟩, ⟨.slo,.indirectX,8⟩,
    ⟨.nopr,.zeroPage,3⟩, ⟨.ora,.zeroPage,3⟩, ⟨.asl,.zeroPage,5⟩, ⟨.slo,.zeroPage,5⟩,
    ⟨.php,.null,3⟩, ⟨.ora,.immediate,2⟩, ⟨.asl,.accumulator,2⟩, ⟨.anc,.immediate,2⟩,
    ⟨.nopr,.absolute,4⟩, ⟨.ora,.absolute,4⟩, ⟨.asl,.absolute,6⟩, ⟨.slo,.absolute,6⟩],
  #v[⟨.bpl,.relative,2⟩, ⟨.ora,.indirectY,5⟩, ⟨.kil,.null,3⟩, ⟨.slo,.indirectY,8⟩,
    ⟨.nopr,.zeroPageX,4⟩, ⟨.ora,.zeroPageX,4⟩, ⟨.asl,.zeroPageX,6⟩, ⟨.slo,.zeroPageX,6⟩,
    ⟨.clc,.null,2⟩, ⟨.ora,.absoluteY,4⟩, ⟨.nop,.null,2⟩, ⟨.slo,.absoluteY,7⟩,
    ⟨.nopr,.absoluteX,4⟩, ⟨.ora,.absoluteX,4⟩, ⟨.asl,.absoluteX,7⟩, ⟨.slo,.absoluteX,7⟩],
  #v[⟨.jsr,.absConst,6⟩, ⟨.and,.indirectX,6⟩, ⟨.kil,.null,3⟩, ⟨.rla,.indirectX,8⟩,
    ⟨.bit,.zeroPage,3⟩, ⟨.and,.zeroPage,3⟩, ⟨.rol,.zeroPage,5⟩, ⟨.rla,.zeroPage,5⟩,
    ⟨.plp,.null,4⟩, ⟨.and,.immediate,2⟩, ⟨.rol,.accumulator,2⟩, ⟨.anc,.immediate,2⟩,
    ⟨.bit,.absolute,4⟩, ⟨.and,.absolute,4⟩, ⟨.rol,.absolute,6⟩, ⟨.rla,.absolute,6⟩],
  #v[⟨.bmi,.relative,2⟩, ⟨.and,.indirectY,5⟩, ⟨.kil,.null,3⟩, ⟨.rla,.indirectY,8⟩,
    ⟨.nopr,.zeroPageX,4⟩, ⟨.and,.zeroPageX,4⟩, ⟨.rol,.zeroPageX,6⟩, ⟨.rla,.zeroPageX,6⟩,
    ⟨.sec,.null,2⟩, ⟨.and,.absoluteY,4⟩, ⟨.nop,.null,2⟩, ⟨.rla,.absoluteY,7⟩,
    ⟨.nopr,.absoluteX,4⟩, ⟨.and,.absoluteX,4⟩, ⟨.rol,.absoluteX,7⟩, ⟨.rla,.absoluteX,7⟩],
  #v[⟨.rti,.null,6⟩, ⟨.eor,.indirectX,6⟩, ⟨.kil,.null,3⟩, ⟨.sre,.indirectX,8⟩,
    ⟨.nopr,.zeroPage,3⟩, ⟨.eor,.zeroPage,3⟩, ⟨.lsr,.zeroPage,5⟩, ⟨.sre,.zeroPage,5⟩,
    ⟨.pha,.null,3⟩, ⟨.eor,.immediate,2⟩, ⟨.lsr,.accumulator,2⟩, ⟨.alr,.immediate,2⟩,
    ⟨.jmp,.absConst,3⟩, ⟨.eor,.absolute,4⟩, ⟨.lsr,.absolute,6⟩, ⟨.sre,.absolute,6⟩],
  #v[⟨.bvc,.relative,2⟩, ⟨.eor,.indirectY,5⟩, ⟨.kil,.null,3⟩, ⟨.sre,.indirectY,8⟩,
    ⟨.nopr,.zeroPageX,4⟩, ⟨.eor,.zeroPageX,4⟩, ⟨.lsr,.zeroPageX,6⟩, ⟨.sre,.zeroPageX,6⟩,
    ⟨.cli,.null,2⟩, ⟨.eor,.absoluteY,4⟩, ⟨.nop,.null,2⟩, ⟨.sre,.absoluteY,7⟩,
    ⟨.nopr,.absoluteX,4⟩, ⟨.eor,.absoluteX,4⟩, ⟨.lsr,.absoluteX,7⟩, ⟨.sre,.absoluteX,7⟩],
  #v[⟨.rts,.null,6⟩, ⟨.adc,.indirectX,6⟩, ⟨.kil,.null,3⟩, ⟨.rra,.indirectX,8⟩,
    ⟨.nopr,.zeroPage,3⟩, ⟨.adc,.zeroPage,3⟩, ⟨.ror,.zeroPage,5⟩, ⟨.rra,.zeroPage,5⟩,
    ⟨.pla,.null,4⟩, ⟨.adc,.immediate,2⟩, ⟨.ror,.accumulator,2⟩, ⟨.arr,.immediate,2⟩,
    ⟨.jmp,.indirect,5⟩, ⟨.adc,.absolute,4⟩, ⟨.ror,.absolute,6⟩, ⟨.rra,.absolute,6⟩],
  #v[⟨.bvs,.relative,2⟩, ⟨.adc,.indirectY,5⟩, ⟨.kil,.null,3⟩, ⟨.rra,.indirectY,8⟩,
    ⟨.nopr,.zeroPageX,4⟩, ⟨.adc,.zeroPageX,4⟩, ⟨.ror,.zeroPageX,6⟩, ⟨.rra,.zeroPageX,6⟩,
    ⟨.sei,.null,2⟩, ⟨.adc,.absoluteY,4⟩, ⟨.nop,.null,2⟩, ⟨.rra,.absoluteY,7⟩,
    ⟨.nopr,.absoluteX,4⟩, ⟨.adc,.absoluteX,4⟩, ⟨.ror,.absoluteX,7⟩, ⟨.rra,.absoluteX,7⟩],
  #v[⟨.nop,.immediate,2⟩, ⟨.sta,.indirectX,6⟩, ⟨.nop,.immediate,2⟩, ⟨.sax,.indirectX,6⟩,
    ⟨.sty,.zeroPage,3⟩, ⟨.sta,.zeroPage,3⟩, ⟨.stx,.zeroPage,3⟩, ⟨.sax,.zeroPage,3⟩,
    ⟨.dey,.null,2⟩, ⟨.nop,.immediate,2⟩, ⟨.txa,.null,2⟩, ⟨.xaa,.immediate,2⟩,
    ⟨.sty,.absolute,4⟩, ⟨.sta,.absolute,4⟩, ⟨.stx,.absolute,4⟩, ⟨.sax,.absolute,4⟩],
  #v[⟨.bcc,.relative,2⟩, ⟨.sta,.indirectY,6⟩, ⟨.kil,.null,3⟩, ⟨.shx 0,.indirectY,6⟩,
    ⟨.sty,.zeroPageX,4⟩, ⟨.sta,.zeroPageX,4⟩, ⟨.stx,.zeroPageY,4⟩, ⟨.sax,.zeroPageY,4⟩,
    ⟨.tya,.null,2⟩, ⟨.sta,.absoluteY,5⟩, ⟨.txs,.null,2⟩, ⟨.shx 3,.absoluteY,5⟩,
    ⟨.shx 2,.absoluteX,5⟩, ⟨.sta,.absoluteX,5⟩, ⟨.shx 1,.absoluteY,5⟩, ⟨.shx 0,.absoluteY,5⟩],
  #v[⟨.ldy,.immediate,2⟩, ⟨.lda,.indirectX,6⟩, ⟨.ldx,.immediate,2⟩, ⟨.lax,.indirectX,6⟩,
    ⟨.ldy,.zeroPage,3⟩, ⟨.lda,.zeroPage,3⟩, ⟨.ldx,.zeroPage,3⟩, ⟨.lax,.zeroPage,3⟩,
    ⟨.tay,.null,2⟩, ⟨.lda,.immediate,2⟩, ⟨.tax,.null,2⟩, ⟨.lax,.immediate,2⟩,
    ⟨.ldy,.absolute,4⟩, ⟨.lda,.absolute,4⟩, ⟨.ldx,.absolute,4⟩, ⟨.lax,.absolute,4⟩],
  #v[⟨.bcs,.relative,2⟩, ⟨.lda,.indirectY,5⟩, ⟨.kil,.null,3⟩, ⟨.lax,.indirectY,5⟩,
    ⟨.ldy,.zeroPageX,4⟩, ⟨.lda,.zeroPageX,4⟩, ⟨.ldx,.zeroPageY,4⟩, ⟨.lax,.zeroPageY,4⟩,
    ⟨.clv,.null,2⟩, ⟨.lda,.absoluteY,4⟩, ⟨.tsx,.null,2⟩, ⟨.las,.absoluteY,4⟩,
    ⟨.ldy,.absoluteX,4⟩, ⟨.lda,.absoluteX,4⟩, ⟨.ldx,.absoluteY,4⟩, ⟨.lax,.absoluteY,4⟩],
  #v[⟨.cpy,.immediate,2⟩, ⟨.cmp,.indirectX,6⟩, ⟨.nop,.immediate,2⟩, ⟨.dcp,.indirectX,8⟩,
    ⟨.cpy,.zeroPage,3⟩, ⟨.cmp,.zeroPage,3⟩, ⟨.dec,.zeroPage,5⟩, ⟨.dcp,.zeroPage,5⟩,
    ⟨.iny,.null,2⟩, ⟨.cmp,.immediate,2⟩, ⟨.dex,.null,2⟩, ⟨.sbx,.immediate,2⟩,
    ⟨.cpy,.absolute,4⟩, ⟨.cmp,.absolute,4⟩, ⟨.dec,.absolute,6⟩, ⟨.dcp,.absolute,6⟩],
  #v[⟨.bne,.relative,2⟩, ⟨.cmp,.indirectY,5⟩, ⟨.kil,.null,3⟩, ⟨.dcp,.indirectY,8⟩,
    ⟨.nopr,.zeroPageX,4⟩, ⟨.cmp,.zeroPageX,4⟩, ⟨.dec,.zeroPageX,6⟩, ⟨.dcp,.zeroPageX,6⟩,
    ⟨.cld,.null,2⟩, ⟨.cmp,.absoluteY,4⟩, ⟨.nop,.null,2⟩, ⟨.dcp,.absoluteY,7⟩,
    ⟨.nopr,.absoluteX,4⟩, ⟨.cmp,.absoluteX,4⟩, ⟨.dec,.absoluteX,7⟩, ⟨.dcp,.absoluteX,7⟩],
  #v[⟨.cpx,.immediate,2⟩, ⟨.sbc,.indirectX,6⟩, ⟨.nop,.immediate,2⟩, ⟨.isc,.indirectX,8⟩,
    ⟨.cpx,.zeroPage,3⟩, ⟨.sbc,.zeroPage,3⟩, ⟨.inc,.zeroPage,5⟩, ⟨.isc,.zeroPage,5⟩,
    ⟨.inx,.null,2⟩, ⟨.sbc,.immediate,2⟩, ⟨.nop,.null,2⟩, ⟨.sbc,.immediate,2⟩,
    ⟨.cpx,.absolute,4⟩, ⟨.sbc,.absolute,4⟩, ⟨.inc,.absolute,6⟩, ⟨.isc,.absolute,6⟩],
  #v[⟨.beq,.relative,2⟩, ⟨.sbc,.indirectY,5⟩, ⟨.kil,.null,3⟩, ⟨.isc,.indirectY,8⟩,
    ⟨.nopr,.zeroPageX,4⟩, ⟨.sbc,.zeroPageX,4⟩, ⟨.inc,.zeroPageX,6⟩, ⟨.isc,.zeroPageX,6⟩,
    ⟨.sed,.null,2⟩, ⟨.sbc,.absoluteY,4⟩, ⟨.nop,.null,2⟩, ⟨.isc,.absoluteY,7⟩,
    ⟨.nopr,.absoluteX,4⟩, ⟨.sbc,.absoluteX,4⟩, ⟨.inc,.absoluteX,7⟩, ⟨.isc,.absoluteX,7⟩]]

def instruction (code : Uint8) : Instr := byNibbles instructionTable code

structure Processor where
  regs : Registers
  cycles : Nat := 0
  running : Bool := false
  stopping : Bool := false
  nmiPending : Bool := false
  irqLine : Bool := false
  iFlagDelayed : Bool := false
  iFlagBefore : Bool := true
  deriving DecidableEq, Repr

inductive Served where
  | nmi
  | irq
  | executed (code : Uint8)
  deriving DecidableEq, Repr

def serviceInterrupt (vector : Uint16) : Exec Nat := do
  let regs ← get
  push16 regs.pc
  push8 ((regs.sr &&& ~~~flagB) ||| flagU)
  modify fun r => r.setStatus flagI true
  let target ← read16 vector
  modify fun r => {r with pc := target}
  pure 7

def fetch : Exec Uint8 := do
  let regs ← get
  modify fun r => {r with pc := r.pc + 1}
  busRead regs.pc

namespace Processor

def waitCycles (cpu : Processor) (cycles : Nat) : Processor := {cpu with cycles := cpu.cycles + cycles}

/- The gate on IRQ: the flag before the last instruction if that changed it too late. -/
def masked (cpu : Processor) : Bool :=
  if cpu.iFlagDelayed then cpu.iFlagBefore else cpu.regs.getStatus flagI

def step (cpu : Processor) : Program Uint16 Uint8 (Served × Processor) :=
  if cpu.nmiPending then do
    let cpu := {cpu with nmiPending := false}
    let (cycles,regs) ← (serviceInterrupt 0xfffa).run cpu.regs
    pure (.nmi,{cpu.waitCycles cycles with regs := regs, iFlagDelayed := false})
  else if cpu.irqLine && !cpu.masked then do
    let (cycles,regs) ← (serviceInterrupt 0xfffe).run cpu.regs
    pure (.irq,{cpu.waitCycles cycles with regs := regs, iFlagDelayed := false})
  else do
    let (code,regs) ← fetch.run cpu.regs
    let before := regs.getStatus flagI
    let (cycles,regs) ← (execute (instruction code)).run regs
    pure (.executed code,{cpu.waitCycles cycles with
      regs := regs
      iFlagDelayed := code == 0x58 || code == 0x78 || code == 0x28
      iFlagBefore := before})

def pause (cpu : Processor) : Processor := {cpu with stopping := true}
def nmi (cpu : Processor) : Processor := {cpu with nmiPending := true}
def irq (cpu : Processor) (asserted : Bool) : Processor := {cpu with irqLine := asserted}

def clearInterrupts (cpu : Processor) : Processor :=
  {cpu with nmiPending := false, irqLine := false, iFlagDelayed := false}

/-! I6502Emulator. -/

/-- start(false). The memset clears every field of the struct, decimalDisabled among them. -/
def start (cpu : Processor) : Program Uint16 Uint8 Processor := do
  let regs : Registers := {a := 0, x := 0, y := 0, sr := flagU ||| flagI, sp := 0xfd, pc := 0}
  let (pc,regs) ← (read16 0xfffc).run regs
  let cpu := {cpu with regs := {regs with pc := pc}}.clearInterrupts
  pure ({cpu with cycles := 0}.waitCycles 7)

/- stop() on the thread that owns the processor: it spins for ever on a running one. -/
def stop (cpu : Processor) : Option Processor :=
  let cpu := cpu.pause
  if cpu.running then none else some cpu

end Processor
end Emu6502
