import Emu6502.BusPattern

/-! What instructions leave of the registers as they found it. A relation between the
registers before and after holds of a whole instruction when it holds of the register
updates its template is made of; the status frame and the rest are instances. -/
namespace Emu6502
open Interaction

/- A preorder on register files that does not look at pc. -/
structure Frame (R : Registers → Registers → Prop) : Prop where
  refl : ∀ regs, R regs regs
  trans : ∀ {r s t}, R r s → R s t → R r t
  jump : ∀ regs pc, R regs {regs with pc := pc}

namespace Template

/-- The register updates of a template are all within `R`. -/
def Within (t : Template) (R : Registers → Registers → Prop) : Prop :=
  match t with
  | read apply | readFlat apply => ∀ regs val, R regs (apply regs val)
  | rmw _ before after =>
      (∀ regs orig val, R regs (before regs orig val)) ∧ (∀ regs val, R regs (after regs val)) ∧
        ∀ regs val, R regs {regs with a := val}
  | implied apply => ∀ regs, R regs (apply regs)
  | pull apply => ∀ regs val, R regs (apply {regs with sp := regs.sp + 1} val)
  | push _ => ∀ regs, R regs {regs with sp := regs.sp - 1}
  | shx reg => ∀ regs, R regs (if reg = 3 then {regs with sp := regs.a &&& regs.x} else regs)
  | jsr => ∀ regs, R regs {regs with sp := regs.sp - 1 - 1}
  | brk => ∀ regs, R regs {regs.setStatus flagI true with sp := regs.sp - 1 - 1 - 1}
  | rti => ∀ regs val, R regs {regs with sr := pulledStatus val, sp := regs.sp + 1 + 1 + 1}
  | rts => ∀ regs, R regs {regs with sp := regs.sp + 1 + 1}
  | store _ | branch _ _ | nop | jmp => True

theorem Within.mono {R S : Registers → Registers → Prop} {t : Template} (within : t.Within R)
    (weaker : ∀ before after, R before after → S before after) : t.Within S := by
  cases t with
  | read apply => exact fun regs val => weaker _ _ (within regs val)
  | readFlat apply => exact fun regs val => weaker _ _ (within regs val)
  | rmw result before after =>
    exact ⟨fun regs orig val => weaker _ _ (within.1 regs orig val),
      fun regs val => weaker _ _ (within.2.1 regs val),fun regs val => weaker _ _ (within.2.2 regs val)⟩
  | pull apply => exact fun regs val => weaker _ _ (within regs val)
  | rti => exact fun regs val => weaker _ _ (within regs val)
  | implied apply => exact fun regs => weaker _ _ (within regs)
  | push value => exact fun regs => weaker _ _ (within regs)
  | shx reg => exact fun regs => weaker _ _ (within regs)
  | jsr => exact fun regs => weaker _ _ (within regs)
  | brk => exact fun regs => weaker _ _ (within regs)
  | rts => exact fun regs => weaker _ _ (within regs)
  | store source => trivial
  | branch flag set => trivial
  | nop => trivial
  | jmp => trivial

theorem branchFrame {R : Registers → Registers → Prop} (frame : Frame R) (flag : Uint8) (set : Bool)
    (cycles : Nat) (regs : Registers) (v : Uint8) : R regs (branchOutcome flag set cycles regs v).2 := by
  unfold branchOutcome
  split
  · exact frame.refl regs
  · exact frame.jump regs _

def jumps : Template → Bool
  | branch _ _ | jmp | jsr | brk | rti | rts => true
  | _ => false

theorem actionStraight {R : Registers → Registers → Prop} (refl : ∀ regs, R regs regs)
    (trans : ∀ {r s t}, R r s → R s t → R r t) {t : Template} (straight : t.jumps = false) (within : t.Within R)
    (mode : Mode) (cycles : Nat) (regs : Registers) (data : Uint16) :
    (t.action mode cycles regs data).Every fun _ out => R regs out.2 := by
  cases t with
  | read apply =>
    simp only [action,Program.everyBind]
    exact Program.everyOf fun _ _ => Program.everyOf fun _ val => within regs val
  | readFlat apply =>
    simp only [action,Program.everyBind]
    exact Program.everyOf fun _ _ => Program.everyOf fun _ val => within regs val
  | rmw result before after =>
    obtain ⟨hb,ha,accumulator⟩ := within
    simp only [action]
    split
    · exact trans (trans (hb _ _ _) (accumulator _ _)) (ha _ _)
    · simp only [Program.everyBind]
      exact Program.everyOf fun _ _ => Program.everyOf fun _ _ _ => trans (hb _ _ _) (ha _ _)
  | store source =>
    simp only [action,Program.everyBind]
    exact Program.everyOf fun _ _ => Program.everyOf fun _ _ => refl regs
  | shx reg =>
    simp only [action,Program.everyBind]
    exact Program.everyOf fun _ _ => within regs
  | implied apply => exact within regs
  | push value => exact within regs
  | pull apply => exact fun val => within regs val
  | nop => exact refl regs
  | branch flag set => contradiction
  | jmp => contradiction
  | jsr => contradiction
  | brk => contradiction
  | rti => contradiction
  | rts => contradiction

theorem actionFrame {R : Registers → Registers → Prop} (frame : Frame R) {t : Template} (within : t.Within R)
    (mode : Mode) (cycles : Nat) (regs : Registers) (data : Uint16) :
    (t.action mode cycles regs data).Every fun _ out => R regs out.2 := by
  cases jumping : t.jumps with
  | false => exact actionStraight frame.refl frame.trans jumping within mode cycles regs data
  | true =>
    cases t with
    | jmp =>
      simp only [action]
      split
      · exact fun _ _ => frame.jump regs _
      · exact frame.jump regs _
    | branch flag set => exact branchFrame frame flag set cycles regs _
    | brk => exact fun _ _ => frame.trans (within regs) (frame.jump _ _)
    | jsr => exact frame.trans (within regs) (frame.jump _ _)
    | rti => exact fun val _ _ => frame.trans (within regs val) (frame.jump _ _)
    | rts => exact fun _ _ => frame.trans (within regs) (frame.jump _ _)
    | _ => contradiction

end Template

theorem instructionFrame {R : Registers → Registers → Prop} (frame : Frame R) (cpu : Processor) (code : Uint8)
    (within : (instruction code).op.template.Within R) :
    (cpu.instructionBody code).Every fun _ out => R cpu.regs out.2 := by
  simp only [Processor.instructionBody,Program.everyBind]
  refine Program.everyOf fun _ data => ?_
  refine Program.everyMono (Template.actionFrame frame within _ _ _ data) fun _ out kept => ?_
  exact frame.trans (frame.trans (frame.jump cpu.regs (cpu.regs.pc + 1)) (frame.jump _ _)) kept

/-! The status frame. -/

def StatusKept (keep : Uint8) (before after : Registers) : Prop := after.sr &&& keep = before.sr &&& keep

theorem statusFrame (keep : Uint8) : Frame (StatusKept keep) where
  refl _ := rfl
  trans first second := second.trans first
  jump _ _ := rfl

def Op.statusWrites : Op → Uint8
  | .adc | .sbc | .rra | .isc | .arr => flagN ||| flagV ||| flagZ ||| flagC
  | .asl | .lsr | .rol | .ror | .slo | .rla | .sre | .cmp | .cpx | .cpy | .dcp | .anc | .alr | .sbx =>
      flagN ||| flagZ ||| flagC
  | .bit => flagN ||| flagV ||| flagZ
  | .and | .eor | .ora | .lda | .ldx | .ldy | .lax | .las | .xaa | .inc | .dec | .inx | .iny | .dex | .dey
  | .tax | .tay | .tsx | .txa | .tya | .pla => flagN ||| flagZ
  | .clc | .sec => flagC
  | .cld | .sed => flagD
  | .cli | .sei | .brk => flagI
  | .clv => flagV
  | .plp | .rti => 0xff
  | .bcc | .bcs | .beq | .bmi | .bne | .bpl | .bvc | .bvs | .jmp | .jsr | .nop | .nopr | .pha | .php
  | .rts | .sta | .stx | .sty | .txs | .sax | .shx _ | .kil => 0

section
variable {keep : Uint8}

theorem flagOutside {flag mask : Uint8} (among : flag &&& mask = flag) (outside : mask &&& keep = 0) :
    flag &&& keep = 0 := by
  rw [← among,BitVec.and_assoc,outside]
  exact BitVec.and_zero

theorem setNZKeeps (hN : flagN &&& keep = 0) (hZ : flagZ &&& keep = 0) (regs : Registers) (val : Uint8) :
    (setNZ regs val).sr &&& keep = regs.sr &&& keep := by
  simp only [setNZ,Registers.setStatusKeeps,hN,hZ]

theorem adcCoreKeeps (hN : flagN &&& keep = 0) (hV : flagV &&& keep = 0) (hZ : flagZ &&& keep = 0)
    (hC : flagC &&& keep = 0) (regs : Registers) (val : Uint8) :
    (adcCore regs val).sr &&& keep = regs.sr &&& keep := by
  refine iteInduction (motive := fun out => Registers.sr out &&& keep = regs.sr &&& keep) (fun _ => ?_) fun _ => ?_
  all_goals simp only [Registers.setStatusKeeps,hN,hV,hZ,hC]

theorem sbcCoreKeeps (hN : flagN &&& keep = 0) (hV : flagV &&& keep = 0) (hZ : flagZ &&& keep = 0)
    (hC : flagC &&& keep = 0) (regs : Registers) (val : Uint8) :
    (sbcCore regs val).sr &&& keep = regs.sr &&& keep := by
  simp only [sbcCore,Registers.setStatusKeeps,hN,hV,hZ,hC]

theorem cmpCoreKeeps (hN : flagN &&& keep = 0) (hZ : flagZ &&& keep = 0) (hC : flagC &&& keep = 0)
    (regs : Registers) (reg val : Uint8) : (cmpCore regs reg val).sr &&& keep = regs.sr &&& keep := by
  simp only [cmpCore,Registers.setStatusKeeps,hN,hZ,hC]

theorem opStatusWithin (op : Op) (outside : op.statusWrites &&& keep = 0) :
    op.template.Within (StatusKept keep) := by
  have writes : ∀ flag, flag &&& op.statusWrites = flag → flag &&& keep = 0 :=
    fun flag among => flagOutside among outside
  cases op
  all_goals
    simp (disch := exact writes _ rfl) only [Op.template,adcImpl,andImpl,aslImpl,bccImpl,bcsImpl,beqImpl,bitImpl,
      bmiImpl,bneImpl,bplImpl,brkImpl,bvcImpl,bvsImpl,clcImpl,cldImpl,cliImpl,clvImpl,cmpImpl,cpxImpl,cpyImpl,
      decImpl,dexImpl,deyImpl,eorImpl,incImpl,inxImpl,inyImpl,jmpImpl,jsrImpl,ldaImpl,ldxImpl,ldyImpl,lsrImpl,
      nopImpl,noprImpl,oraImpl,phaImpl,phpImpl,plaImpl,plpImpl,rolImpl,rorImpl,rtiImpl,rtsImpl,sbcImpl,secImpl,
      sedImpl,seiImpl,staImpl,stxImpl,styImpl,taxImpl,tayImpl,tsxImpl,txaImpl,txsImpl,tyaImpl,laxImpl,saxImpl,
      dcpImpl,iscImpl,sloImpl,rlaImpl,sreImpl,rraImpl,ancImpl,alrImpl,arrImpl,sbxImpl,lasImpl,shxImpl,xaaImpl,
      kilImpl,carryFromTop,carryFromBottom,untouched,Template.Within,StatusKept,Registers.setStatusKeeps,
      setNZKeeps,adcCoreKeeps,sbcCoreKeeps,cmpCoreKeeps,implies_true,and_self]
  case plp | rti =>
    -- Every bit may change, so none is kept.
    have none : keep = 0 := BitVec.allOnes_and.symm.trans (writes (BitVec.allOnes 8) rfl)
    simp [none]
  case shx reg => exact fun regs => by split <;> rfl

end

/-! Fields beside the arithmetic: pc, which only jumps and KIL write, and decimalDisabled,
which nothing does. -/

structure Aside (before after : Registers) : Prop where
  pc : after.pc = before.pc
  decimal : after.decimalDisabled = before.decimalDisabled

theorem adcCoreAside (regs : Registers) (val : Uint8) : Aside regs (adcCore regs val) :=
  iteInduction (motive := Aside regs) (fun _ => ⟨rfl,rfl⟩) fun _ => ⟨rfl,rfl⟩

theorem opAside (op : Op) (moves : op ≠ .kil) : op.template.Within Aside := by
  cases op
  case kil => contradiction
  case adc => exact adcCoreAside
  case rra => exact ⟨fun _ _ _ => ⟨rfl,rfl⟩,adcCoreAside,fun _ _ => ⟨rfl,rfl⟩⟩
  case shx reg =>
    exact fun regs => iteInduction (motive := Aside regs) (fun _ => ⟨rfl,rfl⟩) fun _ => ⟨rfl,rfl⟩
  all_goals
    first
    | exact trivial
    | exact fun _ => ⟨rfl,rfl⟩
    | exact fun _ _ => ⟨rfl,rfl⟩
    | exact ⟨fun _ _ _ => ⟨rfl,rfl⟩,fun _ _ => ⟨rfl,rfl⟩,fun _ _ => ⟨rfl,rfl⟩⟩

def DecimalKept (before after : Registers) : Prop := after.decimalDisabled = before.decimalDisabled

theorem decimalFrame : Frame DecimalKept where
  refl _ := rfl
  trans first second := second.trans first
  jump _ _ := rfl

theorem opDecimalWithin (op : Op) : op.template.Within DecimalKept := by
  by_cases kil : op = .kil
  · subst kil
    exact fun _ => rfl
  · exact (opAside op kil).mono fun _ _ aside => aside.decimal

theorem stepDecimal (cpu : Processor) :
    cpu.step.Every fun _ out => out.2.regs.decimalDisabled = cpu.regs.decimalDisabled := by
  refine Processor.everyStep ?_ ?_ ?_
  · intros; rfl
  · intros; rfl
  · intro _ code
    exact instructionFrame decimalFrame cpu code (opDecimalWithin _)

end Emu6502
