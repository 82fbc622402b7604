import Emu6502.TwoRuns
import Emu6502.ByteArithmetic

/-! A chip wired without decimal arithmetic carries D along and looks at it nowhere: two
runs that start apart in D alone stay apart in D alone, unless one pushes the status. -/
namespace Emu6502
open Interaction

/- Equal but for D, on a chip wired without decimal. -/
structure ApartInD (regs other : Registers) : Prop where
  a : regs.a = other.a
  x : regs.x = other.x
  y : regs.y = other.y
  sp : regs.sp = other.sp
  pc : regs.pc = other.pc
  sr : regs.sr &&& ~~~flagD = other.sr &&& ~~~flagD
  wired : regs.decimalDisabled = true ∧ other.decimalDisabled = true

namespace ApartInD
variable {regs other : Registers}

theorem shape (apart : ApartInD regs other) : ∃ sr, other = {regs with sr := sr} := by
  obtain ⟨a,x,y,sp,pc,_,wired,otherWired⟩ := apart
  refine ⟨other.sr,?_⟩
  cases other
  simp_all

theorem status (apart : ApartInD regs other) (flag : Uint8) (flagApart : flag &&& flagD = 0) :
    regs.getStatus flag = other.getStatus flag := by
  have among : ∀ flag : Uint8, flag &&& flagD = 0 → ~~~flagD &&& flag = flag := by decide
  have masked := congrArg (· &&& flag) apart.sr
  simp only [BitVec.and_assoc,among flag flagApart] at masked
  simp only [Registers.getStatus,masked]

theorem setStatus (apart : ApartInD regs other) (flag : Uint8) (v : Bool) :
    ApartInD (regs.setStatus flag v) (other.setStatus flag v) := by
  refine ⟨apart.a,apart.x,apart.y,apart.sp,apart.pc,?_,apart.wired⟩
  have sr := apart.sr
  cases v with
  | true =>
    simp only [Registers.setStatus,if_true,BitVec.and_or_distrib_right,sr]
  | false =>
    have swap (s : Uint8) : s &&& ~~~flag &&& ~~~flagD = s &&& ~~~flagD &&& ~~~flag := by
      rw [BitVec.and_assoc,BitVec.and_comm (~~~flag),BitVec.and_assoc]
    simp only [Registers.setStatus,Bool.false_eq_true,if_false,swap,sr]

theorem rotateLeft (apart : ApartInD regs other) (orig : Uint8) :
    Emu6502.rotateLeft regs orig = Emu6502.rotateLeft other orig := by
  simp only [Emu6502.rotateLeft,apart.status flagC (by decide)]

theorem rotateRight (apart : ApartInD regs other) (orig : Uint8) :
    Emu6502.rotateRight regs orig = Emu6502.rotateRight other orig := by
  simp only [Emu6502.rotateRight,apart.status flagC (by decide)]

theorem setNZ (apart : ApartInD regs other) (val : Uint8) :
    ApartInD (Emu6502.setNZ regs val) (Emu6502.setNZ other val) := (apart.setStatus flagZ _).setStatus flagN _

theorem setA (apart : ApartInD regs other) (val : Uint8) :
    ApartInD {regs with a := val} {other with a := val} :=
  ⟨rfl,apart.x,apart.y,apart.sp,apart.pc,apart.sr,apart.wired⟩

theorem setX (apart : ApartInD regs other) (val : Uint8) :
    ApartInD {regs with x := val} {other with x := val} :=
  ⟨apart.a,rfl,apart.y,apart.sp,apart.pc,apart.sr,apart.wired⟩

theorem setY (apart : ApartInD regs other) (val : Uint8) :
    ApartInD {regs with y := val} {other with y := val} :=
  ⟨apart.a,apart.x,rfl,apart.sp,apart.pc,apart.sr,apart.wired⟩

theorem setSp (apart : ApartInD regs other) (val : Uint8) :
    ApartInD {regs with sp := val} {other with sp := val} :=
  ⟨apart.a,apart.x,apart.y,rfl,apart.pc,apart.sr,apart.wired⟩

theorem setPc (apart : ApartInD regs other) (val : Uint16) :
    ApartInD {regs with pc := val} {other with pc := val} :=
  ⟨apart.a,apart.x,apart.y,apart.sp,rfl,apart.sr,apart.wired⟩

theorem adcCore (apart : ApartInD regs other) (val : Uint8) :
    ApartInD (Emu6502.adcCore regs val) (Emu6502.adcCore other val) := by
  rw [adcCoreBinary (binaryMode (.inr apart.wired.1)),adcCoreBinary (binaryMode (.inr apart.wired.2))]
  have res : adcResult regs val = adcResult other val := by
    simp only [adcResult,apart.a,apart.status flagC (by decide)]
  simp only [res,apart.a]
  exact ((((apart.setStatus _ _).setStatus _ _).setStatus _ _).setStatus _ _).setA _

theorem sbcCore (apart : ApartInD regs other) (val : Uint8) :
    ApartInD (Emu6502.sbcCore regs val) (Emu6502.sbcCore other val) := by
  rw [sbcCoreBinary (binaryMode (.inr apart.wired.1)),sbcCoreBinary (binaryMode (.inr apart.wired.2))]
  have res : sbcResult regs val = sbcResult other val := by
    simp only [sbcResult,apart.a,apart.status flagC (by decide)]
  simp only [res,apart.a]
  exact ((((apart.setStatus _ _).setStatus _ _).setStatus _ _).setA _).setStatus _ _

theorem cmpCore (apart : ApartInD regs other) (reg val : Uint8) :
    ApartInD (Emu6502.cmpCore regs reg val) (Emu6502.cmpCore other reg val) :=
  ((apart.setStatus _ _).setStatus _ _).setStatus _ _

end ApartInD

/- What a template computes of registers that differ in D differs in D at most. -/
def Template.Blind (t : Template) : Prop :=
  match t with
  | read apply | readFlat apply | pull apply =>
      ∀ regs other val, ApartInD regs other → ApartInD (apply regs val) (apply other val)
  | rmw result before after =>
      (∀ regs other orig, ApartInD regs other → result regs orig = result other orig) ∧
      (∀ regs other orig val, ApartInD regs other → ApartInD (before regs orig val) (before other orig val)) ∧
      ∀ regs other val, ApartInD regs other → ApartInD (after regs val) (after other val)
  | store value | push value => ∀ regs other, ApartInD regs other → value regs = value other
  | implied apply => ∀ regs other, ApartInD regs other → ApartInD (apply regs) (apply other)
  | branch flag _ => flag &&& flagD = 0
  | brk => False
  | _ => True

namespace Mode
variable {regs other : Registers} (apart : ApartInD regs other) (mode : Mode) (data : Uint16)
include apart

theorem pointerApart : mode.pointer regs data = mode.pointer other data := by
  cases mode <;> simp only [pointer,apart.x]

theorem effectiveApart : mode.effective regs data = mode.effective other data := by
  cases mode <;> simp only [effective,index,apart.x,apart.y]

theorem halfwayApart : mode.halfway regs data = mode.halfway other data := by
  cases mode <;> simp only [halfway,index,apart.x,apart.y]

theorem crossesApart : mode.crosses regs data = mode.crosses other data := by
  simp only [crosses,effectiveApart apart]

theorem loadApart : mode.load regs data = mode.load other data := by
  simp only [load,effectiveApart apart,halfwayApart apart,crossesApart apart]

theorem settleApart : mode.settle regs data = mode.settle other data := by
  simp only [settle,halfwayApart apart]

end Mode

def ApartOut (out other : Nat × Registers) : Prop := out.1 = other.1 ∧ ApartInD out.2 other.2

theorem actionApart {t : Template} (blind : t.Blind) {regs other : Registers} (apart : ApartInD regs other)
    (mode : Mode) (cycles : Nat) (data : Uint16) :
    Program.Related ApartOut (t.action mode cycles regs data) (t.action mode cycles other data) := by
  cases t with
  | read apply =>
    simp only [Template.action,Mode.pointerApart apart]
    refine Program.relatedAfter _ fun ptr => ?_
    simp only [Mode.loadApart apart,Mode.crossesApart apart]
    refine Program.relatedAfter _ fun val => ?_
    exact ⟨rfl,blind _ _ val apart⟩
  | readFlat apply =>
    simp only [Template.action,Mode.pointerApart apart]
    refine Program.relatedAfter _ fun ptr => ?_
    simp only [Mode.loadApart apart]
    refine Program.relatedAfter _ fun val => ?_
    exact ⟨rfl,blind _ _ val apart⟩
  | rmw result before after =>
    obtain ⟨sameResult,beforeBlind,afterBlind⟩ := blind
    simp only [Template.action,Mode.pointerApart apart,apart.a,sameResult _ _ _ apart]
    split
    · exact ⟨rfl,afterBlind _ _ _ ((beforeBlind _ _ _ _ apart).setA _)⟩
    · refine Program.relatedAfter _ fun ptr => ?_
      simp only [Mode.settleApart apart,Mode.effectiveApart apart]
      refine Program.relatedAfter _ fun _ => ?_
      refine Program.relatedRead _ fun orig => Program.relatedWrite _ _ (Program.relatedWrite _ _ ?_)
      exact ⟨rfl,afterBlind _ _ _ (beforeBlind _ _ _ _ apart)⟩
  | store source =>
    simp only [Template.action,Mode.pointerApart apart,blind _ _ apart]
    refine Program.relatedAfter _ fun ptr => ?_
    simp only [Mode.settleApart apart,Mode.effectiveApart apart]
    refine Program.relatedAfter _ fun _ => ?_
    exact Program.relatedWrite _ _ ⟨rfl,apart⟩
  | shx reg =>
    have source : shxSource reg regs = shxSource reg other := by
      unfold shxSource
      split <;> simp only [apart.a,apart.x,apart.y]
    simp only [Template.action,Mode.pointerApart apart,source,apart.a,apart.x]
    refine Program.relatedAfter _ fun ptr => ?_
    simp only [Mode.effectiveApart apart]
    refine Program.relatedWrite _ _ ⟨rfl,?_⟩
    split
    · exact ⟨rfl,rfl,apart.y,rfl,apart.pc,apart.sr,apart.wired⟩
    · exact apart
  | implied apply => exact ⟨rfl,blind _ _ apart⟩
  | branch flag set =>
    simp only [Template.action,branchOutcome,apart.status flag blind,apart.pc]
    split
    · exact ⟨rfl,apart⟩
    · exact ⟨rfl,apart.setPc _⟩
  | push value =>
    simp only [Template.action,apart.sp,blind _ _ apart]
    exact Program.relatedWrite _ _ ⟨rfl,apart.setSp _⟩
  | pull apply =>
    simp only [Template.action,apart.sp]
    exact Program.relatedRead _ fun val => ⟨rfl,blind _ _ val (apart.setSp _)⟩
  | nop => exact ⟨rfl,apart⟩
  | brk => exact blind.elim
  | jmp =>
    simp only [Template.action]
    split
    · exact Program.relatedRead _ fun lo => Program.relatedRead _ fun hi => ⟨rfl,apart.setPc _⟩
    · exact ⟨rfl,apart.setPc _⟩
  | jsr =>
    simp only [Template.action,apart.sp,apart.pc]
    exact Program.relatedWrite _ _ (Program.relatedWrite _ _
      ⟨rfl,apart.a,apart.x,apart.y,rfl,rfl,apart.sr,apart.wired⟩)
  | rti =>
    simp only [Template.action,apart.sp]
    exact Program.relatedRead _ fun val => Program.relatedRead _ fun lo => Program.relatedRead _ fun hi =>
      ⟨rfl,apart.a,apart.x,apart.y,rfl,rfl,rfl,apart.wired⟩
  | rts =>
    simp only [Template.action,apart.sp]
    exact Program.relatedRead _ fun lo => Program.relatedRead _ fun hi =>
      ⟨rfl,apart.a,apart.x,apart.y,rfl,rfl,apart.sr,apart.wired⟩

theorem opBlind (op : Op) (quiet : op ≠ .brk ∧ op ≠ .php) : op.template.Blind := by
  cases op
  case brk => exact absurd rfl quiet.1
  case php => exact absurd rfl quiet.2
  case adc => exact fun _ _ val apart => apart.adcCore val
  case sbc => exact fun _ _ val apart => apart.sbcCore val
  case bcc | bcs | beq | bmi | bne | bpl | bvc | bvs => exact rfl
  case jmp | jsr | nop | rti | rts | shx => exact trivial
  -- Shared operand registers first, then the updates one by one.
  all_goals
    first
    | intro regs other val apart
      have carry := apart.status flagC (by decide)
      obtain ⟨sr,rfl⟩ := apart.shape
    | intro regs other apart
      obtain ⟨sr,rfl⟩ := apart.shape
    | skip
  case nopr => exact apart
  case and | eor | ora | lda | xaa | pla => exact (apart.setA _).setNZ _
  case ldx => exact (apart.setX _).setNZ _
  case ldy => exact (apart.setY _).setNZ _
  case lax => exact ((apart.setA _).setX _).setNZ _
  case las => exact (((apart.setA _).setX _).setSp _).setNZ _
  case cmp | cpx | cpy => exact apart.cmpCore _ _
  case bit => exact ((apart.setStatus _ _).setStatus _ _).setStatus _ _
  case anc => exact ((apart.setA _).setNZ _).setStatus _ _
  case alr => exact ((apart.setStatus _ _).setA _).setNZ _
  case sbx => exact ((apart.setStatus _ _).setX _).setNZ _
  case plp => exact ⟨rfl,rfl,rfl,rfl,rfl,rfl,apart.wired⟩
  case clc | cld | cli | clv | sec | sed | sei => exact apart.setStatus _ _
  case dex | inx | tax | tsx => exact (apart.setX _).setNZ _
  case dey | iny | tay => exact (apart.setY _).setNZ _
  case txa | tya => exact (apart.setA _).setNZ _
  case txs => exact apart.setSp _
  case kil => exact apart.setPc _
  case pha | sta | stx | sty | sax => exact rfl
  case arr =>
    simp only [← carry]
    exact (((apart.setA _).setNZ _).setStatus _ _).setStatus _ _
  case asl | lsr =>
    exact ⟨fun _ _ _ _ => rfl,fun _ _ _ _ apart => (apart.setStatus _ _).setNZ _,fun _ _ _ apart => apart⟩
  case rol =>
    exact ⟨fun _ _ _ apart => apart.rotateLeft _,fun _ _ _ _ apart => (apart.setStatus _ _).setNZ _,
      fun _ _ _ apart => apart⟩
  case ror =>
    exact ⟨fun _ _ _ apart => apart.rotateRight _,fun _ _ _ _ apart => (apart.setStatus _ _).setNZ _,
      fun _ _ _ apart => apart⟩
  case dec | inc =>
    exact ⟨fun _ _ _ _ => rfl,fun _ _ _ _ apart => apart,fun _ _ _ apart => apart.setNZ _⟩
  case isc => exact ⟨fun _ _ _ _ => rfl,fun _ _ _ _ apart => apart,fun _ _ _ apart => apart.sbcCore _⟩
  case rra =>
    exact ⟨fun _ _ _ apart => apart.rotateRight _,fun _ _ _ _ apart => apart.setStatus _ _,
      fun _ _ _ apart => apart.adcCore _⟩
  case dcp =>
    refine ⟨fun _ _ _ _ => rfl,fun _ _ _ _ apart => apart,fun regs other val apart => ?_⟩
    obtain ⟨sr,rfl⟩ := apart.shape
    exact apart.cmpCore _ _
  case slo | sre =>
    refine ⟨fun _ _ _ _ => rfl,fun _ _ _ _ apart => apart.setStatus _ _,fun regs other val apart => ?_⟩
    obtain ⟨sr,rfl⟩ := apart.shape
    exact (apart.setA _).setNZ _
  case rla =>
    refine ⟨fun _ _ _ apart => apart.rotateLeft _,fun _ _ _ _ apart => apart.setStatus _ _,
      fun regs other val apart => ?_⟩
    obtain ⟨sr,rfl⟩ := apart.shape
    exact (apart.setA _).setNZ _

theorem bodyApart {cpu : Processor} {regs : Registers} (apart : ApartInD cpu.regs regs) (code : Uint8)
    (quiet : (instruction code).op ≠ .brk ∧ (instruction code).op ≠ .php) :
    Program.Related ApartOut (cpu.instructionBody code) ({cpu with regs := regs}.instructionBody code) := by
  simp only [Processor.instructionBody,apart.pc]
  refine Program.relatedAfter _ fun data => ?_
  refine actionApart (opBlind _ quiet) ?_ _ _ data
  exact ⟨apart.a,apart.x,apart.y,apart.sp,rfl,apart.sr,apart.wired⟩

/- Registers apart in D and the rest of the processor equal. -/
def ProcessorApart (cpu other : Processor) : Prop :=
  ∃ regs, other = {cpu with regs := regs} ∧ ApartInD cpu.regs regs

namespace Machine
variable {σ : Type} (d : Device Uint16 Uint8 σ)

theorem quietExecutes {m : Machine σ} (quiet : (m.served d).pusher = none) :
    ∃ code, m.served d = .executed code ∧ (instruction code).op ≠ .brk ∧ (instruction code).op ≠ .php := by
  cases served : m.served d with
  | nmi => simp [served,Served.pusher] at quiet
  | irq => simp [served,Served.pusher] at quiet
  | executed code =>
    refine ⟨code,rfl,?_,?_⟩
    all_goals
      intro pushes
      simp [served,Served.pusher,pushes] at quiet

theorem stepApart {cpu : Processor} {regs : Registers} (apart : ApartInD cpu.regs regs) {bus : σ}
    (quiet : ((⟨cpu,bus⟩ : Machine σ).served d).pusher = none) :
    let first := (⟨cpu,bus⟩ : Machine σ).stepped d
    let second := (⟨{cpu with regs := regs},bus⟩ : Machine σ).stepped d
    first.result.1 = second.result.1 ∧ first.log = second.log ∧ first.state = second.state ∧
      ProcessorApart first.result.2 second.result.2 := by
  obtain ⟨code,ran,silent⟩ := quietExecutes d quiet
  have free := ((⟨cpu,bus⟩ : Machine σ).isStepped d).executes ran
  have fetched : (d.read bus cpu.regs.pc).1 = code := (executedLeaves d ran).1
  have flag := apart.status flagI (by decide)
  have otherFree : {cpu with regs := regs}.executes = true := by
    simpa only [Processor.executes,Processor.masked,flag] using free
  intro first second
  have firstIs : first = _ := steppedExecute d (m := ⟨cpu,bus⟩) free
  have secondIs : second = _ := steppedExecute d (m := ⟨{cpu with regs := regs},bus⟩) otherFree
  simp only [← apart.pc,fetched] at firstIs secondIs
  obtain ⟨log,state,cost,left⟩ := Program.relatedRun (bodyApart apart code silent) d (d.read bus cpu.regs.pc).2
  rw [firstIs,secondIs]
  refine ⟨rfl,congrArg (List.cons _) log,state,_,?_,left⟩
  simp only [Processor.afterExecute,cost,flag]

/-- On a chip wired without decimal, over a run in which no step() pushes the status: two
machines apart in D alone make the same accesses, services and charges at every step and
stay apart in D alone. -/
theorem decimalUnseen {cpu : Processor} {regs : Registers} (apart : ApartInD cpu.regs regs) (bus : σ)
    (events : List Event)
    (quiet : ∀ met ∈ (⟨cpu,bus⟩ : Machine σ).history d events, met.2 = .step → (met.1.served d).pusher = none) :
    let first : Machine σ := ⟨cpu,bus⟩
    let second : Machine σ := ⟨{cpu with regs := regs},bus⟩
    first.trace d events = second.trace d events ∧
    ProcessorApart (first.run d events).cpu (second.run d events).cpu ∧
    (first.run d events).bus = (second.run d events).bus := by
  intro first second
  refine Transition.runSimulates (apply d)
    (R := fun m (n : Machine σ) => ProcessorApart m.cpu n.cpu ∧ m.bus = n.bus) ⟨⟨regs,rfl,apart⟩,rfl⟩
    fun met member n related => ?_
  obtain ⟨⟨cpu,bus⟩,e⟩ := met
  obtain ⟨other,_⟩ := n
  obtain ⟨⟨regs,rfl,apart⟩,rfl⟩ := related
  cases e with
  | nmi => exact ⟨rfl,⟨regs,rfl,apart⟩,rfl⟩
  | irq asserted => exact ⟨rfl,⟨regs,rfl,apart⟩,rfl⟩
  | step =>
    obtain ⟨served,log,state,left⟩ := stepApart d apart (quiet _ member rfl)
    exact ⟨congrArg some (Prod.ext served log),left,state⟩

theorem wiredSumUnseen :
    let regs : Registers :=
      {a := 1, x := 0, y := 0, sr := flagU, sp := 0xfd, pc := 0x0400, decimalDisabled := true}
    let bus := (rig [(0x0400,0x69),(0x0401,0x09)]).bus
    ((⟨{regs := regs},bus⟩ : Machine Bus).trace Bus.device [.step]) =
      (⟨{regs := {regs with sr := flagU ||| flagD}},bus⟩ : Machine Bus).trace Bus.device [.step] := by
  intro regs bus
  have apart : ApartInD regs {regs with sr := flagU ||| flagD} := ⟨rfl,rfl,rfl,rfl,rfl,by decide,rfl,rfl⟩
  refine (decimalUnseen Bus.device apart bus [.step] fun met member _ => ?_).1
  rw [List.mem_singleton.mp member]
  decide

end Machine
end Emu6502
