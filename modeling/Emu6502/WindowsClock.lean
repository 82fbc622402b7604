import Emu6502.PrecisionClock
import Emu6502.Lib.Loop

/-! emuclock.cpp on Windows: nanoTime() over the performance counter, and a _nanosleep() that sleeps for
most of the time and spins out the rest. -/
namespace Emu6502
open Deadline Loop

structure Qpc where
  freq : Uint64
  base : Uint64
  deriving DecidableEq, Repr

def spinThreshold : Uint64 := 1000000

namespace Qpc

def nanoTime (q : Qpc) (tick : Uint64) : Uint64 :=
  let ticks := tick - q.base
  (ticks / q.freq) * 1000000000 + ((ticks % q.freq) * 1000000000) / q.freq

/- What sleep_for is asked for, if it is, and which reading of the loop ends it. -/
def nanosleep (q : Qpc) (fuel : Nat) (ns : Uint64) (started : Uint64) (reading : Nat → Uint64) :
    Option Uint64 × Option Nat :=
  let deadline := q.nanoTime started + ns
  (if ns > spinThreshold then some (ns - spinThreshold) else none,
    (loop (fun k => decide (q.nanoTime (reading k) < deadline)) (· + 1) fuel 0).2)

/-! The conversion is exact, though the ticks times 10^9 may not fit. -/

/- 64 bits hold the nanoseconds of a second's ticks. -/
def Sound (q : Qpc) : Prop := 0 < q.freq.toNat ∧ q.freq.toNat * 1000000000 ≤ 2^64

def elapsed (q : Qpc) (tick : Uint64) : Nat := (tick.toNat - q.base.toNat) * 1000000000 / q.freq.toNat

structure Reads (q : Qpc) (tick : Uint64) : Prop where
  since : q.base ≤ tick
  fits : q.elapsed tick < 2^64

theorem splitSeconds {freq : Nat} (some : 0 < freq) (ticks scale : Nat) :
    ticks * scale / freq = ticks / freq * scale + ticks % freq * scale / freq := by
  have parts : ticks * scale = ticks % freq * scale + ticks / freq * scale * freq := by
    calc ticks * scale = (freq * (ticks / freq) + ticks % freq) * scale := by rw [Nat.div_add_mod]
      _ = ticks % freq * scale + ticks / freq * scale * freq := by
        rw [Nat.add_mul,Nat.add_comm,Nat.mul_comm freq,Nat.mul_right_comm]
  rw [parts,Nat.add_mul_div_right _ _ some,Nat.add_comm]

theorem scaledExact {freq : Uint64} (some : 0 < freq.toNat) (ticks scale : Uint64)
    (second : freq.toNat * scale.toNat ≤ 2^64) (fits : ticks.toNat * scale.toNat / freq.toNat < 2^64) :
    ((ticks / freq) * scale + ((ticks % freq) * scale) / freq).toNat = ticks.toNat * scale.toNat / freq.toNat := by
  rw [splitSeconds some] at fits ⊢
  have seconds := Nat.lt_of_le_of_lt (Nat.le_add_right _ _) fits
  have rest : ticks.toNat % freq.toNat * scale.toNat < 2^64 := by
    rcases Nat.eq_zero_or_pos scale.toNat with none | positive
    · rw [none,Nat.mul_zero]
      exact Nat.two_pow_pos 64
    · exact Nat.lt_of_lt_of_le (Nat.mul_lt_mul_of_pos_right (Nat.mod_lt _ some) positive) second
  rw [BitVec.toNat_add,BitVec.toNat_mul,BitVec.toNat_udiv,BitVec.toNat_udiv,BitVec.toNat_mul,BitVec.toNat_umod,
    Nat.mod_eq_of_lt rest,Nat.mod_eq_of_lt seconds,Nat.mod_eq_of_lt fits]

theorem nanoTimeExact {q : Qpc} (sound : q.Sound) {tick : Uint64} (reads : q.Reads tick) :
    (q.nanoTime tick).toNat = q.elapsed tick := by
  have ticks : (tick - q.base).toNat = tick.toNat - q.base.toNat := BitVec.toNat_sub_of_le reads.since
  have scale : (1000000000 : Uint64).toNat = 1000000000 := by simp
  have split := scaledExact sound.1 (tick - q.base) 1000000000
  rw [scale,ticks] at split
  exact split sound.2 reads.fits

theorem elapsedMono (q : Qpc) {tick later : Uint64} (order : tick ≤ later) : q.elapsed tick ≤ q.elapsed later :=
  Nat.div_le_div_right (Nat.mul_le_mul_right _ (Nat.sub_le_sub_right order _))

theorem elapsedTicks {q : Qpc} (sound : q.Sound) {tick later : Uint64} {n : Nat} (spent : q.elapsed tick + n ≤ q.elapsed later) :
    n * q.freq.toNat < (later.toNat - tick.toNat) * 1000000000 + q.freq.toNat := by
  have most := Nat.lt_mul_div_succ ((tick.toNat - q.base.toNat) * 1000000000) sound.1
  have least := Nat.mul_div_le ((later.toNat - q.base.toNat) * 1000000000) q.freq.toNat
  have reached := Nat.mul_le_mul_left q.freq.toNat spent
  have parts : (later.toNat - q.base.toNat) * 1000000000 ≤
      (tick.toNat - q.base.toNat) * 1000000000 + (later.toNat - tick.toNat) * 1000000000 := by
    rw [← Nat.add_mul]
    exact Nat.mul_le_mul_right _ (by omega)
  rw [Nat.mul_add] at reached most
  simp only [elapsed] at reached
  rw [Nat.mul_comm n]
  omega

theorem madeUpTicks {q : Qpc} (sound : q.Sound) {tick later : Uint64} {n most : Nat}
    (paced : q.elapsed tick + n ≤ q.elapsed later + most) :
    n * q.freq.toNat < (later.toNat - tick.toNat) * 1000000000 + (most + 1) * q.freq.toNat := by
  rw [Nat.add_mul most,Nat.one_mul]
  rcases Nat.le_total n most with little | more
  · have kept := Nat.mul_le_mul_right q.freq.toNat little
    have some := sound.1
    omega
  · obtain ⟨n,rfl⟩ := Nat.exists_eq_add_of_le more
    have ticks := elapsedTicks sound (by omega : q.elapsed tick + n ≤ q.elapsed later)
    rw [Nat.add_mul]
    omega

/- The ticks the host reads in a call: waitCycles' own, _nanosleep's first, and its loop's. -/
structure Schedule where
  cycles : Int
  budget : Nat
  sample : Uint64
  started : Uint64
  reading : Nat → Uint64

section clock
variable (q : Qpc) (fuel : Nat)

def waited (clock : PrecisionClock) (w : Schedule) : Option Uint64 × PrecisionClock :=
  clock.waitCycles w.cycles w.budget (q.nanoTime w.sample)

def back (clock : PrecisionClock) (w : Schedule) : Option Uint64 :=
  (q.waited clock w).1.elim (some w.sample) fun ns => (q.nanosleep fuel ns w.started w.reading).2.map w.reading

/- A run of calls, each with the tick it returned at. How long any sleep_for took is of no account. -/
def Ticked (clock : PrecisionClock) (now : Uint64) : List (Schedule × Uint64) → Prop
  | [] => True
  | (w,returned) :: calls =>
      now ≤ w.sample ∧ w.sample ≤ w.started ∧ q.back fuel clock w = some returned ∧
        Ticked (q.waited clock w).2 returned calls

end clock

def wait (q : Qpc) (call : Schedule × Uint64) : Wait :=
  ⟨call.1.cycles,call.1.budget,q.elapsed call.1.sample,q.elapsed call.2⟩

/- What one call needs to stay within 64 bits. -/
structure Room (q : Qpc) (clock : PrecisionClock) (call : Schedule × Uint64) : Prop where
  wait : clock.Fits (q.wait call)
  sample : q.Reads call.1.sample
  started : q.Reads call.1.started
  returned : q.Reads call.2
  asleep : q.elapsed call.1.started + clock.slept (q.wait call) < 2^64

def Rooms (q : Qpc) (clock : PrecisionClock) : List (Schedule × Uint64) → Prop
  | [] => True
  | call :: calls => q.Room clock call ∧ Rooms q (q.waited clock call.1).2 calls

section call
variable {q : Qpc} {fuel : Nat} {clock : PrecisionClock} {call : Schedule × Uint64}

theorem waitedSame (sound : q.Sound) (room : q.Room clock call) : clock.waited (q.wait call) = q.waited clock call.1 := by
  have same : Emu6502.nanoTime (q.elapsed call.1.sample) = q.nanoTime call.1.sample := by
    rw [Emu6502.nanoTime,← nanoTimeExact sound room.sample,BitVec.ofNat_toNat,BitVec.setWidth_eq]
  rw [PrecisionClock.waited,waited,← same]
  rfl

theorem countUp (n : Nat) : (· + 1)^[n] 0 = n := by
  induction n with
  | zero => rfl
  | succ n ih => rw [Function.iterate_succ_apply',ih]

theorem nanosleepReturns {ns started : Uint64} {reading : Nat → Uint64} {n : Nat} (enough : n < fuel)
    (reached : q.nanoTime started + ns ≤ q.nanoTime (reading n)) : (q.nanosleep fuel ns started reading).2.isSome = true := by
  refine loopReturns (n := n) ?_ enough
  rw [countUp]
  exact decide_eq_false (BitVec.not_lt.mpr reached)

theorem backReturns {w : Schedule} {n : Nat} (enough : n < fuel)
    (reached : ∀ ns, (q.waited clock w).1 = some ns → q.nanoTime w.started + ns ≤ q.nanoTime (w.reading n)) :
    (q.back fuel clock w).isSome = true := by
  rw [back]
  cases waits : (q.waited clock w).1 with
  | none => rfl
  | some ns =>
    rw [Option.elim_some,Option.isSome_map]
    exact nanosleepReturns enough (reached ns waits)

theorem nanosleepWaits {ns started : Uint64} {reading : Nat → Uint64} {k : Nat}
    (woke : (q.nanosleep fuel ns started reading).2 = some k) : q.nanoTime started + ns ≤ q.nanoTime (reading k) := by
  have finished := (loopReturned woke).2
  exact BitVec.not_lt.mp (of_decide_eq_false finished)

theorem sleptSame (sound : q.Sound) (room : q.Room clock call) :
    clock.slept (q.wait call) = ((q.waited clock call.1).1.map BitVec.toNat).getD 0 := by
  rw [PrecisionClock.slept,waitedSame sound room]

theorem backWaits (sound : q.Sound) (room : q.Room clock call) (order : call.1.sample ≤ call.1.started)
    (returned : q.back fuel clock call.1 = some call.2) :
    q.elapsed call.1.sample + clock.slept (q.wait call) ≤ q.elapsed call.2 := by
  have asleep := room.asleep
  rw [sleptSame sound room] at asleep ⊢
  rw [back] at returned
  cases waits : (q.waited clock call.1).1 with
  | none =>
    rw [waits,Option.elim_none] at returned
    refine Nat.le_of_eq ?_
    rw [← Option.some.inj returned,Option.map_none,Option.getD_none,Nat.add_zero]
  | some ns =>
    rw [waits,Option.elim_some] at returned
    rw [waits] at asleep
    rw [Option.map_some,Option.getD_some] at asleep ⊢
    obtain ⟨k,woke,last⟩ := Option.map_eq_some_iff.mp returned
    have later := BitVec.le_def.mp (nanosleepWaits woke)
    have fits : (q.nanoTime call.1.started + ns).toNat = q.elapsed call.1.started + ns.toNat := by
      rw [BitVec.toNat_add,nanoTimeExact sound room.started]
      exact Nat.mod_eq_of_lt asleep
    rw [fits,last,nanoTimeExact sound room.returned] at later
    exact Nat.le_trans (Nat.add_le_add_right (q.elapsedMono order) _) later

end call

theorem tickedTimed {q : Qpc} {fuel : Nat} (sound : q.Sound) {clock : PrecisionClock} {now : Uint64}
    {calls : List (Schedule × Uint64)} (ticked : q.Ticked fuel clock now calls) (rooms : q.Rooms clock calls) :
    clock.Timed (q.elapsed now) (calls.map q.wait) ∧ clock.NoOverflow (calls.map q.wait) := by
  induction calls generalizing clock now with
  | nil => exact ⟨trivial,trivial⟩
  | cons call calls ih =>
    obtain ⟨since,order,returned,rest⟩ := ticked
    obtain ⟨room,later⟩ := rooms
    have same := waitedSame sound room
    obtain ⟨timed,fits⟩ := ih rest later
    rw [List.map_cons]
    refine ⟨⟨q.elapsedMono since,backWaits sound room order returned,?_⟩,room.wait,?_⟩
    · rw [same]
      exact timed
    · rw [same]
      exact fits

def granted (q : Qpc) (calls : List (Schedule × Uint64)) : Nat := budgets (calls.map fun call => (q.wait call).call)

theorem grantedLast (q : Qpc) (before : List (Schedule × Uint64)) (last : Schedule × Uint64) :
    q.granted (before ++ [last]) = budgets (before.map (fun call => (q.wait call).call) ++ [(q.wait last).call]) := by
  rw [granted,List.map_append,List.map_singleton]

/-- precision_clock on Windows, in ticks of the counter: no call returns ahead of the budgets so far, and of
the time since an earlier call's sample at most RESYNC_NS more is made up, however long the sleeps were. -/
theorem windowsPaced (q : Qpc) (sound : q.Sound) (fuel : Nat) (clock : PrecisionClock) (begun : Uint64) (first : q.Reads begun)
    (calls : List (Schedule × Uint64)) (ticked : q.Ticked fuel (clock.beginCycle (q.nanoTime begun)) begun calls)
    (rooms : q.Rooms (clock.beginCycle (q.nanoTime begun)) calls) (before : List (Schedule × Uint64))
    (last : Schedule × Uint64) (after : List (Schedule × Uint64)) (split : calls = before ++ last :: after) :
    (∀ tick, q.Reads tick → (q.nanoTime tick).toNat = (tick.toNat - q.base.toNat) * 1000000000 / q.freq.toNat) ∧
    (∀ (clock : PrecisionClock) (w : Schedule) (n : Nat),
      (∀ ns, (q.waited clock w).1 = some ns → q.nanoTime w.started + ns ≤ q.nanoTime (w.reading n)) → n < fuel →
      (q.back fuel clock w).isSome = true) ∧
    q.granted (before ++ [last]) * q.freq.toNat < (last.2.toNat - begun.toNat) * 1000000000 + q.freq.toNat ∧
      ∀ earlier call between, before = earlier ++ call :: between →
        q.granted (between ++ [last]) * q.freq.toNat <
          (last.2.toNat - call.1.sample.toNat) * 1000000000 + (resyncNs + 1) * q.freq.toNat := by
  obtain ⟨timed,fits⟩ := tickedTimed sound ticked rooms
  have hosted := PrecisionClock.timedHosted timed fits
  have start : (clock.beginCycle (q.nanoTime begun)).deadline.toNat = q.elapsed begun := nanoTimeExact sound first
  rw [start,split] at hosted
  refine ⟨fun _ reads => nanoTimeExact sound reads,fun _ _ _ reached enough => backReturns enough reached,?_,?_⟩
  · have ahead : Hosted resyncNs (q.elapsed begun) (q.elapsed begun)
        (before.map (fun call => (q.wait call).call) ++ (q.wait last).call :: after.map fun call => (q.wait call).call) := by
      simpa [Function.comp_def] using hosted
    have paced := neverAhead ahead
    rw [← grantedLast] at paced
    exact elapsedTicks sound paced
  · rintro earlier call between rfl
    have later : Hosted resyncNs (q.elapsed begun) (q.elapsed begun)
        (earlier.map (fun call => (q.wait call).call) ++ (q.wait call).call ::
          (between.map (fun call => (q.wait call).call) ++ (q.wait last).call :: after.map fun call => (q.wait call).call)) := by
      simpa [Function.comp_def] using hosted
    have paced := lostTimeForgiven later
    rw [← grantedLast] at paced
    exact madeUpTicks sound paced

def tenMegahertz : Qpc := ⟨10000000,1000⟩

def firstCall : Schedule × Uint64 := (⟨5,5000,1010,1011,fun k => 1012 + 20 * BitVec.ofNat 64 k⟩,1052)

def secondCall : Schedule × Uint64 := (⟨3,3000,1060,1061,fun k => 1062 + 20 * BitVec.ofNat 64 k⟩,1082)

theorem twoCallsPaced :
    (tenMegahertz.nanoTime 1052).toNat = 52 * 1000000000 / 10000000 ∧
    tenMegahertz.granted [firstCall,secondCall] * 10000000 < (1082 - 1000) * 1000000000 + 10000000 ∧
    tenMegahertz.granted [secondCall] * 10000000 < (1082 - 1010) * 1000000000 + (resyncNs + 1) * 10000000 := by
  have ticked : tenMegahertz.Ticked 4 (PrecisionClock.beginCycle {} (tenMegahertz.nanoTime 1000)) 1000
      [firstCall,secondCall] :=
    ⟨by decide,by decide,by decide,by decide,by decide,by decide,trivial⟩
  have reads : ∀ tick ∈ ([1000,1010,1011,1052,1060,1061,1082] : List Uint64), tenMegahertz.Reads tick := by
    intro tick listed
    simp only [List.mem_cons,List.not_mem_nil,or_false] at listed
    rcases listed with rfl | rfl | rfl | rfl | rfl | rfl | rfl <;> exact ⟨by decide,by decide⟩
  have rooms : tenMegahertz.Rooms (PrecisionClock.beginCycle {} (tenMegahertz.nanoTime 1000)) [firstCall,secondCall] :=
    ⟨⟨⟨by decide,by decide,by decide⟩,reads _ (by simp [firstCall]),reads _ (by simp [firstCall]),
        reads _ (by simp [firstCall]),by decide⟩,
      ⟨⟨by decide,by decide,by decide⟩,reads _ (by simp [secondCall]),reads _ (by simp [secondCall]),
        reads _ (by simp [secondCall]),by decide⟩,trivial⟩
  obtain ⟨exact,_,begun,earlier⟩ := windowsPaced tenMegahertz ⟨by decide,by decide⟩ 4 {} 1000 (reads _ (by simp)) _ ticked
    rooms [firstCall] secondCall [] rfl
  exact ⟨exact 1052 (reads _ (by simp)),begun,earlier [] firstCall [] rfl⟩

end Qpc
end Emu6502
