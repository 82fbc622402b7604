import Emu6502.Lib.Deadline
import Mathlib.Algebra.Group.Nat.Defs
import Mathlib.Algebra.Group.Int.Defs

/-! emuclock.cpp: precision_clock on a host whose time is a number of nanoseconds. The budget of a
call, computed there in floating point, is given. -/
namespace Emu6502
open Deadline

abbrev Uint64 := BitVec 64

def resyncNs : Nat := 50000000

def nanoTime (time : Nat) : Uint64 := BitVec.ofNat 64 time

structure PrecisionClock where
  currentCycles : Uint64 := 0
  deadline : Uint64 := 0
  deriving DecidableEq, Repr

structure Wait where
  cycles : Int
  call : Call
  deriving DecidableEq, Repr

namespace PrecisionClock

def beginCycle (clock : PrecisionClock) (now : Uint64) : PrecisionClock := {clock with deadline := now}

def waitCycles (clock : PrecisionClock) (cycles : Int) (budget : Nat) (now : Uint64) :
    Option Uint64 × PrecisionClock :=
  let clock := {clock with
    currentCycles := clock.currentCycles + BitVec.ofInt 64 cycles
    deadline := clock.deadline + BitVec.ofNat 64 budget}
  if clock.deadline > now then (some (clock.deadline - now),clock)
  else if (now - clock.deadline).toInt > resyncNs then (none,{clock with deadline := now})
  else (none,clock)

def waited (clock : PrecisionClock) (w : Wait) : Option Uint64 × PrecisionClock :=
  clock.waitCycles w.cycles w.call.budget (nanoTime w.call.sample)

def slept (clock : PrecisionClock) (w : Wait) : Nat := ((clock.waited w).1.map BitVec.toNat).getD 0

def Fits (clock : PrecisionClock) (w : Wait) : Prop :=
  clock.deadline.toNat + w.call.budget < 2^64 ∧ w.call.sample < 2^64 ∧
    w.call.sample - (clock.deadline.toNat + w.call.budget) < 2^63

def NoOverflow (clock : PrecisionClock) : List Wait → Prop
  | [] => True
  | w :: waits => clock.Fits w ∧ (clock.waited w).2.NoOverflow waits

/- The host from `now` on: delays anywhere, never a sleep cut short. -/
def Timed (clock : PrecisionClock) (now : Nat) : List Wait → Prop
  | [] => True
  | w :: waits => now ≤ w.call.sample ∧ w.call.sample + clock.slept w ≤ w.call.returned ∧
      (clock.waited w).2.Timed w.call.returned waits

theorem deadlineSum {clock : PrecisionClock} {w : Wait} (fits : clock.Fits w) :
    (clock.deadline + BitVec.ofNat 64 w.call.budget).toNat = clock.deadline.toNat + w.call.budget := by
  have sum := fits.1
  rw [BitVec.toNat_add,BitVec.toNat_ofNat,Nat.add_mod_mod,Nat.mod_eq_of_lt sum]

theorem sampleFits {clock : PrecisionClock} {w : Wait} (fits : clock.Fits w) :
    (nanoTime w.call.sample).toNat = w.call.sample := by
  rw [nanoTime,BitVec.toNat_ofNat,Nat.mod_eq_of_lt fits.2.1]

/- Within 64 bits a call moves the deadline as `advance` does, and sleeps up to the sum. -/
theorem waitedAdvances {clock : PrecisionClock} {w : Wait} (fits : clock.Fits w) :
    (clock.waited w).2.deadline.toNat = advance resyncNs clock.deadline.toNat w.call ∧
      clock.slept w = clock.deadline.toNat + w.call.budget - w.call.sample := by
  have sum := deadlineSum fits
  have sample := sampleFits fits
  have small := fits.2.2
  simp only [slept,waited,waitCycles,advance]
  generalize clock.deadline + BitVec.ofNat 64 w.call.budget = deadline at sum
  generalize nanoTime w.call.sample = now at sample
  rw [← sum,← sample] at small ⊢
  by_cases ahead : now.toNat < deadline.toNat
  · have later : deadline > now := BitVec.lt_def.mpr ahead
    rw [if_pos later,if_pos ahead]
    exact ⟨rfl,BitVec.toNat_sub_of_le (BitVec.le_def.mpr (Nat.le_of_lt ahead))⟩
  · have notLater : ¬ deadline > now := fun later => ahead (BitVec.lt_def.mp later)
    have behind : (now - deadline).toNat = now.toNat - deadline.toNat :=
      BitVec.toNat_sub_of_le (BitVec.le_def.mpr (Nat.le_of_not_lt ahead))
    have signed : (now - deadline).toInt = ((now.toNat - deadline.toNat : Nat) : Int) := by
      rw [BitVec.toInt_eq_toNat_of_lt (by omega),behind]
    have none : 0 = deadline.toNat - now.toNat := by omega
    rw [if_neg notLater,if_neg ahead,signed]
    by_cases far : resyncNs < now.toNat - deadline.toNat
    · rw [if_pos (by exact_mod_cast far),if_pos far]
      exact ⟨rfl,none⟩
    · rw [if_neg (by exact_mod_cast far),if_neg far]
      exact ⟨rfl,none⟩

theorem timedHosted {clock : PrecisionClock} {now : Nat} {waits : List Wait} (timed : clock.Timed now waits)
    (fits : clock.NoOverflow waits) : Hosted resyncNs clock.deadline.toNat now (waits.map Wait.call) := by
  induction waits generalizing clock now with
  | nil => exact trivial
  | cons w waits ih =>
    obtain ⟨since,asleep,rest⟩ := timed
    obtain ⟨moved,slept⟩ := waitedAdvances fits.1
    refine ⟨since,?_,?_⟩
    · rw [← slept]
      exact asleep
    · rw [← moved]
      exact ih rest fits.2

/-- After beginCycle at `t0` no call returns ahead of the budgets so far, and of the time since an
earlier call's sample at most RESYNC_NS more is made up. -/
theorem waitCyclesPaced (clock : PrecisionClock) (t0 : Nat) (waits : List Wait) (sampled : t0 < 2^64)
    (timed : (clock.beginCycle (nanoTime t0)).Timed t0 waits)
    (fits : (clock.beginCycle (nanoTime t0)).NoOverflow waits)
    (before : List Wait) (last : Wait) (after : List Wait) (split : waits = before ++ last :: after) :
    t0 + budgets ((before ++ [last]).map Wait.call) ≤ last.call.returned ∧
      ∀ earlier first between, before = earlier ++ first :: between →
        first.call.sample + budgets ((between ++ [last]).map Wait.call) ≤ last.call.returned + resyncNs := by
  have begun : (clock.beginCycle (nanoTime t0)).deadline.toNat = t0 := by
    rw [beginCycle,nanoTime,BitVec.toNat_ofNat,Nat.mod_eq_of_lt sampled]
  have hosted := timedHosted timed fits
  rw [begun,split] at hosted
  constructor
  · have ahead : Hosted resyncNs t0 t0 (before.map Wait.call ++ last.call :: after.map Wait.call) := by
      simpa using hosted
    simpa using neverAhead ahead
  · rintro earlier first between rfl
    have later : Hosted resyncNs t0 t0 (earlier.map Wait.call ++ first.call ::
        (between.map Wait.call ++ last.call :: after.map Wait.call)) := by simpa using hosted
    simpa using lostTimeForgiven later

/- A call on time, a host stalled for 90 ms, and the call after it. -/
def stalled : List Wait :=
  [⟨5,⟨5000,1200,6000⟩⟩,⟨5,⟨5000,90000000,90000100⟩⟩,⟨2,⟨2000,90000200,90002000⟩⟩]

theorem stalledPaced :
    1000 + budgets (stalled.map Wait.call) ≤ 90002000 ∧ 90000000 + 2000 ≤ 90002000 + resyncNs := by
  have whole := waitCyclesPaced {} 1000 stalled (by decide)
    ⟨by decide,by decide,by decide,by decide,by decide,by decide,trivial⟩
    ⟨⟨by decide,by decide,by decide⟩,⟨by decide,by decide,by decide⟩,⟨by decide,by decide,by decide⟩,trivial⟩
    (stalled.take 2) ⟨2,⟨2000,90000200,90002000⟩⟩ [] rfl
  exact ⟨whole.1,whole.2 (stalled.take 1) ⟨5,⟨5000,90000000,90000100⟩⟩ [] rfl⟩

end PrecisionClock
end Emu6502
