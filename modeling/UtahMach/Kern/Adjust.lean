import Mathlib

/-!
This module contains the time of day and its gradual adjustment by the clock interrupt.
-/

namespace Kern

structure TimeValue where
  seconds : Int
  microseconds : Int
deriving DecidableEq, Repr

namespace TimeValue

def microsMax : Int := 1000000

def total (t : TimeValue) : Int := t.seconds * microsMax + t.microseconds

def addUsec (t : TimeValue) (micros : Int) : TimeValue :=
  if microsMax ≤ t.microseconds + micros then
    ⟨t.seconds + 1, t.microseconds + micros - microsMax⟩
  else
    ⟨t.seconds, t.microseconds + micros⟩

end TimeValue

def toInt32 (x : Nat) : Int := if x < 2 ^ 31 then x else x - 2 ^ 32

def tickadj (hz : Nat) : Nat := if 500 < hz then 1 else 500 / hz

def bigadj : Nat := 1000000

structure Clock where
  time : TimeValue
  timedelta : Int
  tickdelta : Nat
deriving DecidableEq, Repr

namespace Clock

def boot : Clock := ⟨⟨0, 0⟩, 0, 0⟩

def hostAdjustTime (hz : Nat) (s : Clock) (newAdjustment : TimeValue) : TimeValue × Clock :=
  let ndelta := (newAdjustment.total % 2 ^ 32).toNat
  let oadj := ⟨s.timedelta.tdiv 1000000, s.timedelta.tmod 1000000⟩
  let tickdelta :=
    if s.timedelta = 0 then
      if bigadj < ndelta then 10 * tickadj hz else tickadj hz
    else
      s.tickdelta
  let ndelta := if ndelta % tickdelta ≠ 0 then ndelta / tickdelta * tickdelta else ndelta
  (oadj, { s with timedelta := toInt32 ndelta, tickdelta := tickdelta })

def clockInterrupt (s : Clock) (usec : Int) : Clock :=
  if s.timedelta = 0 then
    { s with time := s.time.addUsec usec }
  else if s.timedelta < 0 then
    { s with time := s.time.addUsec (usec - s.tickdelta), timedelta := s.timedelta + s.tickdelta }
  else
    { s with time := s.time.addUsec (usec + s.tickdelta), timedelta := s.timedelta - s.tickdelta }

def hostSetTime (s : Clock) (newTime : TimeValue) : Clock := { s with time := newTime }

def ticks (s : Clock) (usecs : List Int) : Clock := usecs.foldl clockInterrupt s

end Clock

inductive ClockOp where
  | adjust (newAdjustment : TimeValue)
  | set (newTime : TimeValue)
  | tick (usec : Int)

namespace Clock

def step (hz : Nat) (s : Clock) : ClockOp → Clock
  | .adjust newAdjustment => (s.hostAdjustTime hz newAdjustment).2
  | .set newTime => s.hostSetTime newTime
  | .tick usec => s.clockInterrupt usec

def run (hz : Nat) (ops : List ClockOp) : Clock := ops.foldl (step hz) boot

variable {hz : Nat} {s : Clock} {usec : Int} {usecs : List Int} {td n : Nat} {T : Int}

theorem tickadj_pos (hhz : 0 < hz) : 0 < tickadj hz := by
  unfold tickadj
  split
  . decide
  . apply Nat.div_pos
    . omega
    . exact hhz

theorem tickadj_le : tickadj hz ≤ 500 := by
  unfold tickadj
  split
  . decide
  . exact Nat.div_le_self 500 hz

def Stepped (s : Clock) : Prop := s.timedelta ≠ 0 → 0 < s.tickdelta ∧ s.tickdelta ≤ 5000

def stepSize (hz : Nat) (s : Clock) (T : Int) : Nat :=
  if s.timedelta = 0 then
    if T < 0 ∨ bigadj < T then 10 * tickadj hz else tickadj hz
  else
    s.tickdelta

theorem stepSize_pos (hhz : 0 < hz) (h : s.Stepped) : 0 < s.stepSize hz T ∧ s.stepSize hz T ≤ 5000 := by
  have hpos := tickadj_pos hhz
  have hle : tickadj hz ≤ 500 := tickadj_le
  unfold stepSize
  split
  . split <;> omega
  . rename_i hpending
    exact h hpending

def unsigned (T : Int) : Nat := (T % 2 ^ 32).toNat

theorem unsigned_of_nonneg (hnonneg : 0 ≤ T) (hlt : T < 2 ^ 31) : (unsigned T : Int) = T := by
  unfold unsigned
  omega

theorem unsigned_of_neg (hneg : T < 0) (hle : -2 ^ 31 ≤ T) : (unsigned T : Int) = T + 2 ^ 32 := by
  unfold unsigned
  omega

theorem bigadj_lt_unsigned (hle : -2 ^ 31 ≤ T) (hlt : T < 2 ^ 31)
    : bigadj < unsigned T ↔ T < 0 ∨ (bigadj : Int) < T := by
  unfold unsigned bigadj
  omega

theorem hostAdjustTime_eq (a : TimeValue) (hle : -2 ^ 31 ≤ a.total) (hlt : a.total < 2 ^ 31)
    : (s.hostAdjustTime hz a).2 = { s with
        timedelta := toInt32 (unsigned a.total / s.stepSize hz a.total * s.stepSize hz a.total)
        tickdelta := s.stepSize hz a.total } := by
  have htd : (if s.timedelta = 0 then if bigadj < unsigned a.total then 10 * tickadj hz else tickadj hz
      else s.tickdelta) = s.stepSize hz a.total := by
    unfold stepSize
    simp only [bigadj_lt_unsigned hle hlt]
  unfold hostAdjustTime
  dsimp only
  rw [← unsigned, htd]
  congr 2
  by_cases hmod : unsigned a.total % s.stepSize hz a.total = 0
  . rw [if_neg (not_not.2 hmod)]
    exact (Nat.div_mul_cancel (Nat.dvd_of_mod_eq_zero hmod)).symm
  . rw [if_pos hmod]

theorem stepped_hostAdjustTime (hhz : 0 < hz) (h : s.Stepped) (a : TimeValue) : (s.hostAdjustTime hz a).2.Stepped := by
  have hpos := tickadj_pos hhz
  have hle : tickadj hz ≤ 500 := tickadj_le
  intro _
  unfold hostAdjustTime
  dsimp only
  split
  . split <;> omega
  . rename_i hpending
    exact h hpending

theorem stepped_clockInterrupt (h : s.Stepped) (usec : Int) : (s.clockInterrupt usec).Stepped := by
  unfold clockInterrupt
  split
  . exact h
  . rename_i hpending
    split
    . exact fun _ => h hpending
    . exact fun _ => h hpending

theorem run_stepped (hhz : 0 < hz) (ops : List ClockOp) : (run hz ops).Stepped := by
  unfold run
  have hboot : boot.Stepped := fun h => absurd rfl h
  generalize boot = s at hboot
  induction ops generalizing s with
  | nil => exact hboot
  | cons op ops ih =>
    apply ih
    cases op with
    | adjust a => exact stepped_hostAdjustTime hhz hboot a
    | set t => exact hboot
    | tick usec => exact stepped_clockInterrupt hboot usec

theorem total_addUsec (t : TimeValue) (micros : Int) : (t.addUsec micros).total = t.total + micros := by
  unfold TimeValue.addUsec TimeValue.total TimeValue.microsMax
  split <;> dsimp only <;> omega

theorem clockInterrupt_balance (s : Clock) (usec : Int)
    : (s.clockInterrupt usec).time.total + (s.clockInterrupt usec).timedelta =
      s.time.total + s.timedelta + usec := by
  unfold clockInterrupt
  split
  . dsimp only
    rw [total_addUsec]
    omega
  . split
    . dsimp only
      rw [total_addUsec]
      omega
    . dsimp only
      rw [total_addUsec]
      omega

theorem ticks_balance (s : Clock) (usecs : List Int)
    : (s.ticks usecs).time.total + (s.ticks usecs).timedelta = s.time.total + s.timedelta + usecs.sum := by
  induction usecs generalizing s with
  | nil => simp [ticks]
  | cons usec usecs ih =>
    have h := ih (s.clockInterrupt usec)
    rw [clockInterrupt_balance] at h
    rw [List.sum_cons, ← add_assoc]
    exact h

theorem tickdelta_clockInterrupt (s : Clock) (usec : Int) : (s.clockInterrupt usec).tickdelta = s.tickdelta := by
  unfold clockInterrupt
  split
  . rfl
  . split <;> rfl

theorem dvd_clockInterrupt (usec : Int)
    : (s.tickdelta : Int) ∣ (s.clockInterrupt usec).timedelta ↔ (s.tickdelta : Int) ∣ s.timedelta := by
  unfold clockInterrupt
  split
  . rfl
  . split
    . exact Int.dvd_add_left (Int.dvd_refl _)
    . exact Int.dvd_add_left (Int.dvd_neg.2 (Int.dvd_refl _))

theorem dvd_ticks (s : Clock) (usecs : List Int)
    : (s.tickdelta : Int) ∣ (s.ticks usecs).timedelta ↔ (s.tickdelta : Int) ∣ s.timedelta := by
  induction usecs generalizing s with
  | nil => rfl
  | cons usec usecs ih =>
    have h := ih (s.clockInterrupt usec)
    rw [tickdelta_clockInterrupt] at h
    exact h.trans (dvd_clockInterrupt usec)

theorem natAbs_clockInterrupt (hdvd : (s.tickdelta : Int) ∣ s.timedelta) (usec : Int)
    : (s.clockInterrupt usec).timedelta.natAbs ≤ s.timedelta.natAbs - s.tickdelta := by
  unfold clockInterrupt
  split
  . rename_i hzero
    simp [hzero]
  . rename_i hpending
    have hle : (s.tickdelta : Int) ≤ s.timedelta.natAbs := by
      apply Int.le_of_dvd
      . omega
      . exact Int.dvd_natAbs.2 hdvd
    split <;> dsimp only <;> omega

theorem ticks_eq_zero (hpos : 0 < s.tickdelta) (hdvd : (s.tickdelta : Int) ∣ s.timedelta)
    (hlength : s.timedelta.natAbs ≤ usecs.length) : (s.ticks usecs).timedelta = 0 := by
  induction usecs generalizing s with
  | nil =>
    exact Int.natAbs_eq_zero.1 (Nat.le_zero.1 hlength)
  | cons usec usecs ih =>
    apply ih
    . rwa [tickdelta_clockInterrupt]
    . rw [tickdelta_clockInterrupt]
      exact (dvd_clockInterrupt usec).2 hdvd
    . have := natAbs_clockInterrupt hdvd usec
      rw [List.length_cons] at hlength
      omega

def Ends (hz : Nat) (s : Clock) (a : TimeValue) : Prop :=
  ∃ n, ∀ usecs : List Int, n ≤ usecs.length →
    ((s.hostAdjustTime hz a).2.ticks usecs).timedelta = 0
      ∧ ((s.hostAdjustTime hz a).2.ticks usecs).time.total =
          s.time.total + usecs.sum + a.total.tdiv (s.stepSize hz a.total) * s.stepSize hz a.total

theorem ends_iff (hhz : 0 < hz) (h : s.Stepped) (a : TimeValue) (hle : -2 ^ 31 ≤ a.total) (hlt : a.total < 2 ^ 31)
    : s.Ends hz a ↔ (s.hostAdjustTime hz a).2.timedelta =
        a.total.tdiv (s.stepSize hz a.total) * s.stepSize hz a.total := by
  have hpos := (stepSize_pos hhz h (T := a.total)).1
  have htime : (s.hostAdjustTime hz a).2.time = s.time := rfl
  have htd : (s.hostAdjustTime hz a).2.tickdelta = s.stepSize hz a.total := by rw [hostAdjustTime_eq a hle hlt]
  unfold Ends
  rw [← htime]
  rw [← htd] at hpos ⊢
  generalize (s.hostAdjustTime hz a).2 = t at hpos
  constructor
  . rintro ⟨n, hends⟩
    obtain ⟨hzero, htotal⟩ := hends (List.replicate n 0) (by simp)
    have hbalance := ticks_balance t (List.replicate n 0)
    omega
  . intro htimedelta
    have hdvd : (t.tickdelta : Int) ∣ t.timedelta := htimedelta ▸ Int.dvd_mul_left _ _
    refine ⟨t.timedelta.natAbs, ?_⟩
    intro usecs hlength
    have hzero := ticks_eq_zero hpos hdvd hlength
    have hbalance := ticks_balance t usecs
    exact ⟨hzero, by omega⟩

theorem timedelta_of_nonneg (hnonneg : 0 ≤ T) (hlt : T < 2 ^ 31) : toInt32 (unsigned T / td * td) = T.tdiv td * td := by
  have hT := unsigned_of_nonneg hnonneg hlt
  have hle := Nat.div_mul_le_self (unsigned T) td
  rw [toInt32, if_pos (by omega), Int.tdiv_eq_ediv_of_nonneg hnonneg]
  push_cast
  rw [hT]

theorem timedelta_of_neg (hpos : 0 < td) (htd : td ≤ 5000) (hneg : T < 0) (hle : -2 ^ 31 ≤ T)
    : toInt32 (unsigned T / td * td) = T.tdiv td * td ↔ (td : Int) ∣ 2 ^ 32 ∧ (td : Int) ∣ T := by
  have hT := unsigned_of_neg hneg hle
  have hdiv := Nat.div_add_mod (unsigned T) td
  have hmod := Nat.mod_lt (unsigned T) hpos
  rw [Nat.mul_comm] at hdiv
  have hdvd : (td : Int) ∣ (unsigned T / td * td : Nat) := by
    rw [Int.natCast_mul]
    exact Int.dvd_mul_left _ _
  generalize hR : unsigned T / td * td = R at hdiv hdvd
  -- rounding toward zero does not go below a negative number
  have hround : T ≤ T.tdiv td * td ∧ T.tdiv td * td ≤ 0 := by
    have htdiv : T.tdiv td * td = -(-T / td * td) := by
      rw [← Int.neg_mul, ← Int.tdiv_eq_ediv_of_nonneg (by omega), Int.neg_tdiv, Int.neg_neg]
    have hle' := Int.ediv_mul_le (-T) (b := td) (by omega)
    have hnonneg : 0 ≤ -T / td * td := Int.mul_nonneg (Int.ediv_nonneg (by omega) (by omega)) (by omega)
    omega
  constructor
  . intro heq
    have hR' : ¬ R < 2 ^ 31 := by
      intro hR'
      rw [toInt32, if_pos hR'] at heq
      omega
    rw [toInt32, if_neg hR'] at heq
    have hT' : T.tdiv td * td = T := by omega
    have hdvdT : (td : Int) ∣ T := hT' ▸ Int.dvd_mul_left _ _
    refine ⟨?_, hdvdT⟩
    have : (2 ^ 32 : Int) = R - T := by omega
    rw [this]
    exact Int.dvd_sub hdvd hdvdT
  . rintro ⟨hdvd', hdvdT⟩
    have hmod0 : unsigned T % td = 0 := by
      apply Nat.mod_eq_zero_of_dvd
      rw [← Int.natCast_dvd_natCast, hT]
      exact Int.dvd_add hdvdT hdvd'
    rw [toInt32, if_neg (by omega), Int.tdiv_mul_cancel hdvdT]
    omega

theorem hostAdjustTime_ends_iff (hz : Nat) (hhz : 0 < hz) (ops : List ClockOp) (a : TimeValue)
    (hle : -2 ^ 31 ≤ a.total) (hlt : a.total < 2 ^ 31) : (run hz ops).Ends hz a ↔ 0 ≤ a.total
        ∨ ((run hz ops).stepSize hz a.total : Int) ∣ 2 ^ 32 ∧ ((run hz ops).stepSize hz a.total : Int) ∣ a.total := by
  have hstepped := run_stepped hhz ops
  obtain ⟨hpos, htd⟩ := stepSize_pos hhz hstepped (T := a.total)
  rw [ends_iff hhz hstepped a hle hlt, hostAdjustTime_eq a hle hlt]
  by_cases hneg : a.total < 0
  . rw [timedelta_of_neg hpos htd hneg hle]
    constructor
    . exact Or.inr
    . rintro (h | h)
      . omega
      . exact h
  . exact iff_of_true (timedelta_of_nonneg (by omega) hlt) (Or.inl (by omega))

theorem hostAdjustTime_ends_forward : (run 100 []).Ends 100 ⟨1, 500000⟩ :=
  (hostAdjustTime_ends_iff 100 (by decide) [] ⟨1, 500000⟩ (by decide) (by decide)).2 (Or.inl (by decide))

theorem hostAdjustTime_backward
    : ¬ ∃ usecs, (((run 100 []).hostAdjustTime 100 ⟨-1, 0⟩).2.ticks usecs).timedelta = 0 := by
  rintro ⟨usecs, hzero⟩
  have hdvd := dvd_ticks ((run 100 []).hostAdjustTime 100 ⟨-1, 0⟩).2 usecs
  rw [hzero] at hdvd
  exact absurd (hdvd.1 (Int.dvd_zero _)) (by decide)

end Clock

end Kern
