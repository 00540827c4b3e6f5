import UtahMach.Data.Lists

/-!
This module contains how the threads of a task are suspended and resumed.
-/

namespace Kern

open Function (update update_self update_of_ne)

structure StopThread where
  userStopCount : Int32
  suspendCount : Int32
  susp : Bool
  halted : Bool
  wait : Bool
  run : Bool
deriving DecidableEq, Repr

namespace StopThread

def hold (t : StopThread) : StopThread := { t with suspendCount := t.suspendCount + 1, susp := true }

def release (t : StopThread) : StopThread :=
  if t.suspendCount - 1 = 0 then
    { t with suspendCount := 0, susp := false, halted := false, run := t.run || !t.wait }
  else { t with suspendCount := t.suspendCount - 1 }

def suspend (t : StopThread) : StopThread :=
  if t.userStopCount = 0 then { t.hold with userStopCount := 1 }
  else { t with userStopCount := t.userStopCount + 1 }

def resume (t : StopThread) : StopThread :=
  if t.userStopCount ≤ 0 then t
  else if t.userStopCount - 1 = 0 then { t.release with userStopCount := 0 }
  else { t with userStopCount := t.userStopCount - 1 }

def canSuspend (t : StopThread) : Bool :=
  t.userStopCount ≠ .maxValue ∧ (t.userStopCount = 0 → t.suspendCount ≠ .maxValue)

end StopThread

def one (n : Int32) : Int := if 0 < n then 1 else 0

section Counts

variable {n : Int32}

theorem toInt_succ (h : n ≠ .maxValue) : (n + 1).toInt = n.toInt + 1 := by
  have hmax : n.toInt ≠ 2 ^ 31 - 1 := fun heq => h (Int32.toInt_inj.1 heq)
  have hlt := n.toInt_lt
  have hle := n.le_toInt
  rw [Int32.toInt_add, Int32.toInt_one]
  apply Int.bmod_eq_of_le
  . omega
  . omega

theorem toInt_pred (h : 0 ≤ n.toInt) : (n - 1).toInt = n.toInt - 1 := by
  have hlt := n.toInt_lt
  rw [Int32.toInt_sub, Int32.toInt_one]
  apply Int.bmod_eq_of_le
  . omega
  . omega

theorem toInt_eq_zero : n.toInt = 0 ↔ n = 0 := by
  rw [← Int32.toInt_inj, Int32.toInt_zero]

theorem one_eq (n : Int32) : one n = if 0 < n.toInt then 1 else 0 := by
  rw [one]
  simp only [Int32.lt_iff_toInt_lt, Int32.toInt_zero]

theorem one_succ (hmax : n ≠ .maxValue) (hne : n ≠ 0) : one (n + 1) = one n := by
  rw [ne_eq, ← toInt_eq_zero] at hne
  rw [one_eq, one_eq, toInt_succ hmax]
  split
  all_goals
    split
    all_goals omega

theorem one_of_pos (h : ¬ n ≤ 0) : 0 < n.toInt ∧ one n = 1 := by
  rw [Int32.le_iff_toInt_le, Int32.toInt_zero] at h
  have hpos : 0 < n.toInt := Int.lt_of_not_ge h
  exact ⟨hpos, by rw [one_eq, if_pos hpos]⟩

theorem one_pred (h : ¬ n ≤ 0) (hne : n - 1 ≠ 0) : one (n - 1) = one n := by
  obtain ⟨hpos, hone⟩ := one_of_pos h
  have hpred := toInt_pred (Int.le_of_lt hpos)
  rw [ne_eq, ← toInt_eq_zero, hpred] at hne
  rw [hone, one_eq, hpred, if_pos (by omega)]

end Counts

namespace StopThread

def Fits (t : StopThread) : Prop := t.susp = decide (0 < t.suspendCount.toInt)

variable {t : StopThread}

theorem hold_suspendCount (hmax : t.suspendCount ≠ .maxValue) : t.hold.suspendCount.toInt = t.suspendCount.toInt + 1 :=
  toInt_succ hmax

theorem fits_hold (hmax : t.suspendCount ≠ .maxValue) (h : 0 ≤ t.suspendCount.toInt) : t.hold.Fits := by
  rw [Fits, hold_suspendCount hmax]
  exact (decide_eq_true (Int.lt_add_one_of_le h)).symm

theorem release_userStopCount (t : StopThread) : t.release.userStopCount = t.userStopCount := by
  unfold release
  split
  . rfl
  . rfl

theorem release_suspendCount (h : 0 ≤ t.suspendCount.toInt)
    : t.release.suspendCount.toInt = t.suspendCount.toInt - 1 := by
  rw [← toInt_pred h]
  unfold release
  split
  . next heq => rw [heq]
  . rfl

namespace Fits

variable (h : t.Fits)
include h

theorem release (hpos : 0 < t.suspendCount.toInt) : t.release.Fits := by
  have hpred := toInt_pred (Int.le_of_lt hpos)
  unfold Fits StopThread.release
  split
  . rfl
  . next hne =>
    show t.susp = decide (0 < (t.suspendCount - 1).toInt)
    rw [← toInt_eq_zero, hpred] at hne
    rw [h, hpred, decide_eq_true hpos, decide_eq_true (by omega)]

theorem suspend (hcan : t.canSuspend = true) (hle : 0 ≤ t.suspendCount.toInt) : t.suspend.Fits ∧
      t.suspend.suspendCount.toInt + one t.userStopCount = t.suspendCount.toInt + one t.suspend.userStopCount := by
  obtain ⟨hmax, hhold⟩ := of_decide_eq_true hcan
  unfold StopThread.suspend
  split
  . next hzero =>
    refine ⟨fits_hold (hhold hzero) hle, ?_⟩
    show t.hold.suspendCount.toInt + one t.userStopCount = t.suspendCount.toInt + 1
    rw [hold_suspendCount (hhold hzero), hzero]
    exact Int.add_zero _
  . next hne =>
    refine ⟨h, ?_⟩
    show t.suspendCount.toInt + one t.userStopCount = _ + one (t.userStopCount + 1)
    rw [one_succ hmax hne]

theorem resume (hle : one t.userStopCount ≤ t.suspendCount.toInt) : t.resume.Fits ∧
      t.resume.suspendCount.toInt + one t.userStopCount = t.suspendCount.toInt + one t.resume.userStopCount := by
  unfold StopThread.resume
  split
  . exact ⟨h, rfl⟩
  . next hnot =>
    have hone := (one_of_pos hnot).2
    split
    . refine ⟨h.release (by omega), ?_⟩
      show t.release.suspendCount.toInt + one t.userStopCount = t.suspendCount.toInt + 0
      rw [release_suspendCount (by omega)]
      omega
    . next hne =>
      refine ⟨h, ?_⟩
      show t.suspendCount.toInt + one t.userStopCount = _ + one (t.userStopCount - 1)
      rw [one_pred hnot hne]

end Fits

end StopThread

inductive StopCall where
  | suspending (cur : Nat)
  | holding (rest : List Nat) (cur : Nat)
  | waiting (cur : Nat)
  | resuming
  | releasing (rest : List Nat)
  | done
deriving DecidableEq, Repr

structure StopTask where
  threadList : List Nat
  nodup : threadList.Nodup
  userStopCount : Int32
  thread : Nat → StopThread
  calls : List StopCall

inductive StopOp where
  | taskSuspend (cur : Nat)
  | taskResume
  | threadSuspend (t : Nat)
  | threadResume (t : Nat)
  | advance (i : Nat)
  | schedule (t : Nat) (halted wait run : Bool)
deriving DecidableEq, Repr

namespace StopTask

def setThread (s : StopTask) (t : Nat) (th : StopThread) : StopTask := { s with thread := update s.thread t th }

def setCall (s : StopTask) (i : Nat) (c : StopCall) : StopTask := { s with calls := s.calls.set i c }

def advance (s : StopTask) (i : Nat) : StopCall → StopTask
  | .suspending cur => s.setCall i (.holding (s.threadList.filter (· ≠ cur)) cur)
  | .holding [] cur => s.setCall i (.waiting cur)
  | .holding (t :: rest) cur => (s.setThread t (s.thread t).hold).setCall i (.holding rest cur)
  | .waiting cur =>
    if cur ∈ s.threadList then (s.setThread cur (s.thread cur).hold).setCall i .done else s.setCall i .done
  | .resuming => s.setCall i (.releasing s.threadList)
  | .releasing [] => s.setCall i .done
  | .releasing (t :: rest) => (s.setThread t (s.thread t).release).setCall i (.releasing rest)
  | .done => s

def step (s : StopTask) : StopOp → StopTask
  | .taskSuspend cur =>
    if s.userStopCount = 0 then { s with userStopCount := 1, calls := s.calls ++ [.suspending cur] }
    else { s with userStopCount := s.userStopCount + 1 }
  | .taskResume =>
    if s.userStopCount ≤ 0 then s
    else if s.userStopCount - 1 = 0 then { s with userStopCount := 0, calls := s.calls ++ [.resuming] }
    else { s with userStopCount := s.userStopCount - 1 }
  | .threadSuspend t => s.setThread t (s.thread t).suspend
  | .threadResume t => s.setThread t (s.thread t).resume
  | .advance i =>
    match s.calls[i]? with
    | none => s
    | some c => s.advance i c
  | .schedule t halted wait run => s.setThread t { s.thread t with halted := halted, wait := wait, run := run }

def run : StopTask → List StopOp → StopTask
  | s, [] => s
  | s, op :: ops => run (s.step op) ops

end StopTask

def StopCall.holds (t : Nat) : StopCall → Nat
  | .suspending _ => 1
  | .holding rest cur => rest.count t + if cur = t then 1 else 0
  | .waiting cur => if cur = t then 1 else 0
  | _ => 0

def StopCall.releases (t : Nat) : StopCall → Nat
  | .resuming => 1
  | .releasing rest => rest.count t
  | _ => 0

namespace StopTask

def calm (s : StopTask) : StopOp → Bool
  | .advance i =>
    match s.calls[i]? with
    | some (.holding (t :: _) _) | some (.waiting t) => (s.thread t).suspendCount ≠ .maxValue
    | some (.releasing (t :: _)) => s.calls.all fun c => c.holds t == 0
    | _ => true
  | .taskSuspend _ => s.userStopCount ≠ .maxValue
  | .threadSuspend t => (s.thread t).canSuspend
  | _ => true

def calmRun : StopTask → List StopOp → Bool
  | _, [] => true
  | s, op :: ops => s.calm op && calmRun (s.step op) ops

def Paired (s : StopTask) : Prop :=
  ∀ t ∈ s.threadList, ((s.thread t).susp = true ↔ 0 < (s.thread t).userStopCount ∨ 0 < s.userStopCount) ∧
    (s.thread t).suspendCount.toInt = one (s.thread t).userStopCount + one s.userStopCount

def toHold (s : StopTask) (t : Nat) : Nat := (s.calls.map (StopCall.holds t)).sum

def toRelease (s : StopTask) (t : Nat) : Nat := (s.calls.map (StopCall.releases t)).sum

structure Counted (s : StopTask) (t : Nat) : Prop where
  count : (s.thread t).suspendCount.toInt + s.toHold t =
    one (s.thread t).userStopCount + one s.userStopCount + s.toRelease t
  le : (s.toHold t : Int) ≤ one s.userStopCount + s.toRelease t
  fits : (s.thread t).Fits

variable {s : StopTask} {t i : Nat} {c c' : StopCall} {op : StopOp} {ops : List StopOp}

theorem one_nonneg (n : Int32) : 0 ≤ one n := by
  unfold one
  split
  . exact Int.zero_le_ofNat 1
  . exact Int.le_refl 0

theorem toHold_setCall (hc : s.calls[i]? = some c) (c' : StopCall) (t : Nat)
    : (s.setCall i c').toHold t + c.holds t = s.toHold t + c'.holds t :=
  Lists.sum_map_set hc

theorem toRelease_setCall (hc : s.calls[i]? = some c) (c' : StopCall) (t : Nat)
    : (s.setCall i c').toRelease t + c.releases t = s.toRelease t + c'.releases t :=
  Lists.sum_map_set hc

theorem count_threadList (ht : t ∈ s.threadList) : s.threadList.count t = 1 := List.count_eq_one_of_mem s.nodup ht

theorem count_filter (ht : t ∈ s.threadList) (cur : Nat)
    : (s.threadList.filter (· ≠ cur)).count t + (if cur = t then 1 else 0) = 1 := by
  by_cases h : cur = t
  . subst h
    rw [if_pos rfl, List.count_eq_zero.2]
    intro hmem
    exact of_decide_eq_true (List.mem_filter.1 hmem).2 rfl
  . rw [if_neg h, List.count_filter, count_threadList ht]
    exact decide_eq_true (Ne.symm h)

namespace Counted

variable (h : s.Counted t)
include h

theorem congr {s' : StopTask} (hthread : s'.thread t = s.thread t)
    (hcalls : (s'.toHold t : Int) + s.toRelease t + one s.userStopCount =
      s.toHold t + s'.toRelease t + one s'.userStopCount) : s'.Counted t := by
  obtain ⟨hcount, hle, hfits⟩ := h
  rw [← hthread] at hcount hfits
  exact ⟨by omega, by omega, hfits⟩

theorem le_suspendCount : one (s.thread t).userStopCount ≤ (s.thread t).suspendCount.toInt := by
  have hcount := h.count
  have hle := h.le
  omega

theorem nonneg : 0 ≤ (s.thread t).suspendCount.toInt := Int.le_trans (one_nonneg _) h.le_suspendCount

theorem setCall (hc : s.calls[i]? = some c) (hhold : c.holds t = c'.holds t) (hrelease : c.releases t = c'.releases t)
    : (s.setCall i c').Counted t := by
  have hh := toHold_setCall hc c' t
  have hr := toRelease_setCall hc c' t
  apply h.congr
  . rfl
  . show _ + one s.userStopCount = _ + one s.userStopCount
    omega

theorem setThread {th : StopThread} {s' : StopTask} (hthread : s'.thread = update s.thread u th)
    (hstop : s'.userStopCount = s.userStopCount) (hle : (s'.toHold t : Int) ≤ one s.userStopCount + s'.toRelease t)
    (hself : u = t → th.Fits ∧
      th.suspendCount.toInt + s'.toHold t = one th.userStopCount + one s.userStopCount + s'.toRelease t)
    (hother : u ≠ t → s'.toHold t = s.toHold t ∧ s'.toRelease t = s.toRelease t) : s'.Counted t := by
  by_cases hu : u = t
  . obtain ⟨hfits, hcount⟩ := hself hu
    have heq : s'.thread t = th := by rw [hthread, hu, update_self]
    rw [← hstop] at hle hcount
    rw [← heq] at hfits hcount
    exact ⟨hcount, hle, hfits⟩
  . obtain ⟨hh, hr⟩ := hother hu
    apply h.congr
    . rw [hthread, update_of_ne (Ne.symm hu)]
    . rw [hh, hr, hstop]

theorem hold (hc : s.calls[i]? = some c) (hhold : c.holds t = c'.holds t + if u = t then 1 else 0)
    (hrelease : c.releases t = c'.releases t) (hmax : (s.thread u).suspendCount ≠ .maxValue)
    : ((s.setThread u (s.thread u).hold).setCall i c').Counted t := by
  have hh := toHold_setCall (s := s.setThread u (s.thread u).hold) hc c' t
  have hr := toRelease_setCall (s := s.setThread u (s.thread u).hold) hc c' t
  change _ = s.toHold t + _ at hh
  change _ = s.toRelease t + _ at hr
  have hcount := h.count
  have hle := h.le
  apply h.setThread
  . rfl
  . rfl
  . split at hhold
    all_goals omega
  . rintro rfl
    rw [if_pos rfl] at hhold
    refine ⟨StopThread.fits_hold hmax h.nonneg, ?_⟩
    show (s.thread u).hold.suspendCount.toInt + _ = one (s.thread u).userStopCount + _ + _
    rw [StopThread.hold_suspendCount hmax]
    omega
  . intro hu
    rw [if_neg hu] at hhold
    omega

theorem release (hc : s.calls[i]? = some c) (hhold : c.holds t = c'.holds t)
    (hrelease : c.releases t = c'.releases t + if u = t then 1 else 0) (hcalm : s.toHold u = 0)
    : ((s.setThread u (s.thread u).release).setCall i c').Counted t := by
  have hh := toHold_setCall (s := s.setThread u (s.thread u).release) hc c' t
  have hr := toRelease_setCall (s := s.setThread u (s.thread u).release) hc c' t
  change _ = s.toHold t + _ at hh
  change _ = s.toRelease t + _ at hr
  have hcount := h.count
  have hone := one_nonneg s.userStopCount
  have hone' := one_nonneg (s.thread t).userStopCount
  apply h.setThread
  . rfl
  . rfl
  . have hle := h.le
    split at hrelease
    . next hu =>
      subst hu
      omega
    . omega
  . rintro rfl
    rw [if_pos rfl] at hrelease
    refine ⟨h.fits.release (by omega), ?_⟩
    rw [StopThread.release_suspendCount h.nonneg, StopThread.release_userStopCount]
    omega
  . intro hu
    rw [if_neg hu] at hrelease
    omega

theorem own (hth : u = t → th.Fits ∧
      th.suspendCount.toInt + one (s.thread u).userStopCount = (s.thread u).suspendCount.toInt + one th.userStopCount)
    : (s.setThread u th).Counted t := by
  have hcount := h.count
  apply h.setThread
  . rfl
  . rfl
  . exact h.le
  . rintro rfl
    obtain ⟨hfits, -⟩ := hth rfl
    refine ⟨hfits, ?_⟩
    show th.suspendCount.toInt + s.toHold u = _ + _ + s.toRelease u
    omega
  . exact fun _ => ⟨rfl, rfl⟩

end Counted

theorem toHold_eq_zero (h : s.calls.all (fun c => c.holds t == 0) = true) : s.toHold t = 0 := by
  apply List.sum_eq_zero
  intro n hn
  obtain ⟨c, hc, rfl⟩ := List.mem_map.1 hn
  exact eq_of_beq (List.all_eq_true.1 h c hc)

theorem Counted.advance (h : s.Counted t) (ht : t ∈ s.threadList) (hc : s.calls[i]? = some c)
    (hcalm : s.calm (.advance i) = true) : (s.advance i c).Counted t := by
  dsimp only [calm] at hcalm
  rw [hc] at hcalm
  cases c with
  | suspending cur =>
    refine h.setCall hc ?_ rfl
    exact (count_filter ht cur).symm
  | holding rest cur =>
    cases rest with
    | nil => exact h.setCall hc (Nat.zero_add _) rfl
    | cons u rest =>
      refine h.hold hc ?_ rfl (of_decide_eq_true hcalm)
      show (u :: rest).count t + _ = rest.count t + _ + _
      rw [List.count_cons, beq_eq_decide]
      simp only [decide_eq_true_eq]
      omega
  | waiting cur =>
    by_cases hcur : cur ∈ s.threadList
    . rw [StopTask.advance, if_pos hcur]
      apply h.hold hc
      . exact (Nat.zero_add _).symm
      . rfl
      . exact of_decide_eq_true hcalm
    . rw [StopTask.advance, if_neg hcur]
      apply h.setCall hc
      . apply if_neg
        rintro rfl
        exact hcur ht
      . rfl
  | resuming => exact h.setCall hc rfl (count_threadList ht).symm
  | releasing rest =>
    cases rest with
    | nil => exact h.setCall hc rfl rfl
    | cons u rest =>
      refine h.release hc rfl ?_ (toHold_eq_zero hcalm)
      show (u :: rest).count t = rest.count t + _
      rw [List.count_cons, beq_eq_decide]
      simp only [decide_eq_true_eq]
  | done => exact h

theorem Counted.begin {n : Int32} (h : s.Counted t) (hcall : c.holds t + one s.userStopCount = c.releases t + one n)
    : Counted { s with userStopCount := n, calls := s.calls ++ [c] } t := by
  apply h.congr
  . rfl
  . dsimp only [toHold, toRelease]
    rw [List.map_append, List.map_append, List.sum_append, List.sum_append, List.map_singleton, List.map_singleton,
      List.sum_singleton, List.sum_singleton]
    omega

theorem Counted.setStop {n : Int32} (h : s.Counted t) (hn : one n = one s.userStopCount)
    : Counted { s with userStopCount := n } t := by
  apply h.congr
  . rfl
  . show _ + one s.userStopCount = _ + one n
    rw [hn]
    rfl

theorem Counted.step (h : s.Counted t) (ht : t ∈ s.threadList) (hcalm : s.calm op = true) : (s.step op).Counted t := by
  cases op with
  | taskSuspend cur =>
    dsimp only [StopTask.step]
    split
    . next hzero =>
      apply h.begin
      rw [hzero]
      rfl
    . next hne => exact h.setStop (one_succ (of_decide_eq_true hcalm) hne)
  | taskResume =>
    dsimp only [StopTask.step]
    split
    . exact h
    . next hnot =>
      split
      . apply h.begin
        rw [(one_of_pos hnot).2]
        rfl
      . next hne => exact h.setStop (one_pred hnot hne)
  | threadSuspend u =>
    apply h.own
    rintro rfl
    exact h.fits.suspend hcalm h.nonneg
  | threadResume u =>
    apply h.own
    rintro rfl
    exact h.fits.resume h.le_suspendCount
  | advance i =>
    dsimp only [StopTask.step]
    split
    . exact h
    . next c hc => exact h.advance ht hc hcalm
  | schedule u halted wait run =>
    apply h.own
    rintro rfl
    exact ⟨h.fits, rfl⟩

theorem step_threadList (s : StopTask) (op : StopOp) : (s.step op).threadList = s.threadList := by
  unfold step
  split
  case h_5 i =>
    split
    . rfl
    . unfold StopTask.advance
      split
      case h_4 =>
        split
        . rfl
        . rfl
      all_goals rfl
  all_goals
    repeat' split
    all_goals rfl

theorem run_threadList (s : StopTask) (ops : List StopOp) : (s.run ops).threadList = s.threadList := by
  induction ops generalizing s with
  | nil => rfl
  | cons op ops ih => exact (ih _).trans (step_threadList s op)

theorem Counted.run (h : s.Counted t) (ht : t ∈ s.threadList) (hcalm : s.calmRun ops = true)
    : (s.run ops).Counted t := by
  induction ops generalizing s with
  | nil => exact h
  | cons op ops ih =>
    obtain ⟨hop, hops⟩ := (Bool.and_eq_true _ _).mp hcalm
    apply ih (h.step ht hop) _ hops
    rw [step_threadList]
    exact ht

theorem one_pos_iff (a b : Int32) : 0 < one a + one b ↔ 0 < a ∨ 0 < b := by
  rw [one_eq, one_eq, Int32.lt_iff_toInt_lt, Int32.lt_iff_toInt_lt, Int32.toInt_zero]
  split
  all_goals
    split
    all_goals omega

theorem paired_iff (hdone : ∀ c ∈ s.calls, c = .done) : s.Paired ↔ ∀ t ∈ s.threadList, s.Counted t := by
  have hsum {f : StopCall → Nat} (hf : f .done = 0) : (s.calls.map f).sum = 0 := by
    apply List.sum_eq_zero
    intro n hn
    obtain ⟨c, hc, rfl⟩ := List.mem_map.1 hn
    rw [hdone c hc, hf]
  apply forall₂_congr
  intro t _
  have hhold : s.toHold t = 0 := hsum rfl
  have hrelease : s.toRelease t = 0 := hsum rfl
  have hpos := one_pos_iff (s.thread t).userStopCount s.userStopCount
  constructor
  . rintro ⟨hsusp, hcount⟩
    refine ⟨by omega, ?_, ?_⟩
    . have hone := one_nonneg s.userStopCount
      omega
    . rw [← hpos, ← hcount] at hsusp
      exact Bool.eq_iff_iff.2 (hsusp.trans (decide_eq_true_iff).symm)
  . intro h
    have hcount := h.count
    rw [hhold, hrelease, Int.natCast_zero, Int.add_zero, Int.add_zero] at hcount
    refine ⟨?_, hcount⟩
    rw [h.fits, decide_eq_true_iff, hcount]
    exact hpos

theorem run_paired (s : StopTask) (ops : List StopOp) (hcalls : s.calls = []) (hs : s.Paired)
    (hcalm : s.calmRun ops = true) (hdone : ∀ c ∈ (s.run ops).calls, c = .done) : (s.run ops).Paired := by
  rw [paired_iff (by rw [hcalls]; exact nofun)] at hs
  rw [paired_iff hdone]
  intro t ht
  rw [run_threadList] at ht
  exact (hs t ht).run ht hcalm

def fresh : StopTask := ⟨[0, 1], by decide, 0, fun _ => ⟨0, 0, false, false, false, true⟩, []⟩

def ownTask : List StopOp :=
  [.taskSuspend 0, .advance 0, .advance 0, .advance 0, .threadSuspend 1, .advance 0, .taskResume, .advance 1,
    .advance 1, .advance 1, .advance 1]

theorem run_paired_ownTask : (fresh.run ownTask).Paired := by
  apply run_paired
  . rfl
  . unfold Paired
    decide
  . decide
  . decide

theorem run_resumed
    : ¬ (fresh.run [.taskSuspend 2, .taskResume, .advance 1, .advance 1, .advance 1, .advance 1, .advance 0, .advance 0,
      .advance 0, .advance 0, .advance 0]).Paired := by
  unfold Paired
  decide

end StopTask

end Kern
