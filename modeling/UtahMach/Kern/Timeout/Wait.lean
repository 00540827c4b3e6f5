import UtahMach.Kern.Timeout.Basic

/-!
This module contains threads that wait with timeouts.
-/

namespace Kern

inductive WaitResult where
  | awakened
  | timedOut
  | interrupted
  | restart
deriving DecidableEq, Repr

structure WaitThread where
  run : Bool
  wait : Bool
  unint : Bool
  waitEvent : Option Nat
  waitResult : WaitResult
  armed : Option (Nat × Nat)
deriving DecidableEq, Repr

inductive SoftPc where
  | idle
  | unlinked (thread : Nat)
  | asserted (thread : Nat)
  | looked (thread event : Nat)
deriving DecidableEq, Repr

def SoftPc.thread : SoftPc → Option Nat
  | .idle => none
  | .unlinked thread | .asserted thread | .looked thread _ => some thread

structure Clearer where
  thread : Nat
  result : WaitResult
  event : Nat
deriving DecidableEq, Repr

inductive WaitEvent where
  | resumed (thread : Nat) (result : WaitResult) (armed : Option (Nat × Nat)) (now : Nat)
  | inserted (thread : Nat) (linked : Bool)
deriving DecidableEq, Repr

structure Waits where
  timers : Timers
  thread : Nat → WaitThread
  soft : SoftPc
  clearers : List Clearer
  now : Nat
  log : List WaitEvent

inductive WaitOp where
  | tick
  | soft
  | assertWait (thread : Nat) (event : Option Nat) (interruptible : Bool)
  | setTimeout (thread interval : Nat)
  | block (thread : Nat)
  | clearWait (thread : Nat) (result : WaitResult) (interruptOnly : Bool)
  | clearWaitDone (i : Nat)
  | wakeup (event thread : Nat) (result : WaitResult)
deriving DecidableEq, Repr

namespace Waits

def boot : Waits := ⟨.initTimeout, fun _ => ⟨true, false, false, none, .awakened, none⟩, .idle, [], 0, []⟩

def setThread (s : Waits) (t : Nat) (thread : WaitThread) : Waits :=
  { s with thread := Function.update s.thread t thread }

def clear (s : Waits) (t : Nat) (result : WaitResult) : Waits :=
  let s := { s with timers := (s.timers.resetTimeout t).2 }
  if (s.thread t).wait then
    let s := { s with log := .resumed t result (s.thread t).armed s.now :: s.log }
    s.setThread t { s.thread t with wait := false, run := true, waitResult := result }
  else
    s

def clearEvent (s : Waits) (t : Nat) (result : WaitResult) (event : Nat) : Waits :=
  if (s.thread t).waitEvent = some event then
    (s.setThread t { s.thread t with waitEvent := none }).clear t result
  else
    s

def softclock (s : Waits) : Except Stop Waits :=
  match s.soft with
  | .idle => do
    let (called, timers) ← s.timers.softclock
    match called with
    | none => .ok s
    | some t => .ok { s with timers := timers, soft := .unlinked t }
  | .unlinked t => do
    Stop.check ((s.timers.elt t).set = false)
    .ok { s with soft := .asserted t }
  | .asserted t =>
    match (s.thread t).waitEvent with
    | none => .ok ({ s with soft := .idle }.clear t .timedOut)
    | some event => .ok { s with soft := .looked t event }
  | .looked t event => .ok ({ s with soft := .idle }.clearEvent t .timedOut event)

def step (s : Waits) : WaitOp → Except Stop Waits
  | .tick => .ok { s with timers := s.timers.tick.2, now := s.now + 1 }
  | .soft => s.softclock
  | .assertWait t event interruptible => do
    Stop.check ((s.thread t).waitEvent = none)
    .ok (s.setThread t { s.thread t with wait := true, unint := !interruptible, waitEvent := event, armed := none })
  | .setTimeout t interval =>
    if (s.thread t).wait then
      match s.timers.setTimeout (s.timers.chain.length + 1) t interval with
      | none => .error .undefined
      | some timers =>
        let s := { s with log := .inserted t (decide (t ∈ s.timers.chain)) :: s.log, timers := timers }
        .ok (s.setThread t { s.thread t with armed := some (s.now, interval) })
    else
      .ok s
  | .block t => .ok (s.setThread t { s.thread t with run := !(s.thread t).wait })
  | .clearWait t result interruptOnly =>
    if interruptOnly ∧ (s.thread t).unint then
      .ok s
    else
      match (s.thread t).waitEvent with
      | none => .ok (s.clear t result)
      | some event => .ok { s with clearers := s.clearers ++ [⟨t, result, event⟩] }
  | .clearWaitDone i =>
    match s.clearers[i]? with
    | none => .ok s
    | some c => .ok ({ s with clearers := s.clearers.eraseIdx i }.clearEvent c.thread c.result c.event)
  | .wakeup event t result => .ok (s.clearEvent t result event)

def run (s : Waits) : List WaitOp → Except Stop Waits
  | [] => .ok s
  | op :: ops => do
    let s ← s.step op
    run s ops

def Allowed (s : Waits) : WaitOp → Prop
  | .assertWait t _ _ => (s.thread t).run ∧ (s.thread t).wait = false
  | .setTimeout t interval => (s.thread t).run ∧ (s.thread t).armed = none ∧ interval < tickSize
  | .block t => (s.thread t).run
  | .clearWait _ result _ => result ≠ .timedOut
  | .wakeup _ _ result => result ≠ .timedOut
  | _ => True

def Bounded (s : Waits) : WaitOp → Prop
  | .setTimeout _ interval => s.now + interval < headTicks
  | .tick => s.now + 1 < headTicks
  | _ => True

def Calm (s : Waits) : WaitOp → Prop
  | .clearWait t _ _ => s.soft.thread ≠ some t
  | .clearWaitDone i => ∀ c ∈ s.clearers[i]?, s.soft.thread ≠ some c.thread
  | .wakeup _ t _ => s.soft.thread ≠ some t
  | _ => True

def CalmRun : Waits → List WaitOp → Prop
  | _, [] => True
  | s, op :: ops => s.Allowed op ∧ s.Bounded op ∧ s.Calm op ∧ ∀ s', s.step op = .ok s' → CalmRun s' ops

end Waits

def WaitEvent.Right : WaitEvent → Prop
  | .resumed _ result armed now =>
    result = .timedOut → ∃ start interval, armed = some (start, interval) ∧ start + interval ≤ now
  | .inserted _ linked => linked = false

namespace Waits

variable {s s' : Waits} {t : Nat} {result : WaitResult}

structure Inv (s : Waits) : Prop where
  ordered : s.timers.Ordered
  elapsed : s.timers.elapsedTicks = s.now
  lt : s.now < headTicks
  armed : ∀ t ∈ s.timers.chain, (s.thread t).wait ∧ ∃ start interval,
    (s.thread t).armed = some (start, interval) ∧ (s.timers.elt t).ticks = start + interval
  event : ∀ t, (s.thread t).waitEvent ≠ none → (s.thread t).wait
  soft : ∀ t ∈ s.soft.thread, (s.thread t).wait ∧ t ∉ s.timers.chain ∧ ∃ start interval,
    (s.thread t).armed = some (start, interval) ∧ start + interval ≤ s.now
  clearers : ∀ c ∈ s.clearers, c.result ≠ .timedOut
  right : ∀ e ∈ s.log, e.Right

theorem boot_inv : boot.Inv where
  ordered := Timers.ordered_initTimeout
  elapsed := rfl
  lt := by decide
  armed := nofun
  event := fun _ h => absurd rfl h
  soft := nofun
  clearers := nofun
  right := nofun

theorem Inv.idle (h : s.Inv) : Inv { s with soft := .idle } :=
  ⟨h.ordered, h.elapsed, h.lt, h.armed, h.event, nofun, h.clearers, h.right⟩

theorem thread_setThread_self (s : Waits) (t : Nat) (thread : WaitThread) : (s.setThread t thread).thread t = thread :=
  Function.update_self ..

theorem thread_setThread_of_ne (ha : a ≠ t) (s : Waits) (thread : WaitThread)
    : (s.setThread t thread).thread a = s.thread a :=
  Function.update_of_ne ha _ _

section

variable (h : s.Inv)
include h

theorem Inv.logged {e : WaitEvent} (he : e.Right) : Inv { s with log := e :: s.log } :=
  ⟨h.ordered, h.elapsed, h.lt, h.armed, h.event, h.soft, h.clearers, List.forall_mem_cons.2 ⟨he, h.right⟩⟩

/-- What is asked of one thread. -/
theorem Inv.change {thread : WaitThread} (harmed : t ∈ s.timers.chain → thread.wait ∧ ∃ start interval,
      thread.armed = some (start, interval) ∧ (s.timers.elt t).ticks = start + interval)
    (hevent : thread.waitEvent ≠ none → thread.wait)
    (hsoft : s.soft.thread = some t → thread.wait ∧ t ∉ s.timers.chain ∧ ∃ start interval,
      thread.armed = some (start, interval) ∧ start + interval ≤ s.now) : (s.setThread t thread).Inv := by
  refine ⟨h.ordered, h.elapsed, h.lt, ?_, ?_, ?_, h.clearers, h.right⟩
  . intro a ha
    by_cases hat : a = t
    . subst hat
      rw [thread_setThread_self]
      exact harmed ha
    . rw [thread_setThread_of_ne hat]
      exact h.armed a ha
  . intro a ha
    by_cases hat : a = t
    . subst hat
      rw [thread_setThread_self] at ha ⊢
      exact hevent ha
    . rw [thread_setThread_of_ne hat] at ha ⊢
      exact h.event a ha
  . intro a ha
    by_cases hat : a = t
    . subst hat
      rw [thread_setThread_self]
      exact hsoft ha
    . rw [thread_setThread_of_ne hat]
      exact h.soft a ha

theorem Inv.setThread {thread : WaitThread} (hwait : thread.wait = (s.thread t).wait)
    (harmed : thread.armed = (s.thread t).armed)
    (hevent : thread.waitEvent ≠ none → (s.thread t).waitEvent ≠ none) : (s.setThread t thread).Inv := by
  apply h.change
  . rw [hwait, harmed]
    exact h.armed t
  . rw [hwait]
    exact fun he => h.event t (hevent he)
  . rw [hwait, harmed]
    exact h.soft t

theorem Inv.armed_unset (t : Nat) : ∀ a ∈ (s.timers.unset t).chain, (s.thread a).wait ∧ ∃ start interval,
      (s.thread a).armed = some (start, interval) ∧ ((s.timers.unset t).elt a).ticks = start + interval := by
  intro a ha
  obtain ⟨hne, ha⟩ := h.ordered.mem_unset.1 ha
  rw [Timers.elt_unset_of_ne hne]
  exact h.armed a ha

theorem Inv.resetTimeout (t : Nat)
    : Inv { s with timers := (s.timers.resetTimeout t).2 } ∧ t ∉ (s.timers.resetTimeout t).2.chain := by
  unfold Timers.resetTimeout
  by_cases hset : (s.timers.elt t).set
  . rw [if_pos hset]
    refine ⟨⟨h.ordered.unset t, h.elapsed, h.lt, h.armed_unset t, h.event, ?_, h.clearers, h.right⟩, ?_⟩
    . intro a ha
      obtain ⟨hwait, hnot, harmed⟩ := h.soft a ha
      exact ⟨hwait, fun hmem => hnot (h.ordered.mem_unset.1 hmem).2, harmed⟩
    . exact fun ht => (h.ordered.mem_unset.1 ht).1 rfl
  . rw [if_neg hset]
    exact ⟨h, h.ordered.not_mem_iff.2 (Bool.eq_false_iff.2 hset)⟩

theorem Inv.clear (hevent : (s.thread t).waitEvent = none) (hsoft : s.soft.thread ≠ some t)
    (hright : result = .timedOut → ∃ start interval,
      (s.thread t).armed = some (start, interval) ∧ start + interval ≤ s.now) : (s.clear t result).Inv := by
  obtain ⟨hreset, hnot⟩ := h.resetTimeout t
  unfold Waits.clear
  dsimp only
  split
  . apply (hreset.logged (e := .resumed t result _ _) hright).change
    . exact fun ht => absurd ht hnot
    . exact fun he => absurd hevent he
    . exact fun hs => absurd hs hsoft
  . exact hreset

theorem Inv.clearEvent (event : Nat) (hsoft : s.soft.thread ≠ some t) (hright : result = .timedOut → ∃ start interval,
      (s.thread t).armed = some (start, interval) ∧ start + interval ≤ s.now) : (s.clearEvent t result event).Inv := by
  unfold Waits.clearEvent
  split
  . apply Inv.clear
    . exact h.setThread rfl rfl (fun hne => absurd rfl hne)
    . rw [thread_setThread_self]
    . exact hsoft
    . rw [thread_setThread_self]
      exact hright
  . exact h

theorem step_tick (hbounded : s.Bounded .tick) (hstep : s.step .tick = .ok s') : s'.Inv := by
  cases hstep
  have helapsed : (s.timers.elapsedTicks + 1) % tickSize = s.now + 1 := by
    rw [Timers.elapsed_tick (h.elapsed ▸ hbounded), h.elapsed]
  refine ⟨⟨h.ordered.sorted, h.ordered.nodup, h.ordered.set, h.ordered.lt⟩, helapsed, hbounded, h.armed, h.event,
    ?_, h.clearers, h.right⟩
  intro a ha
  obtain ⟨hwait, hnot, start, interval, harmed, hle⟩ := h.soft a ha
  exact ⟨hwait, hnot, start, interval, harmed, Nat.le_succ_of_le hle⟩

theorem step_soft : ∃ s', s.step .soft = .ok s' ∧ s'.Inv := by
  change ∃ s', s.softclock = .ok s' ∧ s'.Inv
  unfold softclock
  cases hpc : s.soft with
  | idle =>
    obtain ⟨-, heq⟩ | ⟨t, rest, hchain, hle, heq⟩ := Timers.softclock_spec (h.elapsed ▸ h.lt)
    . rw [heq]
      exact ⟨s, rfl, h⟩
    . rw [heq]
      refine ⟨_, rfl, h.ordered.unset t, h.elapsed, h.lt, h.armed_unset t, h.event, ?_, h.clearers, h.right⟩
      intro a ha
      obtain rfl : t = a := by simpa [SoftPc.thread] using ha
      obtain ⟨hwait, start, interval, harmed, hticks⟩ := h.armed t (by simp [hchain])
      refine ⟨hwait, fun hmem => (h.ordered.mem_unset.1 hmem).1 rfl, start, interval, harmed, ?_⟩
      rw [← hticks, ← h.elapsed]
      exact hle
  | unlinked t =>
    dsimp only
    have hsoft := h.soft t (by rw [hpc]; rfl)
    rw [Stop.check_bind (h.ordered.not_mem_iff.1 hsoft.2.1)]
    refine ⟨_, rfl, h.ordered, h.elapsed, h.lt, h.armed, h.event, ?_, h.clearers, h.right⟩
    intro a ha
    obtain rfl : t = a := by simpa [SoftPc.thread] using ha
    exact hsoft
  | asserted t =>
    dsimp only
    have hsoft := h.soft t (by rw [hpc]; rfl)
    cases hevent : (s.thread t).waitEvent with
    | none => exact ⟨_, rfl, h.idle.clear hevent nofun fun _ => hsoft.2.2⟩
    | some event =>
      refine ⟨_, rfl, h.ordered, h.elapsed, h.lt, h.armed, h.event, ?_, h.clearers, h.right⟩
      intro a ha
      obtain rfl : t = a := by simpa [SoftPc.thread] using ha
      exact hsoft
  | looked t event =>
    have hsoft := h.soft t (by rw [hpc]; rfl)
    exact ⟨_, rfl, h.idle.clearEvent event nofun fun _ => hsoft.2.2⟩

theorem step_assertWait (hallowed : s.Allowed (.assertWait t event interruptible))
    : ∃ s', s.step (.assertWait t event interruptible) = .ok s' ∧ s'.Inv := by
  have hwait := hallowed.2
  have hevent : (s.thread t).waitEvent = none := by
    by_contra hevent
    have := h.event t hevent
    rw [hwait] at this
    contradiction
  rw [step, Stop.check_bind hevent]
  have hidle : ¬ (s.thread t).wait := Bool.eq_false_iff.1 hwait
  refine ⟨_, rfl, h.change ?_ ?_ ?_⟩
  . exact fun ht => absurd (h.armed t ht).1 hidle
  . exact fun _ => rfl
  . exact fun hs => absurd (h.soft t hs).1 hidle

theorem step_setTimeout (hallowed : s.Allowed (.setTimeout t interval))
    (hbounded : s.Bounded (.setTimeout t interval)) : ∃ s', s.step (.setTimeout t interval) = .ok s' ∧ s'.Inv := by
  obtain ⟨_, hnone, _⟩ := hallowed
  rw [step]
  by_cases hwait : (s.thread t).wait
  . rw [if_pos hwait]
    have hnot : t ∉ s.timers.chain := by
      intro ht
      obtain ⟨_, _, _, harmed, _⟩ := h.armed t ht
      rw [hnone] at harmed
      cases harmed
    have hlt : interval + s.timers.elapsedTicks < headTicks := by
      rw [h.elapsed, Nat.add_comm]
      exact hbounded
    obtain ⟨i, htimers, hordered⟩ := Timers.setTimeout_spec h.ordered (h.ordered.not_mem_iff.1 hnot) hlt
    rw [htimers]
    refine ⟨_, rfl, hordered, h.elapsed, h.lt, ?_, ?_, ?_, h.clearers, ?_⟩
    . intro a ha
      by_cases hat : a = t
      . rw [hat, thread_setThread_self]
        refine ⟨hwait, s.now, interval, rfl, ?_⟩
        change ((s.timers.insque i t _).elt t).ticks = _
        rw [Timers.elt_insque_self]
        rw [h.elapsed, Nat.add_comm]
      . rw [thread_setThread_of_ne hat]
        change _ ∧ ∃ start interval', _ ∧ ((s.timers.insque i t _).elt a).ticks = _
        rw [Timers.elt_insque_of_ne hat]
        exact h.armed a ((Timers.mem_insque.1 ha).resolve_left hat)
    . intro a ha
      by_cases hat : a = t
      . rw [hat, thread_setThread_self]
        exact hwait
      . rw [thread_setThread_of_ne hat] at ha ⊢
        exact h.event a ha
    . intro a ha
      have hsoft := h.soft a ha
      have hne : a ≠ t := by
        rintro rfl
        obtain ⟨_, _, _, _, harmed, _⟩ := hsoft
        rw [hnone] at harmed
        cases harmed
      rw [thread_setThread_of_ne hne]
      exact ⟨hsoft.1, fun ha' => hsoft.2.1 ((Timers.mem_insque.1 ha').resolve_left hne), hsoft.2.2⟩
    . exact List.forall_mem_cons.2 ⟨decide_eq_false hnot, h.right⟩
  . rw [if_neg hwait]
    exact ⟨s, rfl, h⟩

theorem step_clearWait (hallowed : s.Allowed (.clearWait t result interruptOnly))
    (hcalm : s.Calm (.clearWait t result interruptOnly))
    : ∃ s', s.step (.clearWait t result interruptOnly) = .ok s' ∧ s'.Inv := by
  rw [step]
  split
  . exact ⟨s, rfl, h⟩
  . cases hevent : (s.thread t).waitEvent with
    | none => exact ⟨_, rfl, h.clear hevent hcalm fun hresult => absurd hresult hallowed⟩
    | some event =>
      exact ⟨_, rfl, h.ordered, h.elapsed, h.lt, h.armed, h.event, h.soft,
        List.forall_mem_append.2 ⟨h.clearers, List.forall_mem_singleton.2 hallowed⟩, h.right⟩

theorem step_clearWaitDone {i : Nat} (hcalm : s.Calm (.clearWaitDone i))
    : ∃ s', s.step (.clearWaitDone i) = .ok s' ∧ s'.Inv := by
  rw [step]
  cases hc : s.clearers[i]? with
  | none => exact ⟨s, rfl, h⟩
  | some c =>
    have hresult := h.clearers c (List.mem_of_getElem? hc)
    refine ⟨_, rfl, Inv.clearEvent ?_ c.event (hcalm c hc) fun h => absurd h hresult⟩
    refine ⟨h.ordered, h.elapsed, h.lt, h.armed, h.event, h.soft, ?_, h.right⟩
    exact fun d hd => h.clearers d (List.mem_of_mem_eraseIdx hd)

theorem step_inv {op : WaitOp} (hallowed : s.Allowed op) (hbounded : s.Bounded op) (hcalm : s.Calm op)
    : ∃ s', s.step op = .ok s' ∧ s'.Inv := by
  cases op with
  | tick => exact ⟨_, rfl, step_tick h hbounded rfl⟩
  | soft => exact step_soft h
  | assertWait t event interruptible => exact step_assertWait h hallowed
  | setTimeout t interval => exact step_setTimeout h hallowed hbounded
  | block t => exact ⟨_, rfl, h.setThread rfl rfl id⟩
  | clearWait t result interruptOnly => exact step_clearWait h hallowed hcalm
  | clearWaitDone i => exact step_clearWaitDone h hcalm
  | wakeup event t result => exact ⟨_, rfl, h.clearEvent event hcalm fun hresult => absurd hresult hallowed⟩

theorem run_inv (hcalm : s.CalmRun ops) : ∃ s', s.run ops = .ok s' ∧ s'.Inv := by
  induction ops generalizing s with
  | nil => exact ⟨s, rfl, h⟩
  | cons op ops ih =>
    obtain ⟨hallowed, hbounded, hcalm, hrest⟩ := hcalm
    obtain ⟨t, hstep, ht⟩ := step_inv h hallowed hbounded hcalm
    obtain ⟨s', hrun, hs'⟩ := ih ht (hrest t hstep)
    refine ⟨s', ?_, hs'⟩
    rw [run, hstep]
    exact hrun

end

theorem run_right (ops : List WaitOp) (hcalm : boot.CalmRun ops)
    : ∃ s, boot.run ops = .ok s ∧ ∀ e ∈ s.log, e.Right := by
  obtain ⟨s, hrun, hs⟩ := run_inv boot_inv hcalm
  exact ⟨s, hrun, hs.right⟩

instance (s : Waits) (op : WaitOp) : Decidable (s.Allowed op) := by
  unfold Allowed
  split <;> infer_instance

instance (s : Waits) (op : WaitOp) : Decidable (s.Bounded op) := by
  unfold Bounded
  split <;> infer_instance

instance (s : Waits) (op : WaitOp) : Decidable (s.Calm op) := by
  unfold Calm
  split <;> infer_instance

instance decidableCalmRun : (s : Waits) → (ops : List WaitOp) → Decidable (s.CalmRun ops)
  | _, [] => isTrue trivial
  | s, op :: ops =>
    match hstep : s.step op with
    | .ok t =>
      have := decidableCalmRun t ops
      decidable_of_iff (s.Allowed op ∧ s.Bounded op ∧ s.Calm op ∧ t.CalmRun ops) (by simp [CalmRun, hstep])
    | .error _ => decidable_of_iff (s.Allowed op ∧ s.Bounded op ∧ s.Calm op) (by simp [CalmRun, hstep])

def oneTick : List WaitOp := [.assertWait 0 (some 5) true, .setTimeout 0 1, .block 0, .tick, .soft, .soft, .soft, .soft]

theorem run_right_oneTick : ∃ s, boot.run oneTick = .ok s ∧ ∀ e ∈ s.log, e.Right := run_right oneTick (by decide)

def waitAgain : List WaitOp :=
  [.assertWait 0 (some 5) true, .setTimeout 0 1, .block 0, .tick, .soft, .soft, .wakeup 5 0 .awakened,
    .assertWait 0 (some 5) true, .setTimeout 0 10, .block 0, .soft, .soft]

theorem run_waitAgain : ∃ s, boot.run waitAgain = .ok s ∧ s.log.head? = some (.resumed 0 .timedOut (some (1, 10)) 1)
        ∧ ¬ ∀ e ∈ s.log, e.Right := by
  obtain ⟨s, heq, hhead⟩ : ∃ s, boot.run waitAgain = .ok s
      ∧ s.log.head? = some (.resumed 0 .timedOut (some (1, 10)) 1) := by
    decide
  refine ⟨s, heq, hhead, ?_⟩
  intro hright
  obtain ⟨start, interval, harmed, hle⟩ := hright _ (List.mem_of_head? hhead) rfl
  cases harmed
  omega

end Waits

end Kern
