import UtahMach.Kern.Timeout.Basic

/-!
This module contains runs of the timeouts with clock interrupts.
-/

namespace Kern

open List (mem_cons mem_cons_of_mem mem_cons_self replicate)

open Function

inductive TimeoutEvent where
  | set (n now interval : Nat)
  | reset (n : Nat)
  | call (n now : Nat)
  | tick (now : Nat) (needsoft : Bool)
  | softEnd (now : Nat)
deriving DecidableEq, Repr

namespace TimeoutEvent

def Outstanding (log : List TimeoutEvent) (n : Nat) : Prop :=
  (∃ now interval, .set n now interval ∈ log) ∧ .reset n ∉ log ∧ ∀ now, .call n now ∉ log

def Due (log : List TimeoutEvent) (n now : Nat) : Prop :=
  ∃ start interval, .set n start interval ∈ log ∧ start + interval ≤ now

def InTime : List TimeoutEvent → Prop
  | [] => True
  | .call n now :: log => (Outstanding log n ∧ Due log n now) ∧ InTime log
  | .tick now needsoft :: log => ((∃ n, Outstanding log n ∧ Due log n now) → needsoft) ∧ InTime log
  | .softEnd now :: log => (∀ n, Due log n now → ¬ Outstanding log n) ∧ InTime log
  | _ :: log => InTime log

end TimeoutEvent

structure Timeouts where
  timers : Timers
  pending : Bool
  running : Bool
  now : Nat
  number : Nat → Nat
  next : Nat
  log : List TimeoutEvent

inductive TimeoutOp where
  | set (telt interval : Nat)
  | reset (telt : Nat)
  | tick
  | soft
deriving DecidableEq, Repr

namespace Timeouts

def boot : Timeouts := ⟨.initTimeout, false, false, 0, fun _ => 0, 0, []⟩

def step (s : Timeouts) : TimeoutOp → Except Stop Timeouts
  | .set telt interval =>
    match s.timers.setTimeout (s.timers.chain.length + 1) telt interval with
    | none => .error .undefined
    | some timers => .ok
      { s with
        timers := timers
        number := Function.update s.number telt s.next
        next := s.next + 1
        log := .set s.next s.now interval :: s.log }
  | .reset telt =>
    let (done, timers) := s.timers.resetTimeout telt
    .ok { s with timers := timers, log := if done then .reset (s.number telt) :: s.log else s.log }
  | .tick =>
    let (needsoft, timers) := s.timers.tick
    .ok
      { s with
        timers := timers
        pending := s.pending || needsoft
        now := s.now + 1
        log := .tick (s.now + 1) needsoft :: s.log }
  | .soft =>
    if s.running then do
      let (called, timers) ← s.timers.softclock
      match called with
      | none => .ok { s with running := false, log := .softEnd s.now :: s.log }
      | some telt => .ok { s with timers := timers, log := .call (s.number telt) s.now :: s.log }
    else
      .ok { s with pending := false, running := s.pending }

def run (s : Timeouts) : List TimeoutOp → Except Stop Timeouts
  | [] => .ok s
  | op :: ops => do
    let s ← s.step op
    run s ops

def Allowed (s : Timeouts) : TimeoutOp → Prop
  | .set telt interval => (s.timers.elt telt).set = false ∧ interval < tickSize
  | _ => True

def Bounded (s : Timeouts) : TimeoutOp → Prop
  | .set _ interval => s.now + interval < headTicks
  | .tick => s.now + 1 < headTicks
  | _ => True

def BoundedRun : Timeouts → List TimeoutOp → Prop
  | _, [] => True
  | s, op :: ops => s.Allowed op ∧ s.Bounded op ∧ ∀ s', s.step op = .ok s' → BoundedRun s' ops

open TimeoutEvent

variable {s s' : Timeouts} {telt interval n : Nat} {log : List TimeoutEvent}

structure Numbered (s : Timeouts) : Prop where
  lt : ∀ n now interval, .set n now interval ∈ s.log → n < s.next
  reset_lt : ∀ n, .reset n ∈ s.log → n < s.next
  call_lt : ∀ n now, .call n now ∈ s.log → n < s.next
  unique : ∀ n now interval now' interval', .set n now interval ∈ s.log → .set n now' interval' ∈ s.log →
    now = now' ∧ interval = interval'

structure Inv (s : Timeouts) : Prop where
  ordered : s.timers.Ordered
  elapsed : s.timers.elapsedTicks = s.now
  lt : s.now < headTicks
  numbered : s.Numbered
  outstanding : ∀ n, Outstanding s.log n ↔ ∃ telt ∈ s.timers.chain, s.number telt = n
  injective : ∀ a ∈ s.timers.chain, ∀ b ∈ s.timers.chain, s.number a = s.number b → a = b
  ticks : ∀ telt ∈ s.timers.chain, ∃ now interval, .set (s.number telt) now interval ∈ s.log
    ∧ (s.timers.elt telt).ticks = now + interval
  inTime : InTime s.log

theorem boot_inv : boot.Inv where
  ordered := Timers.ordered_initTimeout
  elapsed := rfl
  lt := by decide
  numbered := ⟨nofun, nofun, nofun, nofun⟩
  outstanding := by
    intro n
    constructor
    . rintro ⟨⟨_, _, h⟩, _⟩
      cases h
    . rintro ⟨_, h, _⟩
      cases h
  injective := nofun
  ticks := nofun
  inTime := trivial

theorem outstanding_set {now : Nat} (hreset : .reset n ∉ log) (hcall : ∀ now, .call n now ∉ log) (m : Nat)
    : Outstanding (.set n now interval :: log) m ↔ m = n ∨ Outstanding log m := by
  constructor
  . rintro ⟨⟨start, i, hset⟩, hreset', hcall'⟩
    rcases mem_cons.1 hset with heq | hset
    . cases heq
      exact Or.inl rfl
    . exact Or.inr ⟨⟨start, i, hset⟩, fun h => hreset' (mem_cons_of_mem _ h), fun t h => hcall' t (mem_cons_of_mem _ h)⟩
  . rintro (rfl | ⟨⟨start, i, hset⟩, hreset', hcall'⟩)
    . exact ⟨⟨now, interval, mem_cons_self⟩, by simpa using hreset, by simpa using hcall⟩
    . exact ⟨⟨start, i, mem_cons_of_mem _ hset⟩, by simpa using hreset', by simpa using hcall'⟩

theorem outstanding_reset (n m : Nat) : Outstanding (.reset n :: log) m ↔ m ≠ n ∧ Outstanding log m := by
  simp only [Outstanding, mem_cons, reduceCtorEq, false_or, TimeoutEvent.reset.injEq, not_or]
  tauto

theorem outstanding_call (n now m : Nat) : Outstanding (.call n now :: log) m ↔ m ≠ n ∧ Outstanding log m := by
  constructor
  . rintro ⟨⟨start, i, hset⟩, hreset, hcall⟩
    refine ⟨?_, ⟨start, i, by simpa using hset⟩, by simpa using hreset, ?_⟩
    . rintro rfl
      exact hcall now mem_cons_self
    . exact fun t h => hcall t (mem_cons_of_mem _ h)
  . rintro ⟨hne, ⟨start, i, hset⟩, hreset, hcall⟩
    refine ⟨⟨start, i, mem_cons_of_mem _ hset⟩, by simpa using hreset, ?_⟩
    intro t h
    rcases mem_cons.1 h with heq | h
    . cases heq
      exact hne rfl
    . exact hcall t h

section

variable (h : s.Inv)
include h

theorem Inv.exists_due {now : Nat} (hout : Outstanding s.log n) (hdue : Due s.log n now)
    : ∃ telt ∈ s.timers.chain, (s.timers.elt telt).ticks ≤ now := by
  obtain ⟨telt, htelt, hnumber⟩ := (h.outstanding n).1 hout
  obtain ⟨start, interval, hset, hle⟩ := hdue
  obtain ⟨start', interval', hset', hticks⟩ := h.ticks telt htelt
  rw [hnumber] at hset'
  obtain ⟨rfl, rfl⟩ := h.numbered.unique n _ _ _ _ hset hset'
  exact ⟨telt, htelt, hticks ▸ hle⟩

theorem ticksAt_zero_le (htelt : telt ∈ s.timers.chain) : s.timers.ticksAt 0 ≤ (s.timers.elt telt).ticks :=
  h.ordered.le_of_mem_drop (by simpa using htelt)

theorem Inv.number_lt (htelt : telt ∈ s.timers.chain) : s.number telt < s.next := by
  obtain ⟨start, interval, hset, _⟩ := h.ticks telt htelt
  exact h.numbered.lt _ _ _ hset

theorem step_set (hallowed : s.Allowed (.set telt interval)) (hbounded : s.Bounded (.set telt interval))
    : ∃ s', s.step (.set telt interval) = .ok s' ∧ s'.Inv := by
  have hlt : interval + s.timers.elapsedTicks < headTicks := by
    rw [h.elapsed, Nat.add_comm]
    exact hbounded
  obtain ⟨i, htimers, hordered⟩ := Timers.setTimeout_spec h.ordered hallowed.1 hlt
  refine ⟨_, by rw [step, htimers], ?_⟩
  have hnot := h.ordered.not_mem_iff.2 hallowed.1
  have hne : ∀ a ∈ s.timers.chain, a ≠ telt := fun a ha => by
    rintro rfl
    exact hnot ha
  have hnumber : ∀ a ∈ s.timers.chain, update s.number telt s.next a = s.number a := fun a ha =>
    update_of_ne (hne a ha) _ _
  have hfresh : ∀ a ∈ s.timers.chain, s.number a ≠ s.next := fun a ha => Nat.ne_of_lt (h.number_lt ha)
  constructor
  . exact hordered
  . exact h.elapsed
  . exact h.lt
  . have hn := h.numbered
    have hnew : ∀ now' interval', .set s.next now' interval' ∉ s.log := fun _ _ hmem =>
      absurd (hn.lt _ _ _ hmem) (Nat.lt_irrefl _)
    constructor
    . intro n now' interval' hset
      rcases mem_cons.1 hset with heq | hset
      . cases heq
        exact Nat.lt_succ_self _
      . exact Nat.lt_succ_of_lt (hn.lt _ _ _ hset)
    . intro n hreset
      exact Nat.lt_succ_of_lt (hn.reset_lt n (by simpa using hreset))
    . intro n t hcall
      exact Nat.lt_succ_of_lt (hn.call_lt n t (by simpa using hcall))
    . intro n now₁ interval₁ now₂ interval₂ hset₁ hset₂
      rcases mem_cons.1 hset₁ with heq₁ | hset₁
      . cases heq₁
        rcases mem_cons.1 hset₂ with heq₂ | hset₂
        . cases heq₂
          exact ⟨rfl, rfl⟩
        . exact absurd hset₂ (hnew _ _)
      . rcases mem_cons.1 hset₂ with heq₂ | hset₂
        . cases heq₂
          exact absurd hset₁ (hnew _ _)
        . exact hn.unique n _ _ _ _ hset₁ hset₂
  . intro n
    rw [outstanding_set (fun hreset => absurd (h.numbered.reset_lt _ hreset) (Nat.lt_irrefl _))
      (fun t hcall => absurd (h.numbered.call_lt _ t hcall) (Nat.lt_irrefl _)), h.outstanding]
    constructor
    . rintro (rfl | ⟨a, ha, rfl⟩)
      . exact ⟨telt, Timers.mem_insque.2 (Or.inl rfl), update_self ..⟩
      . exact ⟨a, Timers.mem_insque.2 (Or.inr ha), hnumber a ha⟩
    . rintro ⟨a, ha, rfl⟩
      rcases Timers.mem_insque.1 ha with rfl | ha
      . exact Or.inl (update_self ..)
      . exact Or.inr ⟨a, ha, (hnumber a ha).symm⟩
  . intro a ha b hb heq
    dsimp only at heq
    rcases Timers.mem_insque.1 ha with rfl | ha'
    . rcases Timers.mem_insque.1 hb with rfl | hb
      . rfl
      . rw [update_self, hnumber b hb] at heq
        exact absurd heq.symm (hfresh b hb)
    . rcases Timers.mem_insque.1 hb with rfl | hb
      . rw [update_self, hnumber a ha'] at heq
        exact absurd heq (hfresh a ha')
      . rw [hnumber a ha', hnumber b hb] at heq
        exact h.injective a ha' b hb heq
  . intro a ha
    dsimp only
    rcases Timers.mem_insque.1 ha with rfl | ha
    . rw [update_self]
      refine ⟨s.now, interval, mem_cons_self, ?_⟩
      rw [Timers.elt_insque_self]
      rw [h.elapsed, Nat.add_comm]
    . rw [hnumber a ha]
      obtain ⟨start, i', hset, hticks⟩ := h.ticks a ha
      refine ⟨start, i', mem_cons_of_mem _ hset, ?_⟩
      rw [Timers.elt_insque_of_ne (hne a ha)]
      exact hticks
  . exact h.inTime

variable {e : TimeoutEvent}

theorem Inv.unset (htelt : telt ∈ s.timers.chain)
    (hout : ∀ m, Outstanding (e :: s.log) m ↔ m ≠ s.number telt ∧ Outstanding s.log m)
    (hnumbered : Numbered { s with log := e :: s.log }) (hinTime : InTime (e :: s.log))
    : Inv { s with timers := s.timers.unset telt, log := e :: s.log } := by
  constructor
  . exact h.ordered.unset telt
  . exact h.elapsed
  . exact h.lt
  . exact { hnumbered with }
  . intro n
    rw [hout, h.outstanding]
    constructor
    . rintro ⟨hne, a, ha, rfl⟩
      refine ⟨a, h.ordered.mem_unset.2 ⟨?_, ha⟩, rfl⟩
      rintro rfl
      exact hne rfl
    . rintro ⟨a, ha, rfl⟩
      obtain ⟨hne, ha⟩ := h.ordered.mem_unset.1 ha
      exact ⟨fun heq => hne (h.injective a ha telt htelt heq), a, ha, rfl⟩
  . intro a ha b hb heq
    exact h.injective a (h.ordered.mem_unset.1 ha).2 b (h.ordered.mem_unset.1 hb).2 heq
  . intro a ha
    obtain ⟨hne, ha⟩ := h.ordered.mem_unset.1 ha
    obtain ⟨start, i, hset, hticks⟩ := h.ticks a ha
    refine ⟨start, i, mem_cons_of_mem _ hset, ?_⟩
    rw [Timers.elt_unset_of_ne hne]
    exact hticks
  . exact hinTime

theorem Inv.of_event (hset : ∀ n now interval, e ≠ .set n now interval)
    (hreset : ∀ n, e = .reset n → n < s.next) (hcall : ∀ n now, e = .call n now → n < s.next)
    : Numbered { s with log := e :: s.log } := by
  have hn := h.numbered
  have hold : ∀ n now interval, .set n now interval ∈ e :: s.log → .set n now interval ∈ s.log := by
    intro n now interval hmem
    rcases mem_cons.1 hmem with heq | hmem
    . exact absurd heq.symm (hset n now interval)
    . exact hmem
  constructor
  . exact fun n now interval hmem => hn.lt _ _ _ (hold _ _ _ hmem)
  . intro n hmem
    rcases mem_cons.1 hmem with heq | hmem
    . exact hreset n heq.symm
    . exact hn.reset_lt n hmem
  . intro n now hmem
    rcases mem_cons.1 hmem with heq | hmem
    . exact hcall n now heq.symm
    . exact hn.call_lt n now hmem
  . exact fun n _ _ _ _ hmem hmem' => hn.unique n _ _ _ _ (hold _ _ _ hmem) (hold _ _ _ hmem')

theorem step_reset : ∃ s', s.step (.reset telt) = .ok s' ∧ s'.Inv := by
  rw [step, Timers.resetTimeout]
  by_cases hset : (s.timers.elt telt).set
  . rw [if_pos hset]
    refine ⟨_, rfl, ?_⟩
    have htelt := (h.ordered.set telt).2 hset
    apply h.unset htelt (outstanding_reset _)
    . apply h.of_event
      . exact nofun
      . intro n heq
        cases heq
        exact h.number_lt htelt
      . exact nofun
    . exact h.inTime
  . rw [if_neg hset]
    exact ⟨s, rfl, h⟩

theorem Inv.logged {timers : Timers} {now : Nat} {pending running : Bool}
    (hchain : timers.chain = s.timers.chain) (helt : timers.elt = s.timers.elt) (helapsed : timers.elapsedTicks = now)
    (hlt : now < headTicks) (hset : ∀ n now interval, e ≠ .set n now interval) (hreset : ∀ n, e ≠ .reset n)
    (hcall : ∀ n now, e ≠ .call n now) (hinTime : InTime (e :: s.log))
    : Inv { s with timers := timers, pending := pending, running := running, now := now, log := e :: s.log } := by
  have hn := h.of_event hset (fun n heq => absurd heq (hreset n)) (fun n now heq => absurd heq (hcall n now))
  have hout : ∀ m, Outstanding (e :: s.log) m ↔ Outstanding s.log m := by
    intro m
    simp only [Outstanding, mem_cons]
    simp only [(hset _ _ _).symm, (hreset _).symm, (hcall _ _).symm, false_or]
  constructor
  . have ho := h.ordered
    refine ⟨?_, ?_, ?_, ?_⟩
    . rw [hchain, helt]
      exact ho.sorted
    . rw [hchain]
      exact ho.nodup
    . rw [hchain, helt]
      exact ho.set
    . rw [hchain, helt]
      exact ho.lt
  . exact helapsed
  . exact hlt
  . exact { hn with }
  . intro n
    rw [hout, h.outstanding, hchain]
  . rw [hchain]
    exact h.injective
  . rw [hchain, helt]
    intro a ha
    obtain ⟨start, i, hset', hticks⟩ := h.ticks a ha
    exact ⟨start, i, mem_cons_of_mem _ hset', hticks⟩
  . exact hinTime

theorem step_tick (hbounded : s.Bounded .tick) : ∃ s', s.step .tick = .ok s' ∧ s'.Inv := by
  refine ⟨_, rfl, ?_⟩
  have helapsed : (s.timers.elapsedTicks + 1) % tickSize = s.now + 1 := by
    rw [Timers.elapsed_tick (h.elapsed ▸ hbounded), h.elapsed]
  apply h.logged
  . rfl
  . rfl
  . exact helapsed
  . exact hbounded
  . exact nofun
  . exact nofun
  . exact nofun
  . refine ⟨?_, h.inTime⟩
    rintro ⟨n, hout, hdue⟩
    obtain ⟨telt, htelt, hle⟩ := h.exists_due hout hdue
    apply decide_eq_true
    rw [helapsed]
    exact Nat.le_trans (ticksAt_zero_le h htelt) hle

theorem step_soft : ∃ s', s.step .soft = .ok s' ∧ s'.Inv := by
  rw [step]
  by_cases hrunning : s.running
  . rw [if_pos hrunning]
    obtain ⟨hfirst, heq⟩ | ⟨telt, rest, hchain, hle, heq⟩ := Timers.softclock_spec (h.elapsed ▸ h.lt)
    . rw [heq]
      refine ⟨_, rfl, ?_⟩
      apply h.logged
      . rfl
      . rfl
      . exact h.elapsed
      . exact h.lt
      . exact nofun
      . exact nofun
      . exact nofun
      . refine ⟨?_, h.inTime⟩
        intro n hdue hout
        obtain ⟨telt, htelt, hle⟩ := h.exists_due hout hdue
        have := ticksAt_zero_le h htelt
        rw [h.elapsed] at hfirst
        omega
    . rw [heq]
      refine ⟨_, rfl, ?_⟩
      have htelt : telt ∈ s.timers.chain := by simp [hchain]
      obtain ⟨start, i, hset, hticks⟩ := h.ticks telt htelt
      apply h.unset htelt (outstanding_call _ _)
      . apply h.of_event
        . exact nofun
        . exact nofun
        . intro n now heq
          cases heq
          exact h.number_lt htelt
      . refine ⟨⟨(h.outstanding _).2 ⟨telt, htelt, rfl⟩, start, i, hset, ?_⟩, h.inTime⟩
        rw [← hticks, ← h.elapsed]
        exact hle
  . rw [if_neg hrunning]
    exact ⟨_, rfl, h.ordered, h.elapsed, h.lt, ⟨h.numbered.lt, h.numbered.reset_lt, h.numbered.call_lt,
      h.numbered.unique⟩, h.outstanding, h.injective, h.ticks, h.inTime⟩

theorem step_inv {op : TimeoutOp} (hallowed : s.Allowed op) (hbounded : s.Bounded op)
    : ∃ s', s.step op = .ok s' ∧ s'.Inv := by
  cases op with
  | set telt interval => exact step_set h hallowed hbounded
  | reset telt => exact step_reset h
  | tick => exact step_tick h hbounded
  | soft => exact step_soft h

theorem run_inv (hbounded : s.BoundedRun ops) : ∃ s', s.run ops = .ok s' ∧ s'.Inv := by
  induction ops generalizing s with
  | nil => exact ⟨s, rfl, h⟩
  | cons op ops ih =>
    obtain ⟨hallowed, hbound, hrest⟩ := hbounded
    obtain ⟨t, hstep, ht⟩ := step_inv h hallowed hbound
    obtain ⟨s', hrun, hs'⟩ := ih ht (hrest t hstep)
    refine ⟨s', ?_, hs'⟩
    rw [run, hstep]
    exact hrun

end

def SortedByExpiry (s : Timeouts) : Prop :=
  s.timers.chain.Pairwise fun a b => ∀ now, Due s.log (s.number b) now → Due s.log (s.number a) now

theorem Inv.sortedByExpiry (h : s.Inv) : s.SortedByExpiry := by
  refine h.ordered.sorted.imp_of_mem ?_
  intro a b ha hb hle now hdue
  obtain ⟨start, i, hset, hdue⟩ := hdue
  obtain ⟨start', i', hset', hticks'⟩ := h.ticks b hb
  obtain ⟨rfl, rfl⟩ := h.numbered.unique _ _ _ _ _ hset hset'
  obtain ⟨start'', i'', hset'', hticks''⟩ := h.ticks a ha
  exact ⟨start'', i'', hset'', by omega⟩

theorem Inv.soft_ends (h : s.Inv) : ∃ n s', s.run (replicate n .soft) = .ok s' ∧ s'.running = false := by
  -- each round but the last one takes an element off the chain
  induction hlength : s.timers.chain.length using Nat.strongRecOn generalizing s with
  | ind k ih =>
    by_cases hrunning : s.running
    . obtain ⟨t, hstep, ht⟩ := step_soft h
      have hstep' := hstep
      rw [step, if_pos hrunning] at hstep'
      obtain ⟨-, heq⟩ | ⟨telt, rest, hchain, -, heq⟩ := Timers.softclock_spec (h.elapsed ▸ h.lt)
      . rw [heq] at hstep'
        cases hstep'
        refine ⟨1, { s with running := false, log := .softEnd s.now :: s.log }, ?_, rfl⟩
        rw [List.replicate_one, run, hstep]
        rfl
      . rw [heq] at hstep'
        cases hstep'
        have hlt : (s.timers.unset telt).chain.length < k := by
          rw [← hlength, Timers.unset, hchain, List.erase_cons_head]
          exact Nat.lt_succ_self _
        obtain ⟨n, s', hrun, hs'⟩ := ih _ hlt ht rfl
        refine ⟨n + 1, s', ?_, hs'⟩
        rw [List.replicate_succ, run, hstep]
        exact hrun
    . exact ⟨0, s, rfl, by simpa using hrunning⟩

theorem run_inTime (ops : List TimeoutOp) (hbounded : boot.BoundedRun ops)
    : ∃ s, boot.run ops = .ok s ∧ s.SortedByExpiry ∧ InTime s.log
        ∧ ∃ n s', s.run (replicate n .soft) = .ok s' ∧ s'.running = false := by
  obtain ⟨s, hrun, hs⟩ := run_inv boot_inv hbounded
  exact ⟨s, hrun, hs.sortedByExpiry, hs.inTime, hs.soft_ends⟩

instance (s : Timeouts) (op : TimeoutOp) : Decidable (s.Allowed op) := by
  unfold Allowed
  split <;> infer_instance

instance (s : Timeouts) (op : TimeoutOp) : Decidable (s.Bounded op) := by
  unfold Bounded
  split <;> infer_instance

instance decidableBoundedRun : (s : Timeouts) → (ops : List TimeoutOp) → Decidable (s.BoundedRun ops)
  | _, [] => isTrue trivial
  | s, op :: ops =>
    match hstep : s.step op with
    | .ok t =>
      have := decidableBoundedRun t ops
      decidable_of_iff (s.Allowed op ∧ s.Bounded op ∧ t.BoundedRun ops) (by simp [BoundedRun, hstep])
    | .error _ => decidable_of_iff (s.Allowed op ∧ s.Bounded op) (by simp [BoundedRun, hstep])

def twoTimeouts : List TimeoutOp := [.set 0 2, .set 1 1, .tick, .soft, .soft, .soft, .tick, .soft, .soft, .soft]

theorem run_inTime_twoTimeouts : ∃ s, boot.run twoTimeouts = .ok s ∧ s.SortedByExpiry ∧ InTime s.log
        ∧ ∃ n s', s.run (replicate n .soft) = .ok s' ∧ s'.running = false :=
  run_inTime twoTimeouts (by decide)

theorem run_longest : (∀ fuel, boot.timers.setTimeout fuel 0 (2 ^ 32 - 1) = none)
      ∧ ∃ s, boot.run [.tick, .tick, .set 0 (2 ^ 32 - 2), .tick, .soft, .soft] = .ok s
        ∧ s.log = [.call 0 3, .tick 3 true, .set 0 2 (2 ^ 32 - 2), .tick 2 false, .tick 1 false]
        ∧ ¬ InTime s.log := by
  constructor
  . intro fuel
    have hnone : boot.timers.findNext (2 ^ 32 - 1) fuel 0 = none := Timers.findNext_eq_none (fun i => Nat.le_refl _) _ _
    rw [Timers.setTimeout, show (2 ^ 32 - 1 + boot.timers.elapsedTicks) % tickSize = 2 ^ 32 - 1 from rfl]
    dsimp only [bind, Option.bind]
    rw [hnone]
  . obtain ⟨s, heq, hlog⟩ : ∃ s, boot.run [.tick, .tick, .set 0 (2 ^ 32 - 2), .tick, .soft, .soft] = .ok s
        ∧ s.log = [.call 0 3, .tick 3 true, .set 0 2 (2 ^ 32 - 2), .tick 2 false, .tick 1 false] := by
      decide
    refine ⟨s, heq, hlog, ?_⟩
    rw [hlog]
    rintro ⟨⟨_, start, i, hmem, hle⟩, _⟩
    simp only [mem_cons, reduceCtorEq, false_or, TimeoutEvent.set.injEq, List.not_mem_nil, or_false] at hmem
    omega

end Timeouts

end Kern
