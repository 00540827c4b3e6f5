import UtahMach.Data.Prog

/-!
This module contains the list of timeouts, which is ordered by the tick at which they expire.
-/

namespace Kern

structure TimerElt where
  ticks : Nat
  set : Bool
deriving DecidableEq, Repr

def tickSize : Nat := 2 ^ 32

def headTicks : Nat := tickSize - 1

structure Timers where
  elapsedTicks : Nat
  chain : List Nat
  elt : Nat → TimerElt

namespace Timers

def initTimeout : Timers := ⟨0, [], fun _ => ⟨0, false⟩⟩

def ticksAt (s : Timers) (i : Nat) : Nat :=
  match s.chain[i]? with
  | some telt => (s.elt telt).ticks
  | none => headTicks

def findNext (s : Timers) (interval : Nat) : Nat → Nat → Option Nat
  | 0, _ => none
  | fuel + 1, i =>
    if interval < s.ticksAt i then
      some i
    else
      findNext s interval fuel (if i = s.chain.length then 0 else i + 1)

def insque (s : Timers) (i telt ticks : Nat) : Timers :=
  { s with
    chain := s.chain.take i ++ telt :: s.chain.drop i
    elt := Function.update s.elt telt ⟨ticks, true⟩ }

def setTimeout (fuel : Nat) (s : Timers) (telt interval : Nat) : Option Timers := do
  let interval := (interval + s.elapsedTicks) % tickSize
  let i ← s.findNext interval fuel 0
  some (s.insque i telt interval)

def unset (s : Timers) (telt : Nat) : Timers :=
  { s with
    chain := s.chain.erase telt
    elt := Function.update s.elt telt { s.elt telt with set := false } }

def resetTimeout (s : Timers) (telt : Nat) : Bool × Timers :=
  if (s.elt telt).set then (true, s.unset telt) else (false, s)

def tick (s : Timers) : Bool × Timers :=
  let s := { s with elapsedTicks := (s.elapsedTicks + 1) % tickSize }
  (decide (s.ticksAt 0 ≤ s.elapsedTicks), s)

def softclock (s : Timers) : Except Stop (Option Nat × Timers) :=
  if s.elapsedTicks < s.ticksAt 0 then
    .ok (none, s)
  else
    match s.chain with
    | [] => .error .panic
    | telt :: _ => .ok (some telt, s.unset telt)

variable {s : Timers} {telt interval i fuel : Nat}

structure Ordered (s : Timers) : Prop where
  sorted : s.chain.Pairwise fun a b => (s.elt a).ticks ≤ (s.elt b).ticks
  nodup : s.chain.Nodup
  set : ∀ telt, telt ∈ s.chain ↔ (s.elt telt).set
  lt : ∀ telt ∈ s.chain, (s.elt telt).ticks < headTicks

theorem ordered_initTimeout : initTimeout.Ordered := ⟨.nil, .nil, by simp [initTimeout], by simp [initTimeout]⟩

theorem findNext_spec (hlt : interval < headTicks) (hfuel : s.chain.length < fuel + i) (hi : i ≤ s.chain.length)
    (hbefore : ∀ telt ∈ s.chain.take i, (s.elt telt).ticks ≤ interval)
    : ∃ j, s.findNext interval fuel i = some j ∧ j ≤ s.chain.length ∧ interval < s.ticksAt j
        ∧ ∀ telt ∈ s.chain.take j, (s.elt telt).ticks ≤ interval := by
  induction fuel generalizing i with
  | zero => omega
  | succ fuel ih =>
    rw [findNext]
    by_cases hticks : interval < s.ticksAt i
    . rw [if_pos hticks]
      exact ⟨i, rfl, hi, hticks, hbefore⟩
    . rw [if_neg hticks]
      have hne : i ≠ s.chain.length := by
        rintro rfl
        rw [ticksAt, List.getElem?_eq_none (Nat.le_refl _)] at hticks
        exact hticks hlt
      rw [if_neg hne]
      apply ih
      . omega
      . omega
      . intro telt htelt
        rw [List.take_add_one] at htelt
        rcases List.mem_append.1 htelt with htelt | htelt
        . exact hbefore telt htelt
        . have hget : s.chain[i]? = some telt := by simpa using htelt
          rw [ticksAt, hget] at hticks
          exact Nat.le_of_not_lt hticks

theorem findNext_eq_none (hle : ∀ i, s.ticksAt i ≤ interval) (fuel i : Nat) : s.findNext interval fuel i = none := by
  induction fuel generalizing i with
  | zero => rfl
  | succ fuel ih =>
    rw [findNext, if_neg (Nat.not_lt.2 (hle i))]
    apply ih

theorem Ordered.le_of_mem_drop (h : s.Ordered) (ha : a ∈ s.chain.drop i) : s.ticksAt i ≤ (s.elt a).ticks := by
  cases hdrop : s.chain.drop i with
  | nil =>
    rw [hdrop] at ha
    cases ha
  | cons b rest =>
    have hget : s.chain[i]? = some b := by rw [← List.head?_drop, hdrop]; rfl
    have hsorted := h.sorted.sublist (List.drop_sublist i s.chain)
    rw [hdrop] at hsorted ha
    rw [ticksAt, hget]
    rcases List.mem_cons.1 ha with rfl | ha
    . exact Nat.le_refl _
    . exact (List.pairwise_cons.1 hsorted).1 a ha

theorem insque_perm (s : Timers) (i telt ticks : Nat) : (s.insque i telt ticks).chain.Perm (telt :: s.chain) := by
  have h : (s.insque i telt ticks).chain.Perm (telt :: (s.chain.take i ++ s.chain.drop i)) := List.perm_middle
  rwa [List.take_append_drop] at h

theorem mem_insque {ticks : Nat} : a ∈ (s.insque i telt ticks).chain ↔ a = telt ∨ a ∈ s.chain :=
  (insque_perm s i telt ticks).mem_iff.trans List.mem_cons

theorem Ordered.mem_unset (h : s.Ordered) : a ∈ (s.unset telt).chain ↔ a ≠ telt ∧ a ∈ s.chain := h.nodup.mem_erase_iff

theorem Ordered.not_mem_iff (h : s.Ordered) : telt ∉ s.chain ↔ (s.elt telt).set = false := by
  rw [h.set, Bool.not_eq_true]

theorem elapsed_tick (h : s.elapsedTicks + 1 < headTicks) : (s.elapsedTicks + 1) % tickSize = s.elapsedTicks + 1 := by
  apply Nat.mod_eq_of_lt
  unfold headTicks at h
  omega

/-- The head expires after all ticks, so that it is not taken for an element. -/
theorem softclock_spec (h : s.elapsedTicks < headTicks)
    : s.elapsedTicks < s.ticksAt 0 ∧ s.softclock = .ok (none, s) ∨ ∃ telt rest, s.chain = telt :: rest
        ∧ (s.elt telt).ticks ≤ s.elapsedTicks ∧ s.softclock = .ok (some telt, s.unset telt) := by
  rw [softclock]
  by_cases hfirst : s.elapsedTicks < s.ticksAt 0
  . rw [if_pos hfirst]
    exact Or.inl ⟨hfirst, rfl⟩
  . rw [if_neg hfirst]
    rw [ticksAt] at hfirst
    cases hchain : s.chain with
    | nil =>
      rw [hchain] at hfirst
      exact absurd h hfirst
    | cons telt rest =>
      rw [hchain] at hfirst
      exact Or.inr ⟨telt, rest, rfl, Nat.le_of_not_lt hfirst, rfl⟩

theorem elt_insque_self (s : Timers) (i telt ticks : Nat) : (s.insque i telt ticks).elt telt = ⟨ticks, true⟩ :=
  Function.update_self ..

theorem elt_insque_of_ne (ha : a ≠ telt) (s : Timers) (i ticks : Nat) : (s.insque i telt ticks).elt a = s.elt a :=
  Function.update_of_ne ha _ _

theorem elt_unset_of_ne (ha : a ≠ telt) (s : Timers) : (s.unset telt).elt a = s.elt a :=
  Function.update_of_ne ha _ _

theorem Ordered.insque (h : s.Ordered) (hunset : (s.elt telt).set = false) (hlt : interval < headTicks)
    (hbefore : ∀ a ∈ s.chain.take i, (s.elt a).ticks ≤ interval) (hafter : interval ≤ s.ticksAt i)
    : (s.insque i telt interval).Ordered := by
  have hnot := h.not_mem_iff.2 hunset
  have hself : (s.insque i telt interval).elt telt = ⟨interval, true⟩ := elt_insque_self ..
  have hold : ∀ a, a ≠ telt → (s.insque i telt interval).elt a = s.elt a := fun a ha => elt_insque_of_ne ha ..
  have hne : ∀ a ∈ s.chain, a ≠ telt := fun a ha => by
    rintro rfl
    exact hnot ha
  constructor
  . have hsorted : s.chain.Pairwise fun a b =>
        ((s.insque i telt interval).elt a).ticks ≤ ((s.insque i telt interval).elt b).ticks := by
      refine h.sorted.imp_of_mem ?_
      intro a b ha hb hab
      rwa [hold a (hne a ha), hold b (hne b hb)]
    rw [← List.take_append_drop i s.chain, List.pairwise_append] at hsorted
    refine List.pairwise_append.2 ⟨hsorted.1, List.pairwise_cons.2 ⟨?_, hsorted.2.1⟩, ?_⟩
    . intro b hb
      rw [hself, hold b (hne b (List.mem_of_mem_drop hb))]
      exact Nat.le_trans hafter (h.le_of_mem_drop hb)
    . refine fun a ha => List.forall_mem_cons.2 ⟨?_, hsorted.2.2 a ha⟩
      rw [hself, hold a (hne a (List.mem_of_mem_take ha))]
      exact hbefore a ha
  . exact (insque_perm ..).nodup_iff.2 (List.nodup_cons.2 ⟨hnot, h.nodup⟩)
  . intro a
    rw [mem_insque]
    by_cases ha : a = telt
    . rw [ha, hself]
      simp
    . rw [hold a ha, ← h.set]
      simp [ha]
  . intro a ha
    rcases mem_insque.1 ha with rfl | ha
    . rw [hself]
      exact hlt
    . rw [hold a (hne a ha)]
      exact h.lt a ha

theorem setTimeout_spec (h : s.Ordered) (hunset : (s.elt telt).set = false)
    (hlt : interval + s.elapsedTicks < headTicks)
    : ∃ i, s.setTimeout (s.chain.length + 1) telt interval = some (s.insque i telt (interval + s.elapsedTicks))
        ∧ (s.insque i telt (interval + s.elapsedTicks)).Ordered := by
  have hmod : (interval + s.elapsedTicks) % tickSize = interval + s.elapsedTicks := by
    apply Nat.mod_eq_of_lt
    unfold headTicks at hlt
    omega
  obtain ⟨i, hfind, _, hticks, hbefore⟩ := findNext_spec (s := s) (i := 0) hlt (Nat.lt_succ_self _)
    (Nat.zero_le _) (by simp)
  refine ⟨i, ?_, h.insque hunset hlt hbefore (Nat.le_of_lt hticks)⟩
  rw [setTimeout, hmod]
  dsimp only [bind, Option.bind]
  rw [hfind]

theorem Ordered.unset (h : s.Ordered) (telt : Nat) : (s.unset telt).Ordered := by
  have hold : ∀ a, a ≠ telt → (s.unset telt).elt a = s.elt a := fun a ha => elt_unset_of_ne ha s
  constructor
  . refine (h.sorted.sublist (List.erase_sublist)).imp_of_mem ?_
    intro a b ha hb hab
    rwa [hold a (h.mem_unset.1 ha).1, hold b (h.mem_unset.1 hb).1]
  . exact h.nodup.erase telt
  . intro a
    rw [h.mem_unset]
    by_cases ha : a = telt
    . rw [ha]
      simp [Timers.unset]
    . rw [hold a ha, ← h.set]
      simp [ha]
  . intro a ha
    rw [hold a (h.mem_unset.1 ha).1]
    exact h.lt a (h.mem_unset.1 ha).2

end Timers

end Kern
