import UtahMach.Vm.Resident.Basic
import UtahMach.Data.Runs

/-!
This module contains the proof that the scan of the bit array finds the first run of bits that is long
enough.
-/

open Runs

namespace Vm

structure Counted (f : Nat → Bool) (n p sofar first : Nat) : Prop where
  ending : endingAt f p = sofar
  start : first + sofar = p
  short : ∀ q ≤ p, endingAt f q < n

structure Skipped (f : Nat → Bool) (n p : Nat) : Prop where
  stopped : endingAt f p = 0 ∨ f p = false
  short : ∀ q ≤ p, endingAt f q < n

structure IsFirstRun (f : Nat → Bool) (n first : Nat) : Prop where
  isRun : IsRun f first n
  least : ∀ s, IsRun f s n → first ≤ s

def IsWord (f : Nat → Bool) (base w : Nat) : Prop := ∀ b, w.testBit b = (decide (b < nbpel) && f (base + b))

theorem IsWord.shiftRight_mod_two (h : IsWord f base w) (hbitpos : bitpos < nbpel)
    : (w >>> bitpos % 2 = 1) ↔ f (base + bitpos) := by
  have htest := h bitpos
  rw [Nat.testBit_eq_decide_div_mod_eq, ← Nat.shiftRight_eq_div_pow, decide_eq_true hbitpos, Bool.true_and] at htest
  rw [← htest, decide_eq_true_iff]

theorem IsWord.shiftRight_nbpel (h : IsWord f base w) : w >>> nbpel = 0 := by
  apply Nat.eq_of_testBit_eq
  intro i
  rw [Nat.testBit_shiftRight, h]
  simp

namespace Counted

theorem next (h : Counted f n p sofar first) (hf : f p) (hne : sofar + 1 ≠ n)
    : Counted f n (p + 1) (sofar + 1) first := by
  have hsofar : endingAt f (p + 1) = sofar + 1 := by rw [endingAt_succ_of_true hf, h.ending]
  refine ⟨hsofar, by rw [← Nat.add_assoc, h.start], ?_⟩
  intro q hq
  obtain hlt | rfl := Nat.lt_succ_iff_lt_or_eq.1 (Nat.lt_succ_of_le hq)
  . exact h.short q (by omega)
  . have := h.short p (Nat.le_refl p)
    have := h.ending
    omega

theorem isFirstRun (h : Counted f n p sofar first) (hf : f p) (heq : sofar + 1 = n) : IsFirstRun f n first := by
  have hsofar : endingAt f (p + 1) = n := by rw [endingAt_succ_of_true hf, h.ending, heq]
  have hfirst := h.start
  refine ⟨?_, ?_⟩
  . have hrun := isRun_endingAt f (p + 1)
    rw [hsofar] at hrun
    have hstart : p + 1 - n = first := by omega
    rwa [hstart] at hrun
  . intro s hs
    by_contra hlt
    exact not_isRun h.short (by omega) hs

theorem skipped (h : Counted f n p sofar first) (hf : f p = false) : Skipped f n p := ⟨.inr hf, h.short⟩

end Counted

namespace Skipped

theorem next (h : Skipped f n p) (hf : f p = false) : Skipped f n (p + 1) := by
  have hzero := endingAt_succ_of_false hf
  refine ⟨.inl hzero, ?_⟩
  intro q hq
  obtain hlt | rfl := Nat.lt_succ_iff_lt_or_eq.1 (Nat.lt_succ_of_le hq)
  . exact h.short q (by omega)
  . have := h.short p (Nat.le_refl p)
    omega

theorem counted (h : Skipped f n p) (hf : f p) : Counted f n p 0 p := by
  obtain hzero | hfalse := h.stopped
  . exact ⟨hzero, Nat.add_zero p, h.short⟩
  . rw [hfalse] at hf
    contradiction

end Skipped

inductive OnesSpec (f : Nat → Bool) (n base w start first : Nat) : Option (Nat × Nat × Nat) → Prop where
  | enough (h : IsFirstRun f n first) : OnesSpec f n base w start first none
  | zero {bitpos sofar : Nat} (hle : start ≤ bitpos) (hbitpos : bitpos < nbpel)
      (hf : f (base + bitpos) = false) (h : Counted f n (base + bitpos) sofar first)
      : OnesSpec f n base w start first (some (w >>> bitpos, bitpos, sofar))
  | word {sofar : Nat} (h : Counted f n (base + nbpel) sofar first)
      : OnesSpec f n base w start first (some (w >>> nbpel, nbpel, sofar))

theorem countOnes_spec (hw : IsWord f base w) (start : Nat) (hle : start ≤ bitpos) (hbitpos : bitpos ≤ nbpel)
    (hfuel : nbpel < fuel + bitpos) (h : Counted f n (base + bitpos) sofar first)
    : OnesSpec f n base w start first (countOnes n fuel (w >>> bitpos) bitpos sofar) := by
  induction fuel generalizing bitpos sofar with
  | zero => omega
  | succ fuel ih =>
    rw [countOnes]
    obtain hlt | rfl := Nat.lt_or_eq_of_le hbitpos
    . cases hf : f (base + bitpos) with
      | false =>
        rw [if_neg (by rw [hw.shiftRight_mod_two hlt, hf]; decide)]
        exact .zero hle hlt hf h
      | true =>
        rw [if_pos ((hw.shiftRight_mod_two hlt).2 hf)]
        split
        . next heq => exact .enough (h.isFirstRun hf heq)
        . next hne =>
          rw [← Nat.shiftRight_succ]
          exact ih (by omega) (by omega) (by omega) (h.next hf hne)
    . rw [hw.shiftRight_nbpel, if_neg (by decide), ← hw.shiftRight_nbpel]
      exact .word h

inductive ZeroesSpec (f : Nat → Bool) (n base w start : Nat) : Nat × Nat → Prop where
  | one {bitpos : Nat} (hle : start ≤ bitpos) (hbitpos : bitpos < nbpel) (hf : f (base + bitpos))
      (h : Skipped f n (base + bitpos)) : ZeroesSpec f n base w start (w >>> bitpos, bitpos)
  | word (hzero : endingAt f (base + nbpel) = 0) (h : Skipped f n (base + nbpel))
      : ZeroesSpec f n base w start (w >>> nbpel, nbpel)

theorem countZeroes_spec (hw : IsWord f base w) (start : Nat) (hle : start ≤ bitpos)
    (hbitpos : bitpos ≤ nbpel) (hfuel : nbpel < fuel + bitpos) (h : Skipped f n (base + bitpos))
    (hzero : bitpos = nbpel → endingAt f (base + bitpos) = 0)
    : ZeroesSpec f n base w start (countZeroes fuel (w >>> bitpos) bitpos) := by
  induction fuel generalizing bitpos with
  | zero => omega
  | succ fuel ih =>
    rw [countZeroes]
    obtain hlt | rfl := Nat.lt_or_eq_of_le hbitpos
    . have hmod := hw.shiftRight_mod_two hlt
      cases hf : f (base + bitpos) with
      | false =>
        have hv : w >>> bitpos % 2 = 0 := by
          have hne : ¬ w >>> bitpos % 2 = 1 := by rw [hmod, hf]; decide
          omega
        rw [if_pos ⟨hlt, hv⟩, ← Nat.shiftRight_succ]
        exact ih (by omega) (by omega) (by omega) (h.next hf) fun _ => endingAt_succ_of_false hf
      | true =>
        have hv := hmod.2 hf
        rw [if_neg (by omega)]
        exact .one hle hlt hf h
    . rw [if_neg (by simp)]
      exact .word (hzero rfl) h

inductive ScanSpec (f : Nat → Bool) (n p : Nat) : Scanned → Prop where
  | found {first : Nat} (h : IsFirstRun f n first) : ScanSpec f n p (.found first)
  | counted {sofar first : Nat} (h : Counted f n p sofar first) : ScanSpec f n p (.more sofar first)
  | skipped {first : Nat} (hzero : endingAt f p = 0) (hshort : ∀ q ≤ p, endingAt f q < n)
      : ScanSpec f n p (.more 0 first)

def ScanStart (f : Nat → Bool) (n p sofar first : Nat) : Bool → Prop
  | true => Counted f n p sofar first
  | false => Skipped f n p

-- the two loops take turns, and each of them goes on by a bit at least except for the first
theorem scanWord_spec (hw : IsWord f base w) (ones : Bool) (hbitpos : bitpos < nbpel)
    (hfuel : nbpel < fuel + bitpos) (hslack : f (base + bitpos) ≠ ones → nbpel + 1 < fuel + bitpos)
    (h : ScanStart f n (base + bitpos) sofar first ones)
    : ScanSpec f n (base + nbpel) (scanWord n base fuel ones (w >>> bitpos) bitpos sofar first) := by
  induction fuel generalizing ones bitpos sofar first with
  | zero => omega
  | succ fuel ih =>
    have hstart : nbpel < nbpel + 1 + bitpos := by omega
    cases ones with
    | true =>
      rw [scanWord]
      have hones := countOnes_spec hw bitpos (Nat.le_refl _) hbitpos.le hstart h
      generalize countOnes n (nbpel + 1) (w >>> bitpos) bitpos sofar = counted at hones ⊢
      cases hones with
      | enough hfirst => exact .found hfirst
      | @zero bitpos' _ hle hlt hf hcounted =>
        dsimp only
        rw [if_neg (Nat.ne_of_lt hlt)]
        apply ih false hlt
        . by_cases heq : bitpos = bitpos'
          . subst heq
            have := hslack (by rw [hf]; decide)
            omega
          . omega
        . exact fun hne => absurd hf hne
        . exact hcounted.skipped hf
      | word hcounted =>
        exact .counted hcounted
    | false =>
      rw [scanWord]
      have hzeroes := countZeroes_spec hw bitpos (Nat.le_refl _) hbitpos.le hstart h
        (fun heq => absurd heq (Nat.ne_of_lt hbitpos))
      generalize countZeroes (nbpel + 1) (w >>> bitpos) bitpos = skipped at hzeroes ⊢
      cases hzeroes with
      | @one bitpos' hle hlt hf hskipped =>
        dsimp only
        rw [if_pos ((hw.shiftRight_mod_two hlt).2 hf)]
        apply ih true hlt
        . by_cases heq : bitpos = bitpos'
          . subst heq
            have := hslack (by rw [hf]; decide)
            omega
          . omega
        . exact fun hne => absurd hf hne
        . exact hskipped.counted hf
      | word hzero hskipped =>
        dsimp only
        rw [hw.shiftRight_nbpel, if_neg (by decide)]
        exact .skipped hzero hskipped.short

theorem IsWord.eq_false (h : IsWord f base 0) (hbitpos : bitpos < nbpel) : f (base + bitpos) = false := by
  have hbit := h bitpos
  rw [Nat.zero_testBit, decide_eq_true hbitpos, Bool.true_and] at hbit
  exact hbit.symm

structure Between (f : Nat → Bool) (n p sofar first : Nat) : Prop where
  ending : endingAt f p = sofar
  start : sofar ≠ 0 → first + sofar = p
  short : ∀ q ≤ p, endingAt f q < n

theorem Between.scanStart (h : Between f n p sofar first) : ScanStart f n p sofar first (decide (sofar ≠ 0)) := by
  by_cases hzero : sofar = 0
  . rw [decide_eq_false (not_not_intro hzero)]
    exact ⟨.inl (h.ending.trans hzero), h.short⟩
  . rw [decide_eq_true hzero]
    exact ⟨h.ending, h.start hzero, h.short⟩

-- a word without any bits stops the run in front of it
theorem Between.scanSpec_zero (h : Between f n p sofar first) (hw : IsWord f p 0)
    : ScanSpec f n (p + nbpel) (.more 0 first) := by
  have hskipped : ∀ k, k < nbpel → Skipped f n (p + (k + 1)) := by
    intro k
    induction k with
    | zero =>
      intro hk
      have hf := hw.eq_false hk
      exact Skipped.next ⟨.inr hf, h.short⟩ hf
    | succ k ih => exact fun hk => (ih (by omega)).next (hw.eq_false hk)
  have hlast : f (p + 31) = false := hw.eq_false (by decide)
  exact .skipped (endingAt_succ_of_false hlast) (hskipped 31 (by decide)).short

variable {bits : Nat → Nat}

theorem scanBits_spec (hbits : ∀ word, IsWord f (word * nbpel) (bits word))
    (count word : Nat) (h : Between f n (word * nbpel) sofar first) : match scanBits n bits count word sofar first with
      | some first => IsFirstRun f n first
      | none => ∀ q ≤ (word + count) * nbpel, endingAt f q < n := by
  induction count generalizing word sofar first with
  | zero => exact h.short
  | succ count ih =>
    rw [scanBits]
    have hscan : ScanSpec f n (word * nbpel + nbpel)
        (if bits word ≠ 0 then
          scanWord n (word * nbpel) (2 * nbpel + 2) (sofar ≠ 0) (bits word) 0 sofar first
        else .more 0 first) := by
      split
      . have hword : bits word = bits word >>> 0 := rfl
        rw [hword]
        apply scanWord_spec (hbits word)
        . decide
        . decide
        . exact fun _ => by decide
        . exact h.scanStart
      . next hzero =>
        have hw := hbits word
        rw [not_not.1 hzero] at hw
        exact h.scanSpec_zero hw
    have hword : word * nbpel + nbpel = (word + 1) * nbpel := (Nat.succ_mul _ _).symm
    rw [hword] at hscan
    have hcount : word + (count + 1) = word + 1 + count := by omega
    rw [hcount]
    generalize (if bits word ≠ 0 then _ else _ : Scanned) = scanned at hscan ⊢
    cases hscan with
    | found hfirst => exact hfirst
    | counted hcounted => exact ih (word + 1) ⟨hcounted.ending, fun _ => hcounted.start, hcounted.short⟩
    | skipped hzero hshort => exact ih (word + 1) ⟨hzero, fun hne => absurd rfl hne, hshort⟩

theorem between_zero (hn : 0 < n) : Between f n (0 * nbpel) 0 0 := by
  refine ⟨rfl, fun hne => absurd rfl hne, ?_⟩
  intro q hq
  rw [Nat.zero_mul, Nat.le_zero] at hq
  rw [hq]
  exact hn

section

variable (hbits : ∀ word, IsWord f (word * nbpel) (bits word)) (hn : 0 < n) (count : Nat)
include hbits hn count

theorem scanBits_eq_some (h : scanBits n bits count 0 0 0 = some first) : IsFirstRun f n first := by
  have hspec := scanBits_spec hbits count 0 (between_zero hn)
  rwa [h] at hspec

theorem scanBits_eq_none (hcount : ∀ q, f q → q < count * nbpel)
    (h : scanBits n bits count 0 0 0 = none) (s : Nat) : ¬ IsRun f s n := by
  have hspec := scanBits_spec hbits count 0 (between_zero hn)
  rw [h, Nat.zero_add] at hspec
  intro hrun
  have hlast := hcount _ (hrun (n - 1) (by omega))
  exact not_isRun hspec (by omega) hrun

end

end Vm
