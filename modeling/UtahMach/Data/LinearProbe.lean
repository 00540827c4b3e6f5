import Mathlib

/-!
This module contains open addressing with linear probing.
-/

namespace LinearProbe

open Function (update update_of_ne update_self)

def next (size i : Nat) : Nat := if i + 1 = size then 0 else i + 1

def dist (size a b : Nat) : Nat := if a ≤ b then b - a else b + size - a

def find (size : Nat) (stop : Nat → Bool) (t : Nat → Nat) : Nat → Nat → Option Nat
  | 0, _ => none
  | fuel + 1, i => if stop (t i) then some i else find size stop t fuel (next size i)

def lookup (size : Nat) (p : Nat → Bool) (t : Nat → Nat) (start : Nat) : Option (Option Nat) :=
  match find size (fun r => r == 0 || p r) t size start with
  | none => none
  | some i => some (if t i = 0 then none else some (t i))

def insert (size : Nat) (t : Nat → Nat) (start r : Nat) : Option (Nat → Nat) :=
  match find size (fun r => r == 0) t size start with
  | none => none
  | some i => some (update t i r)

def displaced (hole d home : Nat) : Bool := if d < hole then d < home && home ≤ hole else d < home || home ≤ hole

def close (size : Nat) (home : Nat → Nat) : Nat → (Nat → Nat) → Nat → Nat → Option (Nat → Nat)
  | 0, _, _, _ => none
  | fuel + 1, t, hole, d =>
    let d := next size d
    let r := t d
    if r = 0 then
      some (update t hole 0)
    else if displaced hole d (home r) then
      close size home fuel (update t hole r) d d
    else
      close size home fuel t hole d

def delete (size : Nat) (home : Nat → Nat) (t : Nat → Nat) (r : Nat) : Option (Nat → Nat) :=
  match find size (fun r' => r' == r || r' == 0) t size (home r) with
  | none => none
  | some i => if t i = r then close size home size t i i else some t

structure WF (size : Nat) (home : Nat → Nat) (recs : Nat → Prop) (t : Nat → Nat) : Prop where
  range : ∀ r, recs r → 0 < r ∧ r < size
  home_lt : ∀ r, recs r → home r < size
  sound : ∀ i, i < size → t i ≠ 0 → recs (t i)
  complete : ∀ r, recs r → ∃ i, i < size ∧ t i = r
  inj : ∀ i j, i < size → j < size → t i ≠ 0 → t i = t j → i = j
  path : ∀ i, i < size → t i ≠ 0 → ∀ k, k < size →
    dist size (home (t i)) k < dist size (home (t i)) i → t k ≠ 0

variable {size : Nat} {home : Nat → Nat} {recs : Nat → Prop} {t : Nat → Nat}

theorem next_lt (h : i < size) : next size i < size := by
  unfold next
  split <;> omega

theorem dist_next (ha : a < size) (hne : next size i ≠ a) : dist size a (next size i) = dist size a i + 1 := by
  grind [next, dist]

theorem eq_of_dist_eq (ha : a < size) (hi : i < size) (hk : k < size) (h : dist size a i = dist size a k) : i = k := by
  unfold dist at h
  split at h <;> split at h <;> omega

theorem dist_self (a : Nat) : dist size a a = 0 := by
  simp [dist]

theorem dist_lt (ha : a < size) (hi : i < size) : dist size a i < size := by
  unfold dist
  split <;> omega

theorem WF.exists_empty (h : WF size home recs t) (hsize : 0 < size) : ∃ i, i < size ∧ t i = 0 := by
  by_contra hno
  have hfull : ∀ i, i < size → t i ≠ 0 := fun i hi hz => hno ⟨i, hi, hz⟩
  have hmaps : ∀ i ∈ Finset.range size, t i ∈ (Finset.range size).erase 0 := by
    intro i hi
    rw [Finset.mem_range] at hi
    have hr := h.range _ (h.sound i hi (hfull i hi))
    rw [Finset.mem_erase, Finset.mem_range]
    exact ⟨hr.1.ne', hr.2⟩
  have hcard : ((Finset.range size).erase 0).card < (Finset.range size).card :=
    Finset.card_erase_lt_of_mem (Finset.mem_range.mpr hsize)
  obtain ⟨i, hi, j, hj, hij, heq⟩ := Finset.exists_ne_map_eq_of_card_lt_of_maps_to hcard hmaps
  rw [Finset.mem_range] at hi hj
  exact hij (h.inj i j hi hj (hfull i hi) heq)

theorem WF.init : WF size home (fun _ => False) (fun _ => 0) := by
  constructor <;> simp

theorem WF.congr (h : WF size home recs t)
    (hrecs : ∀ r, recs r ↔ recs' r) (hhome : ∀ r, recs r → home' r = home r) : WF size home' recs' t := by
  obtain rfl : recs = recs' := funext fun r => propext (hrecs r)
  exact {
    h with
    home_lt := fun r hr => by
      rw [hhome r hr]
      exact h.home_lt r hr
    path := fun i hi hne => by
      rw [hhome _ (h.sound i hi hne)]
      exact h.path i hi hne
  }

theorem find_spec_from (ha : a < size) (he : e < size)
    (hstop : stop (t e) = true) (fuel : Nat) (hi : i < size) (hle : dist size a i ≤ dist size a e)
    (hfuel : dist size a e < dist size a i + fuel)
    (hbefore : ∀ k, k < size → dist size a k < dist size a i → stop (t k) = false)
    : ∃ j, find size stop t fuel i = some j ∧ j < size ∧ stop (t j) = true ∧
        ∀ k, k < size → dist size a k < dist size a j → stop (t k) = false := by
  induction fuel generalizing i with
  | zero => omega
  | succ fuel ih =>
    rw [find]
    split
    . next hs => exact ⟨i, rfl, hi, hs, hbefore⟩
    . next hs =>
      have hie : i ≠ e := by
        rintro rfl
        exact hs hstop
      have hlt : dist size a i < dist size a e := lt_of_le_of_ne hle (fun heq => hie (eq_of_dist_eq ha hi he heq))
      have hne : next size i ≠ a := by
        grind [next, dist]
      have hd := dist_next ha hne
      apply ih (next_lt hi) (by omega) (by omega)
      intro k hk hdk
      rcases Nat.lt_or_ge (dist size a k) (dist size a i) with hlt | hge
      . exact hbefore k hk hlt
      . have hki : k = i := eq_of_dist_eq ha hk hi (by omega)
        rw [hki]
        simpa using hs

theorem find_spec (stop : Nat → Bool) (ha : a < size) (he : e < size) (hstop : stop (t e) = true)
    : ∃ i, find size stop t size a = some i ∧ i < size ∧ stop (t i) = true ∧
        ∀ k, k < size → dist size a k < dist size a i → stop (t k) = false := by
  have hself : dist size a a = 0 := dist_self a
  have hlt := dist_lt ha he
  exact find_spec_from ha he hstop size ha (by omega) (by omega) (by omega)

theorem insert_spec (h : WF size home recs t) (hr : 0 < r ∧ r < size) (hhome : home r < size) (hnew : ¬ recs r)
    : ∃ t', insert size t (home r) r = some t' ∧ WF size home (fun r' => r' = r ∨ recs r') t' := by
  obtain ⟨e, he, hempty⟩ := h.exists_empty (by omega)
  obtain ⟨i, hfind, hi, hstop, hpath⟩ := find_spec (fun r => r == 0) (t := t) hhome he (by simpa using hempty)
  have hzero : t i = 0 := by simpa using hstop
  refine ⟨update t i r, by simp [insert, hfind], ?_⟩
  have hother : ∀ j, j ≠ i → update t i r j = t j := fun j hj => update_of_ne hj r t
  have hself : update t i r i = r := update_self i r t
  exact {
    range := by
      rintro r' (rfl | hin)
      . exact hr
      . exact h.range r' hin
    home_lt := by
      rintro r' (rfl | hin)
      . exact hhome
      . exact h.home_lt r' hin
    sound := by
      intro j hj hne
      by_cases hji : j = i
      . subst hji
        exact Or.inl hself
      . rw [hother j hji] at hne ⊢
        exact Or.inr (h.sound j hj hne)
    complete := by
      rintro r' (rfl | hin)
      . exact ⟨i, hi, hself⟩
      . obtain ⟨j, hj, rfl⟩ := h.complete r' hin
        have hpos := (h.range _ hin).1
        refine ⟨j, hj, hother j ?_⟩
        rintro rfl
        omega
    inj := by
      intro j k hj hk hne heq
      by_cases hji : j = i
      . by_cases hki : k = i
        . omega
        . rw [hji, hself, hother k hki] at heq
          have hin := h.sound k hk (by omega)
          rw [← heq] at hin
          exact absurd hin hnew
      . by_cases hki : k = i
        . rw [hki, hself, hother j hji] at heq
          have hin := h.sound j hj (by omega)
          rw [heq] at hin
          exact absurd hin hnew
        . rw [hother j hji] at hne heq
          rw [hother k hki] at heq
          exact h.inj j k hj hk hne heq
    path := by
      intro j hj hne k hk hd
      by_cases hki : k = i
      . rw [hki, hself]
        omega
      . rw [hother k hki]
        by_cases hji : j = i
        . rw [hji, hself] at hd
          simpa using hpath k hk hd
        . rw [hother j hji] at hne hd
          exact h.path j hj hne k hk hd
  }

theorem displaced_iff (hhole : hole < size) (hd : d < size) (hhome : a < size) (hne : d ≠ hole)
    : displaced hole d a = true ↔ dist size a hole < dist size a d := by
  grind [displaced, dist]

structure Closing (size : Nat) (home : Nat → Nat) (recs : Nat → Prop) (t : Nat → Nat)
    (hole d empty : Nat) : Prop where
  hole_lt : hole < size
  d_lt : d < size
  empty_lt : empty < size
  empty_eq : t empty = 0
  empty_ne : empty ≠ hole
  before_empty : dist size hole d < dist size hole empty
  sound : ∀ i, i < size → i ≠ hole → t i ≠ 0 → recs (t i)
  complete : ∀ r, recs r → ∃ i, i < size ∧ i ≠ hole ∧ t i = r
  inj : ∀ i j, i < size → j < size → i ≠ hole → j ≠ hole → t i ≠ 0 → t i = t j → i = j
  path : ∀ i, i < size → i ≠ hole → t i ≠ 0 → ∀ k, k < size →
    dist size (home (t i)) k < dist size (home (t i)) i →
    (k ≠ hole ∧ t k ≠ 0) ∨ (k = hole ∧ dist size hole d < dist size hole i)

section

variable (h : Closing size home recs t hole d empty)
include h

theorem Closing.finish (hrange : ∀ r, recs r → 0 < r ∧ r < size) (hhome : ∀ r, recs r → home r < size)
    (hend : t (next size d) = 0) : WF size home recs (update t hole 0) := by
  have hother : ∀ j, j ≠ hole → update t hole 0 j = t j := fun j hj => update_of_ne hj 0 t
  have hself : update t hole 0 hole = 0 := update_self hole 0 t
  have hne_hole : ∀ j, update t hole 0 j ≠ 0 → j ≠ hole := by
    rintro j hj rfl
    exact hj hself
  exact {
    range := hrange
    home_lt := hhome
    sound := by
      intro i hi hne
      have hih := hne_hole i hne
      rw [hother i hih] at hne ⊢
      exact h.sound i hi hih hne
    complete := by
      intro r hr
      obtain ⟨i, hi, hih, rfl⟩ := h.complete r hr
      exact ⟨i, hi, hother i hih⟩
    inj := by
      intro i j hi hj hne heq
      have hih := hne_hole i hne
      have hjh := hne_hole j (heq ▸ hne)
      rw [hother i hih] at hne heq
      rw [hother j hjh] at heq
      exact h.inj i j hi hj hih hjh hne heq
    path := by
      intro i hi hne k hk hdist
      have hih := hne_hole i hne
      rw [hother i hih] at hne hdist
      rcases h.path i hi hih hne k hk hdist with ⟨hkh, hkne⟩ | ⟨rfl, hfar⟩
      . rw [hother k hkh]
        exact hkne
      . -- The way of the record would lead over the empty slot that ends the clump.
        exfalso
        have hn : next size d < size := next_lt h.d_lt
        have hnh : next size d ≠ k := by
          have hd := h.d_lt
          grind [next, dist]
        have hway : dist size (home (t i)) (next size d) < dist size (home (t i)) i := by
          grind [next, dist]
        rcases h.path i hi hih hne _ hn hway with ⟨-, hz⟩ | ⟨heq, -⟩
        . exact hz hend
        . exact hnh heq
  }

theorem Closing.next_lt_empty (hne : t (next size d) ≠ 0)
    : next size d ≠ hole ∧ dist size hole (next size d) < dist size hole empty := by
  have hb := h.before_empty
  have he := h.empty_lt
  have hd := h.d_lt
  have hz := h.empty_eq
  constructor <;> grind [next, dist]

theorem Closing.skip (hhome : ∀ r, recs r → home r < size) (hne : t (next size d) ≠ 0)
    (hstay : displaced hole (next size d) (home (t (next size d))) = false)
    : Closing size home recs t hole (next size d) empty := by
  obtain ⟨hnh, hbe⟩ := h.next_lt_empty hne
  have hn : next size d < size := next_lt h.d_lt
  have hlt := hhome _ (h.sound _ hn hnh hne)
  refine { h with d_lt := hn, before_empty := hbe, path := ?_ }
  intro i hi hih hine k hk hdist
  rcases h.path i hi hih hine k hk hdist with hkeep | ⟨rfl, hfar⟩
  . exact Or.inl hkeep
  . refine Or.inr ⟨rfl, ?_⟩
    have hin : i ≠ next size d := by
      rintro rfl
      rw [← displaced_iff h.hole_lt hn hlt hnh, hstay] at hdist
      contradiction
    grind [next, dist]

theorem Closing.move (hhome : ∀ r, recs r → home r < size) (hne : t (next size d) ≠ 0)
    (hmiss : displaced hole (next size d) (home (t (next size d))) = true)
    : Closing size home recs (update t hole (t (next size d))) (next size d) (next size d) empty := by
  obtain ⟨hnh, -⟩ := h.next_lt_empty hne
  have hn : next size d < size := next_lt h.d_lt
  have hlt := hhome _ (h.sound _ hn hnh hne)
  rw [displaced_iff h.hole_lt hn hlt hnh] at hmiss
  have hother : ∀ j, j ≠ hole → update t hole (t (next size d)) j = t j := fun j hj => update_of_ne hj _ t
  have hself : update t hole (t (next size d)) hole = t (next size d) := update_self hole _ t
  have hen : empty ≠ next size d := by
    intro heq
    rw [← heq, h.empty_eq] at hne
    contradiction
  exact {
    hole_lt := hn
    d_lt := hn
    empty_lt := h.empty_lt
    empty_eq := by rw [hother _ h.empty_ne, h.empty_eq]
    empty_ne := hen
    before_empty := by
      grind [dist]
    sound := by
      intro i hi hin hine
      by_cases hih : i = hole
      . rw [hih, hself]
        exact h.sound _ hn hnh hne
      . rw [hother i hih] at hine ⊢
        exact h.sound i hi hih hine
    complete := by
      intro r hr
      obtain ⟨i, hi, hih, rfl⟩ := h.complete r hr
      by_cases hin : i = next size d
      . exact ⟨hole, h.hole_lt, hnh.symm, by rw [hself, hin]⟩
      . exact ⟨i, hi, hin, hother i hih⟩
    inj := by
      intro i j hi hj hin hjn hine heq
      by_cases hih : i = hole
      . by_cases hjh : j = hole
        . omega
        . rw [hih, hself, hother j hjh] at heq
          exact absurd (h.inj _ j hn hj hnh hjh hne heq).symm hjn
      . by_cases hjh : j = hole
        . rw [hother i hih] at hine heq
          rw [hjh, hself] at heq
          exact absurd (h.inj i _ hi hn hih hnh hine heq) hin
        . rw [hother i hih] at hine heq
          rw [hother j hjh] at heq
          exact h.inj i j hi hj hih hjh hine heq
    path := by
      intro i hi hin hine k hk hdist
      by_cases hkn : k = next size d
      . refine Or.inr ⟨hkn, ?_⟩
        grind [dist]
      . refine Or.inl ⟨hkn, ?_⟩
        by_cases hkh : k = hole
        . rw [hkh, hself]
          exact hne
        . rw [hother k hkh]
          by_cases hih : i = hole
          . rw [hih, hself] at hdist
            rcases h.path _ hn hnh hne k hk (hdist.trans hmiss) with ⟨-, hz⟩ | ⟨heq, -⟩
            . exact hz
            . contradiction
          . rw [hother i hih] at hine hdist
            rcases h.path i hi hih hine k hk hdist with ⟨-, hz⟩ | ⟨heq, -⟩
            . exact hz
            . contradiction
  }

theorem close_spec (hrange : ∀ r, recs r → 0 < r ∧ r < size) (hhome : ∀ r, recs r → home r < size)
    (fuel : Nat) (hfuel : dist size d empty ≤ fuel)
    : ∃ t', close size home fuel t hole d = some t' ∧ WF size home recs t' := by
  induction fuel generalizing t hole d with
  | zero =>
    -- `d` cannot have reached the empty slot yet.
    have hb := h.before_empty
    have he := h.empty_lt
    have hd := h.d_lt
    grind [dist]
  | succ fuel ih =>
    have hstep : t (next size d) ≠ 0 → dist size (next size d) empty ≤ fuel := by
      intro hne
      have he := h.empty_lt
      have hb := h.before_empty
      grind [next, dist]
    rw [close]
    split
    . next hend => exact ⟨_, rfl, h.finish hrange hhome hend⟩
    . next hne =>
      split
      . next hmiss => exact ih (h.move hhome hne hmiss) (hstep hne)
      . next hstay => exact ih (h.skip hhome hne (by simpa using hstay)) (hstep hne)

end

theorem WF.find_record (h : WF size home recs t) (hr : recs r) (stop : Nat → Bool) (hstop : stop r = true)
    (honly : ∀ r', recs r' → stop r' = true → r' = r)
    : ∃ i, find size stop t size (home r) = some i ∧ i < size ∧ t i = r := by
  have hpos := h.range r hr
  obtain ⟨j, hj, hjr⟩ := h.complete r hr
  obtain ⟨i, hfind, hi, hstopi, hbefore⟩ := find_spec stop (t := t) (h.home_lt r hr) hj (by rw [hjr, hstop])
  refine ⟨i, hfind, hi, ?_⟩
  -- No slot on the way to the record is empty, so the search ends at it.
  by_contra hne
  have hle : dist size (home r) i ≤ dist size (home r) j := by
    by_contra hlt
    have hno := hbefore j hj (by omega)
    simp [hjr, hstop] at hno
  have hij : i ≠ j := by
    rintro rfl
    exact hne hjr
  have hlt : dist size (home r) i < dist size (home r) j :=
    lt_of_le_of_ne hle (fun heq => hij (eq_of_dist_eq (h.home_lt r hr) hi hj heq))
  have hz : t i ≠ 0 := h.path j hj (by omega) i hi (by rw [hjr]; exact hlt)
  exact hne (honly _ (h.sound i hi hz) hstopi)

theorem WF.lookup_spec (h : WF size home recs t) (hstart : start < size) (p : Nat → Bool)
    : ∃ found, lookup size p t start = some found ∧ (∀ r, found = some r → recs r ∧ p r = true) ∧
        (found = none → ∀ r, recs r → home r = start → p r = false) := by
  obtain ⟨e, he, hempty⟩ := h.exists_empty (by omega)
  obtain ⟨i, hfind, hi, hstop, hbefore⟩ := find_spec (fun r => r == 0 || p r) (t := t) hstart he (by simp [hempty])
  refine ⟨if t i = 0 then none else some (t i), by simp [lookup, hfind], fun r hr => ?_, fun hnone r hr hhome => ?_⟩
  . split at hr
    . contradiction
    . next hne =>
      cases hr
      exact ⟨h.sound i hi hne, by simpa [hne] using hstop⟩
  . have hz : t i = 0 := by
      by_contra hne
      rw [if_neg hne] at hnone
      contradiction
    -- The record comes before the empty slot where the search has stopped.
    obtain ⟨j, hj, hjr⟩ := h.complete r hr
    have hpos := h.range r hr
    have hlt : dist size start j < dist size start i := by
      by_contra hge
      have hij : i ≠ j := by
        rintro rfl
        omega
      have hne : dist size start i ≠ dist size start j := fun heq => hij (eq_of_dist_eq hstart hi hj heq)
      have hpath := h.path j hj (by omega) i hi (by rw [hjr, hhome]; omega)
      exact hpath hz
    have hno := hbefore j hj hlt
    rw [hjr] at hno
    simpa [hpos.1.ne'] using hno

theorem WF.lookup_record (h : WF size home recs t) (hr : recs r) (p : Nat → Bool) (hp : p r = true)
    (honly : ∀ r', recs r' → p r' = true → r' = r) : lookup size p t (home r) = some (some r) := by
  have hpos := h.range r hr
  obtain ⟨i, hfind, -, hir⟩ := h.find_record hr (fun r => r == 0 || p r) (by simp [hp]) (by
    intro r' hr' hstop
    have hpos' := h.range r' hr'
    exact honly r' hr' (by simpa [hpos'.1.ne'] using hstop))
  simp [lookup, hfind, hir, hpos.1.ne']

theorem WF.lookup_absent (h : WF size home recs t) (hstart : start < size) (p : Nat → Bool)
    (hno : ∀ r, recs r → p r = false) : lookup size p t start = some none := by
  obtain ⟨e, he, hempty⟩ := h.exists_empty (by omega)
  obtain ⟨i, hfind, hi, hstop, -⟩ := find_spec (fun r => r == 0 || p r) (t := t) hstart he (by simp [hempty])
  have hz : t i = 0 := by
    by_contra hne
    simp [hne, hno _ (h.sound i hi hne)] at hstop
  simp [lookup, hfind, hz]

theorem delete_spec (h : WF size home recs t) (hr : recs r)
    : ∃ t', delete size home t r = some t' ∧ WF size home (fun r' => r' ≠ r ∧ recs r') t' := by
  have hpos := h.range r hr
  obtain ⟨i, hfind, hi, hjr⟩ := h.find_record hr (fun r' => r' == r || r' == 0) (by simp) (by
    intro r' hr' hstop
    have hpos' := h.range r' hr'
    simpa [hpos'.1.ne'] using hstop)
  obtain ⟨empty, he, hempty⟩ := h.exists_empty (by omega)
  have hei : empty ≠ i := by
    rintro rfl
    omega
  have hclosing : Closing size home (fun r' => r' ≠ r ∧ recs r') t i i empty := {
    hole_lt := hi
    d_lt := hi
    empty_lt := he
    empty_eq := hempty
    empty_ne := hei
    before_empty := by grind [dist]
    sound := by
      intro k hk hki hne
      refine ⟨?_, h.sound k hk hne⟩
      intro heq
      exact hki (h.inj k i hk hi hne (by rw [heq, hjr]))
    complete := by
      rintro r' ⟨hne, hin⟩
      obtain ⟨k, hk, rfl⟩ := h.complete r' hin
      refine ⟨k, hk, ?_, rfl⟩
      rintro rfl
      exact hne hjr
    inj := fun k l hk hl _ _ => h.inj k l hk hl
    path := by
      intro k hk hki hne l hl hdist
      by_cases hli : l = i
      . refine Or.inr ⟨hli, ?_⟩
        grind [dist]
      . exact Or.inl ⟨hli, h.path k hk hne l hl hdist⟩
  }
  obtain ⟨t', ht', hwf⟩ := close_spec hclosing (fun r' hr' => h.range r' hr'.2)
    (fun r' hr' => h.home_lt r' hr'.2) size (dist_lt hi he).le
  refine ⟨t', ?_, hwf⟩
  simp only [delete, hfind, hjr, if_true]
  exact ht'

end LinearProbe
