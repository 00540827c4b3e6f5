import UtahMach.Data.Chain

/-!
This module contains lookups along links.
-/

open Chain

variable {α β : Type} {own own' : α → Option β} {next next' : α → Option α} {rest d e : β} {a b : α}

inductive Finds (own : α → Option β) (next : α → Option α) (rest : β) : α → β → Prop where
  | here {a : α} {d : β} (hown : own a = some d) : Finds own next rest a d
  | there {a b : α} {d : β} (hown : own a = none) (hnext : next a = some b)
      (hb : Finds own next rest b d) : Finds own next rest a d
  | nowhere {a : α} (hown : own a = none) (hnext : next a = none) : Finds own next rest a rest

namespace Finds

theorem here_iff (hown : own a = some e) : Finds own next rest a d ↔ e = d := by
  constructor
  . intro h
    cases h <;> simp_all
  . rintro rfl
    exact .here hown

theorem there_iff (hown : own a = none) (hnext : next a = some b)
    : Finds own next rest a d ↔ Finds own next rest b d := by
  constructor
  . intro h
    cases h with
    | here h => simp [hown] at h
    | there _ h hb =>
      rw [hnext] at h
      injection h with h
      rwa [h]
    | nowhere _ h => simp [hnext] at h
  . exact .there hown hnext

theorem nowhere_iff (hown : own a = none) (hnext : next a = none) : Finds own next rest a d ↔ rest = d := by
  constructor
  . intro h
    cases h <;> simp_all
  . rintro rfl
    exact .nowhere hown hnext

theorem unique (h : Finds own next rest a d) (h' : Finds own next rest a e) : d = e := by
  induction h with
  | here hown => exact (here_iff hown).1 h'
  | there hown hnext _ ih => exact ih ((there_iff hown hnext).1 h')
  | nowhere hown hnext => exact (nowhere_iff hown hnext).1 h'

theorem exists_of_acyclic (h : Acyclic next) (own : α → Option β) (rest : β) (a : α)
    : ∃ d, Finds own next rest a d := by
  induction a using h.induction with
  | h a ih =>
    cases hown : own a with
    | some d => exact ⟨d, .here hown⟩
    | none =>
      cases hnext : next a with
      | none => exact ⟨rest, .nowhere hown hnext⟩
      | some b =>
        obtain ⟨d, hd⟩ := ih b hnext
        exact ⟨d, .there hown hnext hd⟩

theorem fill_iff (h : Acyclic next) (hother : ∀ b, b ≠ a → own' b = own b) (ha : own' a = some d)
    (hd : Finds own next rest a d) (b : α) : Finds own next rest b e ↔ Finds own' next rest b e := by
  induction b using h.induction with
  | h b ih =>
    by_cases hb : b = a
    . subst hb
      rw [here_iff ha]
      constructor
      . exact hd.unique
      . rintro rfl
        exact hd
    . have hown' := hother b hb
      cases hown : own b with
      | some x => rw [here_iff hown, here_iff (hown'.trans hown)]
      | none =>
        cases hnext : next b with
        | none => rw [nowhere_iff hown hnext, nowhere_iff (hown'.trans hown) hnext]
        | some c => rw [there_iff hown hnext, there_iff (hown'.trans hown) hnext, ih c hnext]

end Finds

inductive StandsFor (own own' : α → Option β) (next next' : α → Option α) (S : Set α) (a : α) : Prop where
  | same (hown : own' a = own a) (hnext : next' a = next a)
      (hmem : own a = none → ∀ b ∈ next a, b ∈ S)
  | both (b : α) (hb : next a = some b) (hown : own' a = (own a).or (own b)) (hnext : next' a = next b)
      (hmem : ∀ c ∈ next b, c ∈ S)

namespace Finds

variable {S : Set α}

theorem of_standsFor (hS : ∀ a ∈ S, StandsFor own own' next next' S a) (ha : a ∈ S)
    (h : Finds own' next' rest a d) : Finds own next rest a d := by
  induction h with
  | @here a d hown' =>
    obtain ⟨hown, -, -⟩ | ⟨b, hb, hown, -, -⟩ := hS a ha
    . exact .here (hown ▸ hown')
    . rw [hown, Option.or_eq_some_iff] at hown'
      obtain hown' | ⟨hnone, hown'⟩ := hown'
      . exact .here hown'
      . exact .there hnone hb (.here hown')
  | @there a c d hown' hnext' hc ih =>
    obtain ⟨hown, hnext, hmem⟩ | ⟨b, hb, hown, hnext, hmem⟩ := hS a ha
    . rw [hown] at hown'
      rw [hnext] at hnext'
      exact .there hown' hnext' (ih (hmem hown' c hnext'))
    . rw [hown, Option.or_eq_none_iff] at hown'
      rw [hnext] at hnext'
      exact .there hown'.1 hb (.there hown'.2 hnext' (ih (hmem c hnext')))
  | @nowhere a hown' hnext' =>
    obtain ⟨hown, hnext, -⟩ | ⟨b, hb, hown, hnext, -⟩ := hS a ha
    . exact .nowhere (hown ▸ hown') (hnext ▸ hnext')
    . rw [hown, Option.or_eq_none_iff] at hown'
      exact .there hown'.1 hb (.nowhere hown'.2 (hnext ▸ hnext'))

-- a value is also found where it was since the lookup ends and finds one value only
theorem standsFor_iff (hnext : Acyclic next') (hS : ∀ a ∈ S, StandsFor own own' next next' S a)
    (ha : a ∈ S) : Finds own next rest a d ↔ Finds own' next' rest a d := by
  constructor
  . intro h
    obtain ⟨e, he⟩ := exists_of_acyclic hnext own' rest a
    rwa [h.unique (of_standsFor hS ha he)]
  . exact of_standsFor hS ha

end Finds
