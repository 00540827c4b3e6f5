import UtahMach.Ipc.Hash.Basic

/-!
This module contains what the two reverse hash tables of a space hold.
-/

namespace Ipc

open LinearProbe

open Function (update update_eq_self update_of_ne update_self)

def LocalHash (s : Space) (recs : Nat → Prop) : Prop := LinearProbe.WF s.isTableSize s.home recs s.isIndex

structure GlobalHash (bucket : Nat → Nat) (buckets : Nat → List Nat) (count : Nat)
    (xs : List (Nat × Entry)) (hashed : Nat → Bool) : Prop where
  nodup : ∀ b, (buckets b).Nodup
  mem : ∀ b n, n ∈ buckets b ↔ hashed n = true ∧ ∃ e, (n, e) ∈ xs ∧ bucket e.ieObject = b
  count_eq : count = xs.countP (fun e => hashed e.1)

def UniqueNames (xs : List (Nat × Entry)) : Prop := (xs.map Prod.fst).Nodup

namespace UniqueNames

theorem perm (h : UniqueNames xs) (hp : xs.Perm ys) : UniqueNames ys :=
  (hp.map Prod.fst).nodup_iff.mp h

theorem eq_of_mem (h : UniqueNames xs) (he : (n, e) ∈ xs) (he' : (n, e') ∈ xs) : e = e' :=
  congrArg Prod.snd (List.inj_on_of_nodup_map h he he' rfl)

theorem not_mem_of_cons (h : UniqueNames ((n, e) :: xs)) : (n, e') ∉ xs := by
  intro hmem
  rw [UniqueNames, List.map_cons, List.nodup_cons] at h
  exact h.1 (List.mem_map.mpr ⟨_, hmem, rfl⟩)

theorem countP_update (h : UniqueNames xs) (hmem : (n, e) ∈ xs) (hashed : Nat → Bool)
    : xs.countP (fun x => update hashed n true x.1) = xs.countP (fun x => update hashed n false x.1) + 1 := by
  have hp := List.perm_cons_erase hmem
  have hu := h.perm hp
  have hrest : (xs.erase (n, e)).countP (fun x => update hashed n true x.1) =
      (xs.erase (n, e)).countP (fun x => update hashed n false x.1) := by
    apply List.countP_congr
    rintro ⟨n', e''⟩ hin
    have hne : n' ≠ n := by
      rintro rfl
      exact hu.not_mem_of_cons hin
    simp [update_of_ne hne]
  rw [hp.countP_eq, hp.countP_eq, List.countP_cons, List.countP_cons, hrest]
  simp

end UniqueNames

section Local

variable {s : Space} {recs : Nat → Prop}

theorem localInsert_spec (h : LocalHash s recs) {index : Nat} (hpos : 0 < index)
    (hlt : index < s.isTableSize) (hnew : ¬ recs index) (hobj : (s.isTable index).ieObject ≠ ioNull)
    : ∃ isIndex, ipcHashLocalInsert s (s.isTable index).ieObject index = some { s with isIndex := isIndex } ∧
        LocalHash { s with isIndex := isIndex } (fun i => i = index ∨ recs i) := by
  have hhome : s.home index < s.isTableSize := Nat.mod_lt _ (by omega)
  obtain ⟨isIndex, hins, hwf⟩ := insert_spec h ⟨hpos, hlt⟩ hhome hnew
  refine ⟨isIndex, ?_, hwf⟩
  have hins' : insert s.isTableSize s.isIndex
      (ihLocalHash (s.isTable index).ieObject s.isTableSize) index = some isIndex := hins
  simp [ipcHashLocalInsert, hpos.ne', hobj, hins']

theorem localDelete_spec (h : LocalHash s recs) {index : Nat} (hrec : recs index)
    (hobj : (s.isTable index).ieObject ≠ ioNull)
    : ∃ isIndex, ipcHashLocalDelete s (s.isTable index).ieObject index = some { s with isIndex := isIndex } ∧
        LocalHash { s with isIndex := isIndex } (fun i => i ≠ index ∧ recs i) := by
  have hpos := (h.range index hrec).1
  obtain ⟨isIndex, hdel, hwf⟩ := delete_spec h hrec
  refine ⟨isIndex, ?_, hwf⟩
  simp [ipcHashLocalDelete, hpos.ne', hobj, hdel]

end Local

section Global

variable {s : Space} {bucket : Nat → Nat} {buckets : Nat → List Nat} {count : Nat}
  {xs : List (Nat × Entry)} {hashed : Nat → Bool}

section

variable (h : GlobalHash bucket buckets count xs hashed)
include h

theorem GlobalHash.perm (hp : xs.Perm ys) : GlobalHash bucket buckets count ys hashed where
  nodup := h.nodup
  mem := by
    intro b n
    simp only [h.mem b n, hp.mem_iff]
  count_eq := by rw [h.count_eq, hp.countP_eq]

theorem GlobalHash.insert (hu : UniqueNames xs) {n : Nat} (hmem : (n, e) ∈ xs) (hnew : hashed n = false)
    : GlobalHash bucket (fun b => if b = bucket e.ieObject then n :: buckets (bucket e.ieObject) else buckets b)
        (count + 1) xs (update hashed n true) := by
  have hself : update hashed n false = hashed := by
    rw [← hnew, update_eq_self]
  have hnotin : ∀ b, n ∉ buckets b := by
    intro b hin
    have hh := ((h.mem b n).mp hin).1
    rw [hnew] at hh
    contradiction
  refine ⟨?_, ?_, ?_⟩
  . intro b
    split
    . exact List.nodup_cons.mpr ⟨hnotin _, h.nodup _⟩
    . exact h.nodup b
  . intro b n'
    by_cases hn : n' = n
    . subst hn
      rw [update_self]
      constructor
      . intro hin
        refine ⟨rfl, e, hmem, ?_⟩
        split at hin
        . next heq => exact heq.symm
        . exact absurd hin (hnotin b)
      . rintro ⟨-, e', he', heq⟩
        rw [hu.eq_of_mem he' hmem] at heq
        rw [if_pos heq.symm]
        exact List.mem_cons_self
    . rw [update_of_ne hn, ← h.mem b n']
      split
      . next heq => rw [heq, List.mem_cons, or_iff_right hn]
      . rfl
  . rw [hu.countP_update hmem, hself, h.count_eq]

theorem GlobalHash.delete (hu : UniqueNames xs) {n : Nat} (hmem : (n, e) ∈ xs) (hin : hashed n = true)
    : 0 < count ∧ n ∈ buckets (bucket e.ieObject) ∧ GlobalHash bucket
        (fun b => if b = bucket e.ieObject then (buckets (bucket e.ieObject)).erase n else buckets b)
        (count - 1) xs (update hashed n false) := by
  have hself : update hashed n true = hashed := by
    rw [← hin, update_eq_self]
  have hcount := hu.countP_update hmem hashed
  rw [hself, ← h.count_eq] at hcount
  refine ⟨by omega, (h.mem _ _).mpr ⟨hin, e, hmem, rfl⟩, ?_, ?_, ?_⟩
  . intro b
    split
    . exact (h.nodup _).erase n
    . exact h.nodup b
  . intro b n'
    by_cases hn : n' = n
    . subst hn
      rw [update_self]
      constructor
      . intro hb
        split at hb
        . exact absurd hb (h.nodup _).not_mem_erase
        . next hne =>
          obtain ⟨-, e', he', heq⟩ := (h.mem _ _).mp hb
          rw [hu.eq_of_mem he' hmem] at heq
          exact absurd heq.symm hne
      . rintro ⟨hfalse, -⟩
        contradiction
    . rw [update_of_ne hn, ← h.mem b n']
      split
      . next heq => rw [heq, List.mem_erase_of_ne hn]
      . rfl
  . omega

theorem GlobalHash.congr (hmem : ∀ n obj, hashed n = true →
      ((∃ e, (n, e) ∈ xs ∧ e.ieObject = obj) ↔ ∃ e, (n, e) ∈ ys ∧ e.ieObject = obj))
    (hcount : xs.countP (fun e => hashed e.1) = ys.countP (fun e => hashed e.1))
    : GlobalHash bucket buckets count ys hashed where
  nodup := h.nodup
  mem := by
    intro b n
    rw [h.mem b n]
    constructor
    . rintro ⟨hh, e, he, heq⟩
      obtain ⟨e', he', hobj⟩ := (hmem n e.ieObject hh).mp ⟨e, he, rfl⟩
      exact ⟨hh, e', he', by rw [hobj, heq]⟩
    . rintro ⟨hh, e, he, heq⟩
      obtain ⟨e', he', hobj⟩ := (hmem n e.ieObject hh).mpr ⟨e, he, rfl⟩
      exact ⟨hh, e', he', by rw [hobj, heq]⟩
  count_eq := by rw [h.count_eq, hcount]

theorem GlobalHash.congr_hashed (heq : ∀ e ∈ xs, hashed' e.1 = hashed e.1)
    : GlobalHash bucket buckets count xs hashed' where
  nodup := h.nodup
  mem := by
    intro b n
    rw [h.mem b n]
    constructor
    . rintro ⟨hh, e, he, hb⟩
      exact ⟨by rw [heq (n, e) he]; exact hh, e, he, hb⟩
    . rintro ⟨hh, e, he, hb⟩
      exact ⟨by rw [← heq (n, e) he]; exact hh, e, he, hb⟩
  count_eq := by
    rw [h.count_eq]
    apply List.countP_congr
    intro e he
    simp only [heq e he]

end

section

variable (h : GlobalHash s.bucket s.ihGlobal s.isTreeHash xs hashed) (hu : UniqueNames xs)
include h hu

theorem globalInsert_spec (htotal : s.isTreeTotal = xs.length) {n : Nat}
    (hmem : (n, e) ∈ xs) (hnew : hashed n = false) (hobj : e.ieObject ≠ ioNull)
    : ∃ buckets count, ipcHashGlobalInsert s e.ieObject n =
          some { s with ihGlobal := buckets, isTreeHash := count } ∧
        GlobalHash s.bucket buckets count xs (update hashed n true) := by
  have hins := h.insert hu hmem hnew
  have hle := List.countP_le_length (p := fun x => update hashed n true x.1) (l := xs)
  have hroom : s.isTreeHash + 1 ≤ s.isTreeTotal := by
    rw [htotal, hins.count_eq]
    exact hle
  refine ⟨_, _, ?_, hins⟩
  simp only [ipcHashGlobalInsert, ne_eq, hobj, not_false_eq_true, assert_of_true, hroom,
    Space.setBucket, Option.bind_eq_bind, Option.bind_some, Option.pure_def]

theorem globalDelete_spec {n : Nat} (hmem : (n, e) ∈ xs) (hin : hashed n = true) (hobj : e.ieObject ≠ ioNull)
    : ∃ buckets count, ipcHashGlobalDelete s e.ieObject n =
          some { s with ihGlobal := buckets, isTreeHash := count } ∧
        GlobalHash s.bucket buckets count xs (update hashed n false) := by
  obtain ⟨hpos, hb, hdel⟩ := h.delete hu hmem hin
  refine ⟨_, _, ?_, hdel⟩
  simp only [ipcHashGlobalDelete, ne_eq, hobj, not_false_eq_true, assert_of_true, hpos, hb,
    Space.setBucket, Option.bind_eq_bind, Option.bind_some, Option.pure_def]

end

theorem ihGlobalFind_spec (obj : Nat) (names : List Nat) (h : ∀ n ∈ names, s.isTree.get? n ≠ none)
    : ∃ found rest, ihGlobalFind s obj names = some (found, rest) ∧
        (∀ n, found = some n → (∃ e, s.isTree.get? n = some e ∧ e.ieObject = obj) ∧ (n :: rest).Perm names) ∧
        (found = none → ∀ n ∈ names, ∀ e, s.isTree.get? n = some e → e.ieObject ≠ obj) := by
  induction names with
  | nil => exact ⟨none, [], rfl, by simp, by simp⟩
  | cons name names ih =>
    obtain ⟨e, he⟩ := Option.ne_none_iff_exists'.mp (h name List.mem_cons_self)
    obtain ⟨found, rest, hfind, hsome, hnone⟩ := ih fun n hn => h n (List.mem_cons_of_mem _ hn)
    by_cases hobj : e.ieObject = obj
    . refine ⟨some name, names, by simp [ihGlobalFind, ihGlobalMatch, he, hobj], fun n hn => ?_, by simp⟩
      cases hn
      exact ⟨⟨e, he, hobj⟩, List.Perm.refl _⟩
    . refine ⟨found, name :: rest, by simp [ihGlobalFind, ihGlobalMatch, he, hobj, hfind], fun n hn => ?_, ?_⟩
      . obtain ⟨hmatch, hperm⟩ := hsome n hn
        exact ⟨hmatch, (List.Perm.swap name n rest).trans (hperm.cons name)⟩
      . intro hf n hn e' he'
        rcases List.mem_cons.mp hn with rfl | hn
        . rw [he] at he'
          cases he'
          exact hobj
        . exact hnone hf n hn e' he'

end Global

end Ipc
