import UtahMach.DefaultPager.Write

/-!
This module contains calls of `pager_write_offset` for one object that take turns.
-/

namespace DefaultPager

variable {β : Type}

inductive GrowthPc where
  | small (fPage : Nat)
  | extended (fPage : Nat)
deriving DecidableEq, Repr

structure Growth (β : Type) where
  parts : Parts β
  pager : Dpager
  calls : List GrowthPc

inductive GrowthOp where
  | call (fPage : Nat)
  | extend (i : Nat)
  | look (i : Nat)
deriving DecidableEq, Repr

namespace Growth

def look (s : Growth β) (fPage : Nat) : Except Halt (Growth β) :=
  if s.pager.size ≤ fPage then .ok { s with calls := .small fPage :: s.calls }
  else do
    let (parts, pager, _) ← writeBlock s.parts s.pager fPage
    .ok { s with parts := parts, pager := pager }

def step (s : Growth β) : GrowthOp → Except Halt (Growth β)
  | .call fPage => do
    let (parts, pager, go) ← fitPartition s.parts s.pager fPage
    let s := { s with parts := parts, pager := pager }
    if go then s.look fPage else .ok s
  | .extend i =>
    match s.calls[i]? with
    | some (.small fPage) => do
      let pager ← pagerExtend s.pager (fPage + 1)
      .ok { s with pager := pager, calls := s.calls.set i (.extended fPage) }
    | _ => .ok s
  | .look i =>
    match s.calls[i]? with
    | some (.extended fPage) => look { s with calls := s.calls.eraseIdx i } fPage
    | _ => .ok s

def Grown (s s' : Growth β) : Prop :=
  s.pager.size ≤ s'.pager.size ∧
    ∀ p, s.pager.blockAt p ≠ noBlock → s'.pager.blockAt p = s.pager.blockAt p

def Grows (s : Growth β) : List GrowthOp → Prop
  | [] => True
  | op :: ops => ∃ s', s.step op = .ok s' ∧ s.Grown s' ∧ s'.Grows ops

def CalmStep (s : Growth β) : GrowthOp → Prop
  | .extend i => ∀ fPage, s.calls[i]? = some (.small fPage) → Extends s.pager.size (fPage + 1)
  | _ => True

def Calm (s : Growth β) : List GrowthOp → Prop
  | [] => True
  | op :: ops => s.CalmStep op ∧ ∀ s', s.step op = .ok s' → s'.Calm ops

structure Inv (s : Growth β) : Prop where
  good : s.parts.Good
  usable : s.pager.Usable s.parts
  fit : s.calls ≠ [] → s.pager.curPartition ≠ pIndexInvalid

variable {s s' : Growth β} {op : GrowthOp} {p : Nat}

theorem grown_of_blockAt (hsize : s.pager.size ≤ s'.pager.size)
    (hblock : s'.pager.blockAt = s.pager.blockAt) : s.Grown s' := by
  refine ⟨hsize, fun p _ => ?_⟩
  rw [hblock]

theorem Inv.look (h : s.Inv) (hcur : s.pager.curPartition ≠ pIndexInvalid) (p : Nat)
    : ∃ s', s.look p = .ok s' ∧ s.Grown s' ∧ s'.Inv := by
  rw [Growth.look]
  by_cases hp : s.pager.size ≤ p
  . rw [if_pos hp]
    exact ⟨_, rfl, grown_of_blockAt (Nat.le_refl _) rfl, h.good, h.usable, fun _ => hcur⟩
  . obtain ⟨ps', pager', block, heq, hwrote, hgood, -, husable, hcur', hsize⟩ :=
      h.usable.writeBlock h.good hcur (Nat.lt_of_not_le hp)
    rw [if_neg hp, heq]
    refine ⟨_, rfl, ⟨Nat.le_of_eq hsize.symm, ?_⟩, hgood, husable, fun _ => hcur'⟩
    intro q hq
    show pager'.blockAt q = s.pager.blockAt q
    generalize pager'.blockAt = blocks at hwrote
    cases hwrote with
    | kept _ => rfl
    | fresh hnone hi hstay hoff hclear =>
      dsimp only
      rw [if_neg]
      rintro rfl
      exact hq hnone

theorem Inv.step (h : s.Inv) (hcalm : s.CalmStep op) : ∃ s', s.step op = .ok s' ∧ s.Grown s' ∧ s'.Inv := by
  cases op with
  | call p =>
    obtain ⟨cur, go, heq, hvalid, hgo, hstop⟩ := h.usable.fitPartition h.good p
    rw [Growth.step, heq]
    show ∃ s', (if go = true then _ else _) = _ ∧ _
    cases go with
    | false =>
      refine ⟨_, rfl, grown_of_blockAt (Nat.le_refl _) rfl, h.good, h.usable.setCur hvalid, ?_⟩
      intro hcalls
      show cur ≠ pIndexInvalid
      rw [(hstop rfl).1]
      exact h.fit hcalls
    | true =>
      have hinv : Inv { s with pager := { s.pager with curPartition := cur } } :=
        ⟨h.good, h.usable.setCur hvalid, fun _ => hgo rfl⟩
      exact hinv.look (hgo rfl) p
  | extend i =>
    rw [Growth.step]
    split
    . next p hget =>
      obtain ⟨pager', heq, hshaped, hsize, hcur, hblock⟩ := h.usable.shaped.extend (hcalm p hget)
      rw [heq]
      refine ⟨_, rfl, grown_of_blockAt ?_ (funext hblock), h.good, ⟨hshaped, ?_⟩, ?_⟩
      . show s.pager.size ≤ pager'.size
        rw [hsize]
        exact le_extendedSize_iff.2 (hcalm p hget)
      . show s.parts.Valid pager'.curPartition
        rw [hcur]
        exact h.usable.valid
      . intro _
        show pager'.curPartition ≠ pIndexInvalid
        rw [hcur]
        apply h.fit
        intro hnil
        rw [hnil] at hget
        contradiction
    . exact ⟨s, rfl, grown_of_blockAt (Nat.le_refl _) rfl, h⟩
  | look i =>
    rw [Growth.step]
    split
    . next p hget =>
      have hcur : s.pager.curPartition ≠ pIndexInvalid := by
        apply h.fit
        intro hnil
        rw [hnil] at hget
        contradiction
      have hinv : Inv { s with calls := s.calls.eraseIdx i } := ⟨h.good, h.usable, fun _ => hcur⟩
      exact hinv.look hcur p
    . exact ⟨s, rfl, grown_of_blockAt (Nat.le_refl _) rfl, h⟩

theorem Inv.step_astray (h : s.Inv) (hcalm : ¬ s.CalmStep op) : s.step op = .error .astray := by
  cases op with
  | call p => exact absurd trivial hcalm
  | look i => exact absurd trivial hcalm
  | extend i =>
    rw [Growth.step]
    split
    . next p hget =>
      have hext : ¬ Extends s.pager.size (p + 1) := by
        intro hext
        apply hcalm
        intro p' hget'
        rw [hget] at hget'
        cases hget'
        exact hext
      rw [h.usable.shaped.extend_astray hext]
      rfl
    . next hget =>
      apply absurd _ hcalm
      intro p hp
      exact absurd hp (hget p)

theorem Inv.grows_iff (h : s.Inv) (ops : List GrowthOp) : s.Grows ops ↔ s.Calm ops := by
  induction ops generalizing s with
  | nil => exact Iff.rfl
  | cons op ops ih =>
    by_cases hcalm : s.CalmStep op
    . obtain ⟨s', heq, hgrown, hinv⟩ := h.step hcalm
      constructor
      . rintro ⟨s'', heq', -, hgrows⟩
        refine ⟨hcalm, ?_⟩
        intro t ht
        rw [heq'] at ht
        cases ht
        rw [heq] at heq'
        cases heq'
        exact (ih hinv).1 hgrows
      . rintro ⟨-, hrest⟩
        exact ⟨s', heq, hgrown, (ih hinv).2 (hrest s' heq)⟩
    . refine iff_of_false ?_ fun h => hcalm h.1
      rintro ⟨s', heq, -⟩
      rw [h.step_astray hcalm] at heq
      contradiction

def boot (ps : Parts β) (part size : Nat) : Growth β := ⟨ps, pagerAlloc part size, []⟩

theorem boot_inv {part : Nat} (h : ps.Good) (hpart : ps.Valid part) (size : Nat) : (boot ps part size).Inv :=
  ⟨h, ⟨(pagerAlloc_shaped part size).1, hpart⟩, fun hcalls => absurd rfl hcalls⟩

instance (s : Growth β) (op : GrowthOp) : Decidable (s.CalmStep op) :=
  match op with
  | .call _ => isTrue trivial
  | .look _ => isTrue trivial
  | .extend i =>
    match hget : s.calls[i]? with
    | some (.small fPage) =>
      decidable_of_iff (Extends s.pager.size (fPage + 1)) (by simp [CalmStep, hget])
    | some (.extended _) => isTrue (by simp [CalmStep, hget])
    | none => isTrue (by simp [CalmStep, hget])

instance decidableCalm : (s : Growth β) → (ops : List GrowthOp) → Decidable (s.Calm ops)
  | _, [] => isTrue trivial
  | s, op :: ops =>
    match hstep : s.step op with
    | .ok s' =>
      have := decidableCalm s' ops
      decidable_of_iff (s.CalmStep op ∧ s'.Calm ops) (by simp [Calm, hstep])
    | .error _ => decidable_of_iff (s.CalmStep op) (by simp [Calm, hstep])

theorem boot_grows_iff (ps : Parts β) (h : ps.Good) (part : Nat) (hpart : ps.Valid part) (size : Nat)
    (ops : List GrowthOp) : (boot ps part size).Grows ops ↔ (boot ps part size).Calm ops :=
  (boot_inv h hpart size).grows_iff ops

theorem boot_grows_iff_twoCalls
    : (boot eightBlocks 0 4096).Grows [.call 70, .call 3, .extend 1, .look 1, .extend 0, .look 0] := by
  apply (boot_grows_iff eightBlocks eightBlocks_good 0 (Or.inr (by decide)) 4096 _).2
  decide

theorem step_smaller : (boot eightBlocks 0 4096).Grows [.call 5000, .call 2000, .extend 1, .look 1] ∧
      ¬ (boot eightBlocks 0 4096).Grows [.call 5000, .call 2000, .extend 1, .look 1, .extend 0] := by
  have hinv := boot_inv eightBlocks_good (Or.inr (by decide) : eightBlocks.Valid 0) 4096
  rw [hinv.grows_iff, hinv.grows_iff]
  decide

end Growth

end DefaultPager
