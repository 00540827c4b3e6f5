import UtahMach.DefaultPager.Store

/-!
This module contains which blocks belong to which pages.
-/

namespace DefaultPager

open Parts Bitmap

open Vm (pageSize)

variable {β : Type} {ps : Parts β} {i off : Nat} {part part' : Part β} {b : Block}

def Parts.readBlock (ps : Parts β) (b : Block) : Option (Page β) :=
  if b = noBlock then none
  else (ps.partAt b.pIndex).map fun part (i : Fin pageSize) => part.disk (ptoa b.pOffset + i)

def Owned (ps : Parts β) (b : Block) : Prop :=
  ∃ part, ps.partAt b.pIndex = some part ∧ Bitmap.test part.bitmap b.pOffset = true

structure Linked (ps : Parts β) (blocks : Nat → Nat → Block) : Prop where
  owned : ∀ o p, blocks o p ≠ noBlock → Owned ps (blocks o p)
  distinct : ∀ o p o' p', blocks o p ≠ noBlock → blocks o p = blocks o' p' → o = o' ∧ p = p'

theorem readBlock_noBlock (ps : Parts β) : ps.readBlock noBlock = none := if_pos rfl

theorem readBlock_of_part (hb : b ≠ noBlock) (hi : ps.partAt b.pIndex = some part)
    : ps.readBlock b = some fun i : Fin pageSize => part.disk (ptoa b.pOffset + i) := by
  rw [readBlock, if_neg hb, hi]
  rfl

section

variable (hi : ps.partAt i = some part)
include hi

theorem readBlock_setPart (hdisk : b.pIndex = i → ∀ k : Fin pageSize,
      part'.disk (ptoa b.pOffset + k) = part.disk (ptoa b.pOffset + k))
    : (ps.setPart i part').readBlock b = ps.readBlock b := by
  rw [readBlock, readBlock]
  by_cases heq : b.pIndex = i
  . rw [heq, part_setPart_self (lt_length_of_part hi), hi]
    split
    . rfl
    . exact congrArg some (funext fun k => hdisk heq k)
  . rw [part_setPart_of_ne (Ne.symm heq)]

theorem readBlock_written {page : Page β} (hb : b = ⟨off, i⟩) (hne : b ≠ noBlock)
    : (ps.setPart i (part.setDisk (written page (ptoa off) 0 part.disk))).readBlock b = some page := by
  subst hb
  rw [readBlock_of_part hne (part_setPart_self (lt_length_of_part hi))]
  congr 1
  funext k
  show written page (ptoa off) 0 part.disk (ptoa off + k) = page k
  rw [written, dif_pos (by omega), if_pos (by omega)]
  congr 1
  apply Fin.ext
  show ptoa off + k - ptoa off = k
  omega

theorem readBlock_written_of_ne {page : Page β} (hoff : off < 2 ^ 20)
    (hb : b.pIndex = i → b.pOffset < 2 ^ 20 ∧ b.pOffset ≠ off)
    : (ps.setPart i (part.setDisk (written page (ptoa off) 0 part.disk))).readBlock b = ps.readBlock b := by
  apply readBlock_setPart hi
  intro heq k
  obtain ⟨hlt, -⟩ := hb heq
  have hk := k.isLt
  change k.val < 4096 at hk
  rw [ptoa_eq hoff, ptoa_eq hlt]
  show written page (off * 4096) 0 part.disk (b.pOffset * 4096 + k) = _
  rw [written]
  split
  . next h =>
    change b.pOffset * 4096 + k - off * 4096 < 4096 at h
    rw [if_neg (by omega)]
  . rfl

theorem owned_setPart (howned : Owned ps b) (hbits : b.pIndex = i → test part.bitmap b.pOffset = true →
      test part'.bitmap b.pOffset = true) : Owned (ps.setPart i part') b := by
  obtain ⟨q, hq, htest⟩ := howned
  by_cases heq : b.pIndex = i
  . subst heq
    rw [hi] at hq
    cases hq
    exact ⟨part', part_setPart_self (lt_length_of_part hi), hbits rfl htest⟩
  . exact ⟨q, (part_setPart_of_ne (Ne.symm heq)).trans hq, htest⟩

end

theorem Owned.lt (h : Owned ps b) (hgood : ∀ i part, ps.partAt i = some part → part.Exact) : b.pOffset < 2 ^ 20 := by
  obtain ⟨part, hpart, htest⟩ := h
  have hexact := hgood _ part hpart
  exact Nat.lt_trans (hexact.lt_of_test htest) hexact.bound

namespace Linked

variable {blocks blocks' : Nat → Nat → Block} {o p : Nat}

section

variable (h : Linked ps blocks)
include h

theorem setDisk (hi : ps.partAt i = some part) (disk : Nat → β) : Linked (ps.setPart i (part.setDisk disk)) blocks :=
  ⟨fun o p hb => owned_setPart hi (h.owned o p hb) fun _ htest => htest, h.distinct⟩

theorem take (hexact : part.Exact) (hi : ps.partAt i = some part)
    (hoff : off < part.totalSize) (hclear : test part.bitmap off = false)
    (hblocks : ∀ o' p', blocks' o' p' = if o = o' ∧ p = p' then ⟨off, i⟩ else blocks o' p')
    : Linked (ps.setPart i (part.take off)) blocks' := by
  have hbits := hexact.lt_bits hoff
  have htest (j : Nat) : test (part.take off).bitmap j = (decide (off = j) || test part.bitmap j) := test_set hbits
  -- no page has had the block
  have hfree (o' p' : Nat) (hb : blocks o' p' ≠ noBlock) : blocks o' p' ≠ ⟨off, i⟩ := by
    intro heq
    obtain ⟨q, hq, hset⟩ := h.owned o' p' hb
    rw [heq, hi] at hq
    cases hq
    rw [heq, hclear] at hset
    contradiction
  refine ⟨?_, ?_⟩
  . intro o' p' hb
    rw [hblocks] at hb ⊢
    by_cases heq : o = o' ∧ p = p'
    . rw [if_pos heq]
      refine ⟨part.take off, part_setPart_self (lt_length_of_part hi), ?_⟩
      rw [htest, decide_eq_true rfl, Bool.true_or]
    . rw [if_neg heq] at hb ⊢
      apply owned_setPart hi (h.owned o' p' hb)
      intro _ hset
      rw [htest, hset, Bool.or_true]
  . intro o1 p1 o2 p2 hb heq
    rw [hblocks] at hb heq
    rw [hblocks o2 p2] at heq
    by_cases h1 : o = o1 ∧ p = p1
    . by_cases h2 : o = o2 ∧ p = p2
      . exact ⟨h1.1.symm.trans h2.1, h1.2.symm.trans h2.2⟩
      . rw [if_pos h1, if_neg h2] at heq
        rw [if_pos h1, heq] at hb
        exact absurd heq.symm (hfree o2 p2 hb)
    . rw [if_neg h1] at hb heq
      by_cases h2 : o = o2 ∧ p = p2
      . rw [if_pos h2] at heq
        exact absurd heq (hfree o1 p1 hb)
      . rw [if_neg h2] at heq
        exact h.distinct o1 p1 o2 p2 hb heq

theorem releaseFree (hexact : part.Exact) (hi : ps.partAt i = some part)
    (hset : test part.bitmap off = true) (hfree : ∀ o p, blocks o p ≠ noBlock → blocks o p ≠ ⟨off, i⟩)
    : Linked (ps.setPart i (part.release off)) blocks := by
  refine ⟨?_, h.distinct⟩
  intro o p hb
  apply owned_setPart hi (h.owned o p hb)
  intro hindex hset'
  have hne : off ≠ (blocks o p).pOffset := by
    rintro rfl
    apply hfree o p hb
    rw [← hindex]
  show test (clear part.bitmap off) (blocks o p).pOffset = true
  rw [test_clear (hexact.lt_bits (hexact.lt_of_test hset)), decide_eq_false hne, hset']
  rfl

theorem forget (hblocks : ∀ o' p', blocks' o' p' = if o = o' ∧ p = p' then noBlock else blocks o' p')
    : Linked ps blocks' := by
  refine ⟨?_, ?_⟩
  . intro o' p' hb
    rw [hblocks] at hb ⊢
    split at hb
    . exact absurd rfl hb
    . next hne =>
      rw [if_neg hne]
      exact h.owned o' p' hb
  . intro o1 p1 o2 p2 hb heq
    rw [hblocks] at hb heq
    rw [hblocks o2 p2] at heq
    split at hb
    . exact absurd rfl hb
    . next h1 =>
      rw [if_neg h1] at heq
      split at heq
      . exact absurd heq hb
      . exact h.distinct o1 p1 o2 p2 hb heq

theorem release (hgood : ps.Good) (hi : ps.partAt (blocks o p).pIndex = some part) (hb : blocks o p ≠ noBlock)
    (hblocks : ∀ o' p', blocks' o' p' = if o = o' ∧ p = p' then noBlock else blocks o' p')
    : Linked (ps.setPart (blocks o p).pIndex (part.release (blocks o p).pOffset)) blocks' := by
  obtain ⟨q, hq, hset⟩ := h.owned o p hb
  rw [hi] at hq
  cases hq
  apply (h.forget hblocks).releaseFree (hgood.exact _ part hi) hi hset
  intro o' p' hb' heq
  rw [hblocks] at hb' heq
  split at hb'
  . exact absurd rfl hb'
  . next hne =>
    rw [if_neg hne] at heq
    exact hne (h.distinct o p o' p' hb heq.symm)

theorem readBlock_of_ne (hgood : ps.Good) (page : Page β)
    (hi : ps.partAt (blocks o p).pIndex = some part) (hb : blocks o p ≠ noBlock) (hne : ¬ (o = o' ∧ p = p'))
    : (ps.setPart (blocks o p).pIndex
          (part.setDisk (written page (ptoa (blocks o p).pOffset) 0 part.disk))).readBlock (blocks o' p') =
        ps.readBlock (blocks o' p') := by
  by_cases hb' : blocks o' p' = noBlock
  . rw [hb', readBlock_noBlock, readBlock_noBlock]
  . apply readBlock_written_of_ne hi ((h.owned o p hb).lt hgood.exact)
    intro hindex
    refine ⟨(h.owned o' p' hb').lt hgood.exact, ?_⟩
    intro hoff
    apply hne
    apply h.distinct o p o' p' hb
    cases hx : blocks o p
    cases hy : blocks o' p'
    rw [hx, hy] at hindex hoff
    dsimp only at hindex hoff
    rw [hindex, hoff]

end

end Linked

end DefaultPager
