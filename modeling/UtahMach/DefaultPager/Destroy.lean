import UtahMach.DefaultPager.Moves

/-!
This module contains when the removal of a paging partition is safe.
-/

namespace DefaultPager

open Part Bitmap

open Vm (pageSize)

variable {β : Type} {pindex : Nat} {name : List (BitVec 8)} {io : List Move}

def Parts.withDisks (d : Nat → Nat → β) (ps : Parts β) : Parts β :=
  ps.mapIdx fun i part => part.map fun part => part.setDisk (d i)

namespace Store

variable {s s' : Store β} {d : Nat → Nat → β} {o p : Nat}

def withDisks (d : Nat → Nat → β) (s : Store β) : Store β := { s with parts := s.parts.withDisks d }

structure Ready (s : Store β) : Prop where
  good : s.parts.Good
  usable : ∀ (o : Nat) (ds : Object), s.objects[o]? = some ds → ds.dpager.Usable s.parts
  linked : Linked s.parts s.blockAt
  complete : ∀ i part off, s.parts.partAt i = some part → Bitmap.test part.bitmap off = true →
    ∃ o p, s.blockAt o p = ⟨off, i⟩

def marked (pindex : Nat) (s : Store β) : Store β :=
  match s.parts.partAt pindex with
  | none => s
  | some part => { s with parts := s.parts.setPart pindex { part with goingAway := true, locked := true } }

def Removed (pindex : Nat) (s s' : Store β) : KernReturn → Prop
  | .success => (∀ o p, s'.page o p = s.page o p) ∧ ∀ o p, (s'.blockAt o p).pIndex ≠ pindex
  | .failure => (∀ o p, s'.page o p = s.page o p) ∧
    (∀ i part, s'.parts.partAt i = some part → part.Exact ∧
      ∀ off, Bitmap.test part.bitmap off = true ↔ ∃ o p, s'.blockAt o p = ⟨off, i⟩) ∧
    ∀ part, s'.parts.partAt pindex = some part → part.locked = false
  | .invalidArgument => s' = s

def Removes (s : Store β) (name : List (BitVec 8)) (io : List Move) : Prop :=
  ∃ s' kr, destroyPagingPartition s name io = .ok (s', kr) ∧
    ∀ pindex, s.parts.findIdx? (isNamed name) = some pindex → Removed pindex s s' kr

theorem partAt_withDisks (i : Nat)
    : (s.withDisks d).parts.partAt i = (s.parts.partAt i).map fun part => part.setDisk (d i) := by
  show ((s.parts.mapIdx _)[i]?).join = (s.parts[i]?.join).map _
  rw [List.getElem?_mapIdx]
  cases s.parts[i]? with
  | none => rfl
  | some part => rfl

theorem map_withDisks (f : Option (Part β) → γ)
    (hf : ∀ (part : Part β) (disk : Nat → β), f (some (part.setDisk disk)) = f (some part))
    : (s.withDisks d).parts.map f = s.parts.map f := by
  apply List.ext_getElem?
  intro i
  show ((s.parts.mapIdx _).map f)[i]? = _
  rw [List.getElem?_map, List.getElem?_mapIdx, List.getElem?_map, Option.map_map]
  congr 1
  funext part
  cases part with
  | none => rfl
  | some part => exact hf part (d i)

theorem findIdx?_withDisks : (s.withDisks d).parts.findIdx? (isNamed name) = s.parts.findIdx? (isNamed name) := by
  have hmap := map_withDisks (s := s) (d := d) (isNamed name) fun _ _ => rfl
  have hfind := congrArg (fun l => l.findIdx? id) hmap
  rw [List.findIdx?_map, List.findIdx?_map] at hfind
  exact hfind

theorem partAt_of_findIdx? (h : s.parts.findIdx? (isNamed name) = some pindex)
    : ∃ part, s.parts.partAt pindex = some part := by
  obtain ⟨hlt, hnamed, -⟩ := List.findIdx?_eq_some_iff_getElem.1 h
  cases hpart : s.parts[pindex] with
  | none =>
    rw [hpart] at hnamed
    contradiction
  | some part =>
    refine ⟨part, ?_⟩
    rw [Parts.partAt, List.getElem?_eq_getElem hlt, hpart]
    rfl

section

variable {part : Part β} (h : s.parts.partAt pindex = some part)
include h

theorem marked_eq : s.marked pindex =
        { s with parts := s.parts.setPart pindex { part with goingAway := true, locked := true } } := by
  rw [marked, h]

theorem available_marked_withDisks
    : ((s.withDisks d).marked pindex).parts.available = (s.marked pindex).parts.available := by
  have h' : (s.withDisks d).parts.partAt pindex = some (part.setDisk (d pindex)) := by
    rw [partAt_withDisks, h]
    rfl
  rw [marked_eq h', marked_eq h]
  have hsum := available_setPart h' { part.setDisk (d pindex) with goingAway := true, locked := true }
  have hsum' := available_setPart h { part with goingAway := true, locked := true }
  have hmap : (s.withDisks d).parts.available = s.parts.available :=
    congrArg List.sum (map_withDisks (Parts.sizeOf available) fun _ _ => rfl)
  change _ + part.available = _ + 0 at hsum
  change _ + part.available = _ + 0 at hsum'
  rw [hmap, ← hsum'] at hsum
  exact Nat.add_right_cancel hsum

theorem page_marked (o p : Nat) : (s.marked pindex).page o p = s.page o p := by
  rw [marked_eq h]
  exact readBlock_setPart h fun _ _ => rfl

end

namespace Ready

theorem withDisks (h : s.Ready) (d : Nat → Nat → β) : (s.withDisks d).Ready := by
  have hpart (i : Nat) (part : Part β) (hi : (s.withDisks d).parts.partAt i = some part)
      : ∃ part', s.parts.partAt i = some part' ∧ part = part'.setDisk (d i) := by
    rw [partAt_withDisks, Option.map_eq_some_iff] at hi
    obtain ⟨part', hi, rfl⟩ := hi
    exact ⟨part', hi, rfl⟩
  refine ⟨⟨?_, ?_, ?_⟩, ?_, ⟨?_, h.linked.distinct⟩, ?_⟩
  . intro i part hi
    obtain ⟨part', hi', rfl⟩ := hpart i part hi
    exact (h.good.exact i part' hi').setDisk (d i)
  . intro i part hi
    obtain ⟨part', hi', rfl⟩ := hpart i part hi
    exact h.good.unlocked i part' hi'
  . intro i part hi
    obtain ⟨part', hi', -⟩ := hpart i part hi
    exact h.good.index i part' hi'
  . exact fun o ds ho => (h.usable o ds ho).of_length List.length_mapIdx
  . intro o p hb
    obtain ⟨part, hi, htest⟩ := h.linked.owned o p hb
    refine ⟨part.setDisk (d (s.blockAt o p).pIndex), ?_, htest⟩
    exact (partAt_withDisks _).trans (congrArg _ hi)
  . intro i part off hi htest
    obtain ⟨part', hi', rfl⟩ := hpart i part hi
    exact h.complete i part' off hi' htest

theorem leaving {part : Part β} (h : s.Ready) (hpart : s.parts.partAt pindex = some part)
    : Leaving pindex (s.marked pindex) := by
  rw [marked_eq hpart]
  have hlt := Parts.lt_length_of_part hpart
  have hother {i : Nat} {part' : Part β} (hi : (s.parts.setPart pindex
      { part with goingAway := true, locked := true }).partAt i = some part')
      : i = pindex ∧ part' = { part with goingAway := true, locked := true } ∨
        i ≠ pindex ∧ s.parts.partAt i = some part' := by
    by_cases heq : i = pindex
    . subst heq
      rw [Parts.part_setPart_self hlt] at hi
      exact Or.inl ⟨rfl, (Option.some.inj hi).symm⟩
    . rw [Parts.part_setPart_of_ne (Ne.symm heq)] at hi
      exact Or.inr ⟨heq, hi⟩
  refine ⟨?_, ?_, ?_, ?_, ?_, ?_, ?_⟩
  . intro i part' hi
    obtain ⟨-, rfl⟩ | ⟨-, hi⟩ := hother hi
    . obtain ⟨hbound, hwords, hfree, hout⟩ := h.good.exact pindex part hpart
      exact ⟨hbound, hwords, hfree, hout⟩
    . exact h.good.exact i part' hi
  . intro i part' hi
    obtain ⟨rfl, -⟩ | ⟨-, hi⟩ := hother hi
    . exact h.good.index i part hpart
    . exact h.good.index i part' hi
  . intro i part' hi hne
    obtain ⟨rfl, -⟩ | ⟨-, hi⟩ := hother hi
    . exact absurd rfl hne
    . exact h.good.unlocked i part' hi
  . exact ⟨_, Parts.part_setPart_self hlt, rfl, rfl⟩
  . exact fun o ds ho => (h.usable o ds ho).of_length Parts.length_setPart
  . exact ⟨fun o p hb => owned_setPart hpart (h.linked.owned o p hb) fun _ htest => htest, h.linked.distinct⟩
  . intro i part' off hi htest
    obtain ⟨rfl, rfl⟩ | ⟨-, hi⟩ := hother hi
    . exact h.complete i part off hpart htest
    . exact h.complete i part' off hi htest

theorem destroyPagingPartition_eq {part : Part β} {ok : Bool} (h : s.Ready)
    (hfind : s.parts.findIdx? (isNamed name) = some pindex) (hpart : s.parts.partAt pindex = some part)
    (heq : reallocObjects pindex s.objects (s.marked pindex).parts io = .ok (ps', objects', ok))
    : DefaultPager.destroyPagingPartition s name io = if ok then .ok (⟨ps'.set pindex none, objects'⟩, .success)
        else
          match ps'.partAt pindex with
          | none => .error .astray
          | some part => .ok (⟨ps'.setPart pindex { part with goingAway := false }, objects'⟩, .failure) := by
  rw [marked_eq hpart] at heq
  have hlock : { part with goingAway := true }.lock = .ok { part with goingAway := true, locked := true } :=
    lock_eq (h.good.unlocked pindex part hpart)
  rw [DefaultPager.destroyPagingPartition, hfind]
  dsimp only
  rw [hpart]
  dsimp only
  rw [hlock]
  show (reallocObjects pindex s.objects (s.parts.setPart pindex _) io >>= _) = _
  rw [heq]
  rfl

theorem destroyPagingPartition (h : s.Ready) (hfind : s.parts.findIdx? (isNamed name) = some pindex)
    (hio : Succeed io) : (∃ s', Moves pindex (takeMoves (s.held pindex) io) (s.marked pindex) s' ∧
          (∀ o p, (s'.blockAt o p).pIndex ≠ pindex) ∧ s.held pindex ≤ (s.marked pindex).parts.available ∧
          DefaultPager.destroyPagingPartition s name io = .ok (⟨s'.parts.set pindex none, s'.objects⟩, .success)) ∨
        ∃ s' part, (s.marked pindex).parts.available < s.held pindex ∧
          Moves pindex (takeMoves (s.marked pindex).parts.available io) (s.marked pindex) s' ∧
          s'.parts.partAt pindex = some part ∧ part.locked = true ∧ DefaultPager.destroyPagingPartition s name io =
            .ok (⟨s'.parts.setPart pindex { part with goingAway := false }, s'.objects⟩, .failure) := by
  obtain ⟨part, hpart⟩ := partAt_of_findIdx? hfind
  have hleaving := h.leaving hpart
  have hobjects : (s.marked pindex).objects = [] ++ s.objects := by
    rw [marked_eq hpart]
    rfl
  have hheld : (s.marked pindex).held pindex = s.held pindex := by
    rw [marked_eq hpart]
    rfl
  obtain ⟨n, ps', objects', ok, heq, hmoves, hok, hfailed⟩ :=
    hleaving.reallocObjects hobjects (fun ds hds => absurd hds List.not_mem_nil) hio
  rw [List.nil_append] at hmoves hok
  have hleaving' := hmoves.leaving hleaving
  have hcount := hmoves.held hleaving
  have havailable := hmoves.available hleaving
  rw [length_takeMoves, hheld] at hcount
  rw [length_takeMoves] at havailable
  rw [h.destroyPagingPartition_eq hfind hpart heq]
  cases ok with
  | true =>
    have hzero := hleaving'.held_eq_zero_iff.2 (hok rfl)
    rw [hzero, Nat.zero_add] at hcount
    subst hcount
    refine Or.inl ⟨⟨ps', objects'⟩, hmoves, ?_, ?_, rfl⟩
    . intro o p
      rw [Store.blockAt]
      cases ho : objects'[o]? with
      | none => exact Ne.symm (Nat.ne_of_lt hleaving.pindex_lt)
      | some ds => exact hok rfl ds (List.mem_of_getElem? ho) p
    . omega
  | false =>
    obtain ⟨hfull, ds, hds, hstays⟩ := hfailed rfl
    have hpos : held pindex ⟨ps', objects'⟩ ≠ 0 := by
      intro hzero
      exact hstays (hleaving'.held_eq_zero_iff.1 hzero ds hds)
    rw [hfull, Nat.zero_add] at havailable
    subst havailable
    obtain ⟨part', hpart', -, hlocked⟩ := hleaving'.leaves
    refine Or.inr ⟨⟨ps', objects'⟩, part', ?_, hmoves, hpart', hlocked, ?_⟩
    . omega
    . rw [hpart']
      rfl

end Ready

theorem page_remove (h : (s.blockAt o p).pIndex ≠ pindex)
    : page ⟨s.parts.set pindex none, s.objects⟩ o p = s.page o p := by
  show Parts.readBlock _ (s.blockAt o p) = Parts.readBlock _ (s.blockAt o p)
  rw [Parts.readBlock, Parts.readBlock, Parts.partAt, Parts.partAt, List.getElem?_set_ne (Ne.symm h)]

theorem blockAt_marked : (s.marked pindex).blockAt o p = s.blockAt o p := by
  rw [marked]
  split
  . rfl
  . rfl

theorem Ready.lost {part : Part β} (h : s.Ready)
    (hpart : s.parts.partAt pindex = some part) (hdisk : ∀ a, part.disk a = b1)
    (hothers : ∀ i q, i ≠ pindex → s.parts.partAt i = some q → ∀ a, q.disk a = b0)
    (hmoves : Moves pindex ios (s.marked pindex) s1) (hshort : ∃ m ∈ ios, ¬ Whole m)
    (hpages : ∀ o p, s1.page o p = s.page o p) : b0 = b1 := by
  have hleaving := h.leaving hpart
  have hblank : Leaving.Blank pindex b0 (s.marked pindex) := by
    intro i q off hq hne _ _
    rw [marked_eq hpart] at hq
    rw [Parts.part_setPart_of_ne (Ne.symm hne)] at hq
    exact hothers i q hne hq _
  obtain ⟨o, p, x, hfrom, hpage, hx⟩ := hmoves.lost hleaving hblank hshort
  rw [blockAt_marked] at hfrom
  have hread : s.page o p = some fun k : Fin pageSize => part.disk (ptoa (s.blockAt o p).pOffset + k) :=
    readBlock_of_part (hleaving.ne_noBlock_of_from hfrom) (hfrom ▸ hpart)
  rw [hpages, hread] at hpage
  rw [← hx, ← Option.some.inj hpage]
  exact hdisk _

variable [Nontrivial β]

theorem test_create {disk : Nat → Nat} : test (create [] (8 * 4096) disk).bitmap off = false := test_replicate_zero

def twoPages : Store Nat where
  parts := some (((Part.create [] (8 * 4096) fun _ => 1).take 0).take 1) :: eightBlocks
  objects := [⟨⟨.direct [⟨1, 0⟩, noBlock], 2, 0⟩, 0⟩, ⟨⟨.direct [⟨0, 0⟩], 1, 0⟩, 0⟩]

theorem blockAt_twoPages (hb : twoPages.blockAt o p ≠ noBlock)
    : o < 2 ∧ p = 0 ∧ twoPages.blockAt o p = ⟨1 - o, 0⟩ := by
  match o, p with
  | 0, 0 => exact ⟨Nat.zero_lt_two, rfl, rfl⟩
  | 1, 0 => exact ⟨Nat.one_lt_two, rfl, rfl⟩
  | 0, 1 | 0, p + 2 | 1, p + 1 | o + 2, p => exact absurd rfl hb

theorem partAt_twoPages {i : Nat} {part : Part Nat} (h : twoPages.parts.partAt i = some part)
    : i = 0 ∧ part = ((create [] (8 * 4096) fun _ => 1).take 0).take 1 ∨
      i = 1 ∧ part = create [] (8 * 4096) fun _ => 0 := by
  match i with
  | 0 =>
    cases h
    exact .inl ⟨rfl, rfl⟩
  | i + 1 =>
    obtain ⟨rfl, hpart⟩ := eightBlocks_part h
    exact .inr ⟨rfl, hpart⟩

theorem twoPages_ready : twoPages.Ready := by
  have hempty := create_exact [] (8 * 4096) fun _ => 1
  have hzero : 0 < (create [] (8 * 4096) fun _ => 1).totalSize := by decide
  have hfirst := hempty.take hzero test_create
  have htest (off : Nat) : test ((create [] (8 * 4096) fun _ => 1).take 0).bitmap off = decide (0 = off) := by
    have hset := test_set (hempty.lt_bits hzero) (j := off)
    rwa [test_create, Bool.or_false] at hset
  refine ⟨⟨?_, ?_, ?_⟩, ?_, ⟨?_, ?_⟩, ?_⟩
  . intro i part hi
    obtain ⟨-, rfl⟩ | ⟨-, rfl⟩ := partAt_twoPages hi
    . exact hfirst.take (by decide) (htest 1)
    . exact create_exact _ _ _
  . intro i part hi
    obtain ⟨-, rfl⟩ | ⟨-, rfl⟩ := partAt_twoPages hi
    . rfl
    . rfl
  . intro i part hi
    obtain ⟨rfl, -⟩ | ⟨rfl, -⟩ := partAt_twoPages hi
    . decide
    . decide
  . intro o ds ho
    match o with
    | 0 =>
      cases ho
      refine ⟨⟨by decide, ⟨by decide, rfl⟩, ?_⟩, Or.inr (by decide)⟩
      intro p hp
      match p with
      | p + 2 => rfl
    | 1 =>
      cases ho
      refine ⟨⟨by decide, ⟨by decide, rfl⟩, ?_⟩, Or.inr (by decide)⟩
      intro p hp
      match p with
      | p + 1 => rfl
    | o + 2 => cases ho
  . intro o p hb
    obtain ⟨ho, -, hblock⟩ := blockAt_twoPages hb
    refine ⟨_, by rw [hblock]; rfl, ?_⟩
    rw [hblock]
    change test (set _ 1) (1 - o) = true
    rw [test_set (hfirst.lt_bits (by decide)), htest, Bool.or_eq_true, decide_eq_true_iff, decide_eq_true_iff]
    omega
  . intro o p o' p' hb heq
    obtain ⟨ho, rfl, hblock⟩ := blockAt_twoPages hb
    obtain ⟨ho', rfl, hblock'⟩ := blockAt_twoPages (heq ▸ hb)
    rw [hblock, hblock', Block.mk.injEq] at heq
    exact ⟨by omega, rfl⟩
  . intro i part off hi hset
    obtain ⟨rfl, rfl⟩ | ⟨rfl, rfl⟩ := partAt_twoPages hi
    . change test (set _ 1) off = true at hset
      rw [test_set (hfirst.lt_bits (by decide)), htest, Bool.or_eq_true, decide_eq_true_iff, decide_eq_true_iff] at hset
      rcases hset with rfl | rfl
      . exact ⟨0, 0, rfl⟩
      . exact ⟨1, 0, rfl⟩
    . rw [test_create] at hset
      contradiction

def onePage (others : Parts Nat) : Store Nat where
  parts := some ((Part.create [] (8 * 4096) fun _ => 1).take 0) :: others
  objects := [⟨⟨.direct [⟨0, 0⟩], 1, 0⟩, 0⟩]

end Store

end DefaultPager
