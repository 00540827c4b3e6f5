import UtahMach.Kern.Zalloc.Slots

/-!
This module contains what the operations of a zone keep, besides the collection of pages.
-/

namespace Kern.Zalloc

open List (cons_append length_append mem_cons perm_middle)

open Extent

open Vm (pageSize roundPage)
open Function (update update_of_ne update_self)

variable {c : ZoneMap} {slot slot' : Slot} {others : List Extent} {m m' : Shared} {mem' : Nat → Nat}
  {e : Extent} {x y addr size : Nat}

theorem link_update (mem : Nat → Nat) (a x : Nat) : link (update mem a x) = update (link mem) a (ptr x) := by
  funext b
  unfold link
  by_cases h : b = a
  . subst h
    rw [update_self, update_self]
  . rw [update_of_ne h, update_of_ne h]

theorem SpaceOk.congr {mem : Nat → Nat} {table : Nat → PageEntry} (h : SpaceOk c m)
    : SpaceOk c { m with mem := mem, table := table } := { h with }

theorem SpaceOk.mod_eq (h : SpaceOk c m) (hfits : size + max m.endOfSpace c.maxAddress < 2 ^ 32)
    : (m.nextSpace + size) % 2 ^ 32 = m.nextSpace + size := by
  have hle := h.le
  apply Nat.mod_eq_of_lt
  omega

theorem ptr_pos (h : x ≠ 0) : ptr x = some x := if_neg h

theorem Slot.extents_perm (hzone : z.elemSize = slot.zone.elemSize)
    (hperm : (l ++ l').Perm (slot.inUse ++ slot.free)) : (Slot.extents ⟨z, l, l'⟩).Perm slot.extents := by
  rw [Slot.extents, Slot.extents, Zone.extents, Zone.extents, hzone]
  exact hperm.map _

theorem touching_perm (h : es.Perm fs) (i : Nat) : c.touching es i = c.touching fs i :=
  h.countP_eq _

namespace Placed

variable {held : Nat → Bool} {e' : Extent}

section

variable (h : Placed c held e) (hlo : e.addr ≤ e'.addr) (hhi : e'.addr + e'.size ≤ e.addr + e.size)
  (hpos : 0 < e'.size)
include h hlo hhi hpos

theorem on_of_sub {i : Nat} (hon : c.On i e') : c.On i e := by
  obtain ⟨hinside, htouch⟩ := hon
  have hside := h.side
  rw [ZoneMap.Outside] at hinside hside
  rw [ZoneMap.Touches, ZoneMap.zonePage, ZoneMap.zonePage, ZoneMap.pageSize_eq] at htouch
  rw [ZoneMap.On, ZoneMap.Outside, ZoneMap.Touches, ZoneMap.zonePage, ZoneMap.zonePage, ZoneMap.pageSize_eq]
  omega

theorem sub : Placed c held e' := by
  have haddr := h.pos
  have hbound := h.bound
  have hside := h.side
  rw [ZoneMap.Outside] at hside
  refine ⟨by omega, by omega, ?_, fun i hon => h.held i (h.on_of_sub hlo hhi hpos hon)⟩
  rw [ZoneMap.Outside]
  omega

end

theorem inside (h : Placed c held e) (hmin : c.minAddress ≤ a) (hmax : a < c.maxAddress) (ha : e.Has a)
    : ¬ c.Outside e.addr e.size := by
  obtain houtside | hinside := h.side
  . have hlo := ha.1
    have hhi := ha.2
    omega
  . exact hinside

end Placed

theorem SpaceOk.inside (h : SpaceOk c m) (hmin : c.minAddress ≤ a) (hmax : a < c.maxAddress)
    (ha : m.space.Has a) : ¬ c.Outside m.space.addr m.space.size := by
  have hside := h.side
  have hlo := ha.1
  have hhi := ha.2
  rw [ZoneMap.Outside]
  rw [Shared.space] at *
  dsimp only at *
  omega

structure Room (c : ZoneMap) (slot : Slot) (others : List Extent) (m : Shared) (e : Extent) : Prop where
  apart : ∀ a, Extent.count (m.space :: e :: slot.extents ++ others) a ≤ 1
  placed : Placed c m.held e
  away : Away c slot.zone m e

theorem Room.sub {f : Extent} (hroom : Room c slot others m e) (hlo : e.addr ≤ f.addr)
    (hhi : f.addr + f.size ≤ e.addr + e.size) (hpos : 0 < f.size) : Room c slot others m f := by
  refine ⟨?_, hroom.placed.sub hlo hhi hpos, ?_⟩
  . intro a
    have hcount := hroom.apart a
    simp only [cons_append, count_cons] at hcount ⊢
    by_cases hf : f.Has a
    . have he : e.Has a := ⟨Nat.le_trans hlo hf.1, Nat.lt_of_lt_of_le hf.2 hhi⟩
      rw [if_pos he] at hcount
      rw [if_pos hf]
      exact hcount
    . rw [if_neg hf]
      omega
  . intro hcollected hlt i hon hon'
    exact hroom.away hcollected hlt i hon (hroom.placed.on_of_sub hlo hhi hpos hon')

theorem Room.not_has {f : Extent} (hroom : Room c slot others m e) (hf : f ∈ slot.extents ++ others)
    (hpos : 0 < f.size) : ¬ e.Has f.addr := by
  intro he
  have hcount := hroom.apart f.addr
  have hfirst := count_pos hf ⟨Nat.le_refl _, Nat.lt_add_of_pos_right hpos⟩
  rw [cons_append, cons_append, count_cons, count_cons, if_pos he] at hcount
  omega

theorem Room.rest {k : Nat} {mem : Nat → Nat} {table : Nat → PageEntry} (hroom : Room c slot others m ⟨x, size⟩)
    (hk : k < size) (hextents : slot'.extents.Perm (⟨x, k⟩ :: slot.extents))
    (hzone : slot'.zone.collected → slot.zone.collected)
    : Room c slot' others { m with mem := mem, table := table } ⟨x + k, size - k⟩ := by
  have hlo : x ≤ x + k := Nat.le_add_right _ _
  have hhi : x + k + (size - k) ≤ x + size := by omega
  refine ⟨?_, hroom.placed.sub hlo hhi (Nat.sub_pos_of_lt hk), ?_⟩
  . intro a
    have hcount := hroom.apart a
    have hcut := count_cut x (Nat.le_of_lt hk) (slot.extents ++ others) a
    have hperm := count_perm (a := a) (hextents.append_right others)
    simp only [cons_append, count_cons] at hcount hcut hperm ⊢
    change (if m.space.Has a then 1 else 0) + _ ≤ 1
    omega
  . intro hcollected hlt i hon hon'
    exact hroom.away (hzone hcollected) hlt i hon (hroom.placed.on_of_sub hlo hhi (Nat.sub_pos_of_lt hk) hon')

abbrev Kept (c : ZoneMap) (others : List Extent) (m : Shared) (z : Zone) (inUse : List Nat) (m' : Shared) : Prop :=
  ∃ slot, z = slot.zone ∧ slot.inUse = inUse ∧ Good c slot others m' ∧ Frame c others m m'

namespace Good

section

variable (h : Good c slot others m)
include h

theorem rearrange (hperm : (l ++ l').Perm (slot.inUse ++ slot.free)) (hlinked : Linked (link mem') (ptr x) l')
    : Good c ⟨{ slot.zone with freeElements := x }, l, l'⟩ others { m with mem := mem' } := by
  have hextents := Slot.extents_perm (z := { slot.zone with freeElements := x }) rfl hperm
  have hlen := hperm.length_eq
  rw [length_append, length_append] at hlen
  refine ⟨hlinked, h.size_pos, h.others_pos, ?_, ?_, ?_, ?_, ?_, h.fits, h.space.congr⟩
  . show slot.zone.curSize = slot.zone.elemSize * (l.length + l'.length)
    rw [h.size, hlen]
  . intro a
    apply Nat.le_trans _ (h.apart a)
    exact Nat.le_of_eq (count_perm ((hextents.cons _).append_right others))
  . intro e he
    exact h.placed e ((hextents.append_right others).mem_iff.1 he)
  . exact h.exact.congr fun i => touching_perm (hextents.append_right others) i
  . intro e he
    exact h.away e (hextents.mem_iff.1 he)

theorem insert (hroom : Room c slot others m ⟨x, slot.zone.elemSize⟩)
    (hperm : (l ++ l').Perm (x :: (slot.inUse ++ slot.free))) (hlinked : Linked (link mem') (ptr y) l')
    : Good c ⟨{ slot.zone with freeElements := y, curSize := slot.zone.curSize + slot.zone.elemSize }, l, l'⟩ others
        { m with mem := mem', table := c.zonePageAlloc x slot.zone.elemSize m.table } := by
  have hextents : (slot.zone.extents (l ++ l')).Perm (⟨x, slot.zone.elemSize⟩ :: slot.extents) := hperm.map _
  have hlen := hperm.length_eq
  rw [length_append, List.length_cons, length_append] at hlen
  refine ⟨hlinked, h.size_pos, h.others_pos, ?_, ?_, ?_, ?_, ?_, h.fits, h.space.congr⟩
  . show slot.zone.curSize + slot.zone.elemSize = slot.zone.elemSize * (l.length + l'.length)
    rw [h.size, hlen, Nat.mul_succ]
  . intro a
    apply Nat.le_trans _ (hroom.apart a)
    exact Nat.le_of_eq (count_perm ((hextents.cons _).append_right others))
  . intro e he
    obtain rfl | he := mem_cons.1 ((hextents.append_right others).mem_iff.1 he)
    . exact hroom.placed
    . exact h.placed e he
  . have halloc := h.exact.alloc (e := ⟨x, slot.zone.elemSize⟩) fun i => by
      apply ZoneMap.touching_le
      . exact List.forall_mem_cons.2 ⟨h.size_pos, fun e he => h.pos he⟩
      . intro a
        have hcount := hroom.apart a
        rw [cons_append, count_cons] at hcount
        exact Nat.le_trans (Nat.le_add_left _ _) hcount
    exact halloc.congr fun i => touching_perm (hextents.append_right others) i
  . intro e he
    obtain rfl | he := mem_cons.1 (hextents.mem_iff.1 he)
    . exact hroom.away
    . exact h.away e he

theorem remove (hfree : slot.free = a :: l) : a ≠ 0 ∧ slot.zone.freeElements = a ∧
        Good c ⟨{ slot.zone with freeElements := m.mem a }, a :: slot.inUse, l⟩ others m := by
  have hlinked := h.linked
  rw [hfree, Linked.cons_iff] at hlinked
  obtain ⟨hhead, hrest⟩ := hlinked
  rw [ptr] at hhead
  split at hhead
  . contradiction
  . next hne =>
    injection hhead with hhead
    refine ⟨hhead ▸ hne, hhead, h.rearrange ?_ hrest⟩
    rw [hfree]
    exact perm_middle.symm

theorem free_nil_iff : slot.free = [] ↔ slot.zone.freeElements = 0 := by
  have hlinked := h.linked
  cases hfree : slot.free with
  | nil =>
    rw [hfree, Linked.nil_iff, ptr] at hlinked
    split at hlinked
    . next heq => exact iff_of_true rfl heq
    . contradiction
  | cons a l =>
    obtain ⟨hne, heq, -⟩ := h.remove hfree
    rw [heq]
    exact iff_of_false (List.cons_ne_nil a l) hne

theorem linked_add (hx : x ≠ 0) (hmem : x ∉ slot.free)
    : Linked (link (update m.mem x slot.zone.freeElements)) (ptr x) (x :: slot.free) := by
  rw [Linked.cons_iff, link_update, update_self]
  exact ⟨ptr_pos hx, h.linked.update_of_notMem hmem _⟩

theorem addr_pos (ha : a ∈ slot.inUse ∨ a ∈ slot.free) : a ≠ 0 := by
  have hplaced := h.placed ⟨a, slot.zone.elemSize⟩ (List.mem_append_left _ (Slot.mem_extents.2 ⟨a, ha, rfl⟩))
  exact Nat.ne_of_gt hplaced.pos

theorem zfree (hx : x ∈ slot.inUse)
    : ∃ slot', Zalloc.zfree slot.zone x m = (slot'.zone, { m with mem := update m.mem x slot.zone.freeElements }) ∧
        slot'.inUse = slot.inUse.erase x ∧
        Good c slot' others { m with mem := update m.mem x slot.zone.freeElements } ∧
        Frame c others m { m with mem := update m.mem x slot.zone.freeElements } := by
  have hnodup := h.nodup
  have hnot : x ∉ slot.free := by
    intro hfree
    exact (List.nodup_append.1 hnodup).2.2 x hx x hfree rfl
  refine ⟨⟨{ slot.zone with freeElements := x }, slot.inUse.erase x, x :: slot.free⟩, rfl, rfl, ?_, ?_⟩
  . apply h.rearrange _ (h.linked_add (h.addr_pos (Or.inl hx)) hnot)
    apply perm_middle.trans
    exact (List.perm_cons_erase hx).symm.append_right _
  . refine ⟨?_, fun _ hlt hon => Or.inl ⟨hlt, hon⟩, Nat.le_max_left ..⟩
    intro e he
    exact update_of_ne (h.addr_notMem (Or.inl hx) he) _ _

end

theorem zcramElements (n : Nat) (h : Good c slot others m) (hroom : 0 < n → Room c slot others m ⟨x, size⟩)
    (hn : n * slot.zone.elemSize ≤ size)
    : Kept c others m (Zalloc.zcramElements c n x slot.zone m).1 slot.inUse
      (Zalloc.zcramElements c n x slot.zone m).2 := by
  induction n generalizing slot m x size with
  | zero => exact ⟨slot, rfl, rfl, h, .refl⟩
  | succ n ih =>
    obtain ⟨-, hplaced, -⟩ := hroom (Nat.succ_pos n)
    rw [Nat.succ_mul] at hn
    have hpos := h.size_pos
    have hle : slot.zone.elemSize ≤ size := by omega
    have hroom1 : Room c slot others m ⟨x, slot.zone.elemSize⟩ :=
      (hroom (Nat.succ_pos n)).sub (Nat.le_refl _) (Nat.add_le_add_left hle _) hpos
    have hhas : (⟨x, slot.zone.elemSize⟩ : Extent).Has x := ⟨Nat.le_refl _, Nat.lt_add_of_pos_right hpos⟩
    have hnot : x ∉ slot.free := by
      intro hfree
      have hmem := Slot.mem_extents.2 ⟨x, Or.inr hfree, rfl⟩
      exact hroom1.not_has (List.mem_append_left _ hmem) hpos hhas
    have h1 := h.insert hroom1 perm_middle (h.linked_add (Nat.ne_of_gt hplaced.pos) hnot)
    have hframe1 : Frame c others m { m with
        mem := update m.mem x slot.zone.freeElements
        table := c.zonePageAlloc x slot.zone.elemSize m.table } := by
      refine ⟨?_, fun _ hlt hon => Or.inl ⟨hlt, hon⟩, Nat.le_max_left ..⟩
      intro e he
      apply update_of_ne
      rintro rfl
      exact hroom1.not_has (List.mem_append_right _ he) (h.others_pos e he) hhas
    obtain ⟨slot', hzone, hinUse, hgood, hframe⟩ := ih h1 (by
      intro hn'
      apply (hroom (Nat.succ_pos n)).rest (k := slot.zone.elemSize)
      . have := Nat.mul_pos hn' hpos
        omega
      . exact perm_middle.map _
      . exact fun hcollected => hcollected) (Nat.le_sub_of_add_le hn)
    exact ⟨slot', hzone, hinUse, hgood, hframe1.trans hframe⟩

section

variable (h : Good c slot others m)
include h

theorem zcram (hroom : 0 < size → Room c slot others m ⟨x, size⟩)
    (heq : Zalloc.zcram c slot.zone x size m = some (z, m'))
    : Kept c others m z slot.inUse m' := by
  rw [Zalloc.zcram] at heq
  split at heq
  . contradiction
  . injection heq with heq
    obtain ⟨slot', hzone, hinUse, hgood, hframe⟩ := h.zcramElements (size / slot.zone.elemSize)
      (fun hn => hroom (Nat.pos_of_div_pos hn)) (Nat.div_mul_le_self _ _)
    rw [heq] at hzone hgood hframe
    exact ⟨slot', hzone, hinUse, hgood, hframe⟩

theorem kmemAlloc (heq : c.kmemAlloc addr size m = some m') : Good c slot others m' ∧ Frame c others m m' ∧
        (∀ i, c.On i ⟨addr, size⟩ → c.touching (slot.extents ++ others) i = 0) ∧
        Room c slot others m' ⟨addr, size⟩ ∧ 0 < size ∧ c.minAddress ≤ addr ∧ addr + size ≤ c.maxAddress := by
  rw [ZoneMap.kmemAlloc] at heq
  split at heq
  . next hcond =>
    obtain ⟨hsize, hmin, -, hmax, hfresh⟩ := hcond
    cases heq
    have hinside : ¬ c.Outside addr size := by
      rw [ZoneMap.Outside]
      omega
    have hnot (i : Nat) (hon : c.On i ⟨addr, size⟩) : m.held i = false := hfresh i (ZoneMap.mem_pagesOf.2 hon.2)
    have hspace (i : Nat) (hlt : m.nextSpace < m.endOfSpace) (hon : c.On i m.space) : ¬ c.On i ⟨addr, size⟩ := by
      intro hon'
      have := h.space.held hlt i hon
      rw [hnot i hon'] at this
      contradiction
    have hnone (i : Nat) (hon : c.On i ⟨addr, size⟩) : c.touching (slot.extents ++ others) i = 0 := by
      rw [ZoneMap.touching_eq_zero_iff]
      intro e he hon'
      have := (h.placed e he).held i hon'
      rw [hnot i hon] at this
      contradiction
    have hheld {i : Nat} (hi : m.held i = true) : (decide (i ∈ c.pagesOf addr size) || m.held i) = true := by
      rw [hi, Bool.or_true]
    have hplaced {e : Extent} (he : Placed c m.held e)
        : Placed c (fun i => decide (i ∈ c.pagesOf addr size) || m.held i) e :=
      ⟨he.pos, he.bound, he.side, fun i hon => hheld (he.held i hon)⟩
    refine ⟨?_, ⟨fun _ _ => rfl, fun _ hlt hon => Or.inl ⟨hlt, hon⟩, Nat.le_max_left ..⟩, hnone, ?_, hsize, hmin, hmax⟩
    . exact ⟨h.linked, h.size_pos, h.others_pos, h.size, h.apart, fun e he => hplaced (h.placed e he), h.exact, h.away,
        h.fits, h.space.le, h.space.pos, h.space.bound, h.space.side, fun hlt i hon => hheld (h.space.held hlt i hon)⟩
    . refine ⟨?_, ?_, ?_⟩
      . intro a
        have hcount := h.apart a
        simp only [cons_append, count_cons] at hcount ⊢
        change (if m.space.Has a then 1 else 0) + _ ≤ 1
        by_cases ha : (⟨addr, size⟩ : Extent).Has a
        . have hmina := Nat.le_trans hmin ha.1
          have hamax := Nat.lt_of_lt_of_le ha.2 hmax
          have hpage := c.has_zonePage hmina
          have hon : c.On (c.zonePage a) ⟨addr, size⟩ := (ZoneMap.on_iff hinside hsize).2 ⟨a, hpage, ha⟩
          have hzero : count (slot.extents ++ others) a = 0 := by
            rw [count, List.countP_eq_zero]
            intro e he hhas
            have hhas := of_decide_eq_true hhas
            apply ZoneMap.touching_eq_zero_iff.1 (hnone _ hon) e he
            exact (ZoneMap.on_iff ((h.placed e he).inside hmina hamax hhas) (h.pos he)).2 ⟨a, hpage, hhas⟩
          have hspace' : ¬ m.space.Has a := by
            intro hhas
            have hlt : m.nextSpace < m.endOfSpace := by
              have := hhas.1
              have := hhas.2
              rw [Shared.space] at *
              dsimp only at *
              omega
            apply hspace _ hlt _ hon
            exact (ZoneMap.on_iff (h.space.inside hmina hamax hhas) (Nat.sub_pos_of_lt hlt)).2 ⟨a, hpage, hhas⟩
          rw [if_neg hspace', if_pos ha, hzero]
        . rw [if_neg ha]
          omega
      . refine ⟨Nat.lt_of_lt_of_le c.pos hmin, Nat.le_trans hmax c.bound, Or.inr hinside, ?_⟩
        intro i hon
        have hmem : i ∈ c.pagesOf addr size := ZoneMap.mem_pagesOf.2 hon.2
        dsimp only
        rw [decide_eq_true hmem, Bool.true_or]
      . intro _ hlt i hon
        exact hspace i hlt hon
  . contradiction

theorem pageInit (hnone : ∀ i, c.On i ⟨addr, size⟩ → c.touching (slot.extents ++ others) i = 0)
    : Good c slot others { m with table := c.zonePageInit addr size zonePageUsed m.table } := by
  have hexact := h.exact.init (e := ⟨addr, size⟩) hnone
  exact ⟨h.linked, h.size_pos, h.others_pos, h.size, h.apart, h.placed, hexact, h.away, h.fits, h.space.congr⟩

theorem grow : Good c ⟨slot.zone.grow, slot.inUse, slot.free⟩ others m := by
  rw [Zone.grow]
  split
  . exact { h with }
  . exact h

theorem cutSpace (hsize : 0 < size) (hle : m.nextSpace + size ≤ m.endOfSpace) (hzone : ¬ slot.zone.collected)
    : Good c slot others { m with nextSpace := m.nextSpace + size } ∧
        Frame c others m { m with nextSpace := m.nextSpace + size } ∧
        Room c slot others { m with nextSpace := m.nextSpace + size } ⟨m.nextSpace, size⟩ := by
  have hspace := h.space
  have hside := hspace.side
  have hlt : m.nextSpace < m.endOfSpace := by omega
  have hplaced : Placed c m.held m.space := by
    refine ⟨hspace.pos, ?_, ?_, hspace.held hlt⟩
    . have := hspace.bound
      rw [Shared.space]
      dsimp only
      omega
    . rw [Shared.space, ZoneMap.Outside]
      dsimp only
      omega
  have hcount (a : Nat) : count (Shared.space { m with nextSpace := m.nextSpace + size } :: ⟨m.nextSpace, size⟩ ::
      slot.extents ++ others) a ≤ 1 := by
    have hcut := count_cut m.nextSpace (show size ≤ m.endOfSpace - m.nextSpace by omega)
      (slot.extents ++ others) a
    have hapart := h.apart a
    have heq : m.endOfSpace - m.nextSpace - size = m.endOfSpace - (m.nextSpace + size) := by omega
    simp only [Shared.space, cons_append] at hapart ⊢
    rw [hcut, heq] at hapart
    simp only [count_cons] at hapart ⊢
    omega
  have hon {i : Nat} (hlt' : m.nextSpace + size < m.endOfSpace)
      (hon : c.On i (Shared.space { m with nextSpace := m.nextSpace + size })) : c.On i m.space := by
    apply hplaced.on_of_sub _ _ _ hon
    . exact Nat.le_add_right _ _
    . simp only [Shared.space]
      omega
    . exact Nat.sub_pos_of_lt hlt'
  refine ⟨?_, ?_, ?_⟩
  . refine ⟨h.linked, h.size_pos, h.others_pos, h.size, ?_, h.placed, h.exact,
      fun _ _ hcollected => absurd hcollected hzone, h.fits, hle, ?_, hspace.bound, ?_, ?_⟩
    . intro a
      have := hcount a
      simp only [cons_append, count_cons] at this ⊢
      omega
    . have := hspace.pos
      dsimp only
      omega
    . dsimp only
      omega
    . intro hlt' i hon'
      exact hspace.held hlt i (hon hlt' hon')
  . exact ⟨fun _ _ => rfl, fun i hlt' hon' => Or.inl ⟨hlt, hon hlt' hon'⟩, Nat.le_max_left ..⟩
  . refine ⟨hcount, hplaced.sub (Nat.le_refl _) ?_ hsize, fun hcollected => absurd hcollected hzone⟩
    simp only [Shared.space]
    omega

theorem extendSpace {next : Nat} (hsize : 0 < size)
    (hroom : Room c slot others m ⟨addr, size⟩) (hmin : c.minAddress ≤ addr) (hmax : addr + size ≤ c.maxAddress)
    (hnone : ∀ i, c.On i ⟨addr, size⟩ → c.touching others i = 0)
    (hnext : next = addr ∨ next = m.nextSpace ∧ addr = m.endOfSpace) (hzone : ¬ slot.zone.collected)
    : Good c slot others { m with nextSpace := next, endOfSpace := addr + size } ∧
        Frame c others m { m with nextSpace := next, endOfSpace := addr + size } := by
  have hspace := h.space
  have hside := hspace.side
  have hle := hspace.le
  have hnext' : c.minAddress ≤ next ∧ 0 < next ∧ next ≤ addr := by
    have := c.pos
    omega
  have hinside : ¬ c.Outside next (addr + size - next) := by
    rw [ZoneMap.Outside]
    omega
  -- a page of the new space is a page of the old one or of the new memory
  have hon (i : Nat) (hon : c.On i ⟨next, addr + size - next⟩)
      : m.nextSpace < m.endOfSpace ∧ c.On i m.space ∨ c.On i ⟨addr, size⟩ := by
    have hpos : 0 < addr + size - next := by omega
    obtain ⟨a, hpage, hlo, hhi⟩ := (ZoneMap.on_iff hinside hpos).1 hon
    dsimp only at hlo hhi
    by_cases ha : addr ≤ a
    . right
      have hnew : ¬ c.Outside addr size := by
        rw [ZoneMap.Outside]
        omega
      exact (ZoneMap.on_iff hnew hsize).2 ⟨a, hpage, ha, by dsimp only; omega⟩
    . left
      have hlt : m.nextSpace < m.endOfSpace := by omega
      have hold : ¬ c.Outside m.nextSpace (m.endOfSpace - m.nextSpace) := by
        rw [ZoneMap.Outside]
        omega
      refine ⟨hlt, (ZoneMap.on_iff hold (Nat.sub_pos_of_lt hlt)).2 ⟨a, hpage, ?_, ?_⟩⟩
      . rw [Shared.space]
        dsimp only
        omega
      . rw [Shared.space]
        dsimp only
        omega
  refine ⟨?_, ?_⟩
  . refine ⟨h.linked, h.size_pos, h.others_pos, h.size, ?_, h.placed, h.exact,
      fun _ _ hcollected => absurd hcollected hzone, ?_, ?_, hnext'.2.1, ?_, Or.inr ⟨hnext'.1, hmax⟩, ?_⟩
    . intro a
      have hcount := hroom.apart a
      simp only [cons_append, count_cons] at hcount ⊢
      have hhas : (⟨next, addr + size - next⟩ : Extent).Has a → m.space.Has a ∨ (⟨addr, size⟩ : Extent).Has a := by
        rw [Shared.space]
        unfold Extent.Has
        dsimp only
        omega
      change (if (⟨next, addr + size - next⟩ : Extent).Has a then 1 else 0) + _ ≤ 1
      by_cases ha : (⟨next, addr + size - next⟩ : Extent).Has a
      . rw [if_pos ha]
        obtain ha | ha := hhas ha
        . rw [if_pos ha] at hcount
          omega
        . rw [if_pos ha] at hcount
          omega
      . rw [if_neg ha]
        omega
    . have hfits := h.fits
      dsimp only
      omega
    . dsimp only
      omega
    . exact Nat.le_trans hmax c.bound
    . intro _ i hi
      obtain ⟨hlt, hi⟩ | hi := hon i hi
      . exact hspace.held hlt i hi
      . exact hroom.placed.held i hi
  . refine ⟨fun _ _ => rfl, fun i _ hi => ?_, hmax.trans (Nat.le_max_right ..)⟩
    obtain hold | hnew := hon i hi
    . exact Or.inl hold
    . exact Or.inr (hnone i hnew)

theorem zgetSpace {spaces : List Nat} (hsize : 0 < size) (hfits : size + max m.endOfSpace c.maxAddress < 2 ^ 32)
    (hzone : ¬ slot.zone.collected) (heq : Zalloc.zgetSpace c size spaces m = some (m', addr))
    : Good c slot others m' ∧ Frame c others m m' ∧ Room c slot others m' ⟨addr, size⟩ := by
  induction spaces generalizing m with
  | nil =>
    rw [Zalloc.zgetSpace, h.space.mod_eq hfits] at heq
    split at heq
    . next hle =>
      cases heq
      exact h.cutSpace hsize hle hzone
    . contradiction
  | cons newSpace spaces ih =>
    rw [Zalloc.zgetSpace, h.space.mod_eq hfits] at heq
    split at heq
    . next hle =>
      cases heq
      exact h.cutSpace hsize hle hzone
    . dsimp only at heq
      obtain ⟨m1, halloc, heq⟩ := Option.bind_eq_some_iff.1 heq
      obtain ⟨h1, hframe1, hnone, hroom, hadd, hmin, hmax⟩ := h.kmemAlloc halloc
      rw [Nat.mod_eq_of_lt (show newSpace + roundPage size < 2 ^ 32 by omega)] at heq
      have hroom2 : Room c slot others
          { m1 with table := c.zonePageInit newSpace (roundPage size) zonePageUsed m1.table }
          ⟨newSpace, roundPage size⟩ := { hroom with }
      obtain ⟨h3, hframe3⟩ := (h1.pageInit hnone).extendSpace hadd hroom2 hmin hmax (by
        intro i hon
        have hzero := hnone i hon
        rw [ZoneMap.touching_append] at hzero
        omega)
        (show (if newSpace ≠ m1.endOfSpace then newSpace else m1.nextSpace) = newSpace ∨
          (if newSpace ≠ m1.endOfSpace then newSpace else m1.nextSpace) = m1.nextSpace ∧ newSpace = m1.endOfSpace by
          split
          . exact Or.inl rfl
          . next heq => exact Or.inr ⟨rfl, not_not.1 heq⟩) hzone
      obtain ⟨hgood, hframe, hroom'⟩ := ih h3 (by dsimp only; omega) heq
      obtain ⟨hmem, hspace, hlast⟩ := hframe3.trans hframe
      exact ⟨hgood, hframe1.trans ⟨hmem, hspace, hlast⟩, hroom'⟩

theorem removeFromZone (heq : slot.zone.removeFromZone m.mem = (z, addr))
    : ∃ slot', z = slot'.zone ∧ slot'.inUse = (if addr = 0 then slot.inUse else addr :: slot.inUse) ∧
        Good c slot' others m := by
  rw [Zone.removeFromZone] at heq
  cases hfree : slot.free with
  | nil =>
    rw [if_neg (not_not.2 (h.free_nil_iff.1 hfree))] at heq
    cases heq
    exact ⟨slot, rfl, rfl, h⟩
  | cons a l =>
    obtain ⟨hne, hhead, hgood⟩ := h.remove hfree
    rw [hhead, if_pos hne] at heq
    cases heq
    refine ⟨_, rfl, ?_, hgood⟩
    rw [if_neg hne]

theorem zalloc_first
    (heq : some ((slot.zone.removeFromZone m.mem).1, m, (slot.zone.removeFromZone m.mem).2) = some (z, m', addr))
    : Kept c others m z (if addr = 0 then slot.inUse else addr :: slot.inUse) m' := by
  cases heq
  obtain ⟨slot', hz, hinUse, h'⟩ := h.removeFromZone rfl
  exact ⟨slot', hz, hinUse, h', .refl⟩

end

theorem not_collected_grow (h : ¬ (slot.zone.pageable = true ∨ slot.zone.collectable = true))
    : ¬ slot.zone.grow.collected := by
  rintro ⟨hcollectable, -⟩
  apply h
  right
  rw [Zone.grow] at hcollectable
  split at hcollectable
  . exact hcollectable
  . exact hcollectable

theorem zallocSpace {spaces : List Nat} (h : Good c slot others m) (hzone : ¬ slot.zone.collected)
    (heq : Zalloc.zallocSpace c spaces slot.zone m = some (z, m', addr))
    : Kept c others m z (if addr = 0 then slot.inUse else addr :: slot.inUse) m' := by
  rw [Zalloc.zallocSpace] at heq
  obtain ⟨⟨m1, x⟩, hspace, heq⟩ := Option.bind_eq_some_iff.1 heq
  obtain ⟨h1, hframe, hroom⟩ := h.zgetSpace h.size_pos h.fits hzone hspace
  change (if x = 0 then none else _) = _ at heq
  split at heq
  . contradiction
  . next hne =>
    cases heq
    refine ⟨_, rfl, ?_, h1.insert (l := addr :: slot.inUse) hroom (List.Perm.refl _) h1.linked,
      hframe.mem, hframe.space, hframe.last⟩
    rw [if_neg hne]

theorem zallocMore (h : Good c slot others m) (heq : Zalloc.zallocMore c addr slot.zone m = some (z, m'))
    : Kept c others m z slot.inUse m' := by
  rw [Zalloc.zallocMore] at heq
  obtain ⟨m1, halloc, heq⟩ := Option.bind_eq_some_iff.1 heq
  obtain ⟨h1, hframe1, hnone, hroom, -⟩ := h.kmemAlloc halloc
  split at heq
  . obtain ⟨slot', hz, hinUse, h', hframe⟩ := h1.zcram (fun _ => hroom) heq
    exact ⟨slot', hz, hinUse, h', hframe1.trans hframe⟩
  . have hroom' : Room c slot others
        { m1 with table := c.zonePageInit addr slot.zone.allocSize zonePageUsed m1.table }
        ⟨addr, slot.zone.allocSize⟩ := ⟨hroom.apart, hroom.placed, hroom.away⟩
    obtain ⟨slot', hz, hinUse, h', hframe⟩ := (h1.pageInit hnone).zcram (fun _ => hroom') heq
    exact ⟨slot', hz, hinUse, h', hframe1.trans ⟨hframe.mem, hframe.space, hframe.last⟩⟩

theorem zalloc {spaces : List Nat} (h : Good c slot others m)
    (heq : Zalloc.zalloc c spaces slot.zone m = some (z, m', addr))
    : Kept c others m z (if addr = 0 then slot.inUse else addr :: slot.inUse) m' := by
  induction spaces generalizing slot m with
  | nil =>
    rw [Zalloc.zalloc] at heq
    split at heq
    . exact h.zalloc_first heq
    . split at heq
      . cases heq
        exact ⟨slot, rfl, rfl, h, .refl⟩
      . split at heq
        . contradiction
        . next hzone => exact h.grow.zallocSpace (not_collected_grow hzone) heq
  | cons space spaces ih =>
    rw [Zalloc.zalloc] at heq
    split at heq
    . exact h.zalloc_first heq
    . split at heq
      . cases heq
        exact ⟨slot, rfl, rfl, h, .refl⟩
      . split at heq
        . obtain ⟨⟨z1, m1⟩, hmore, heq⟩ := Option.bind_eq_some_iff.1 heq
          obtain ⟨slot1, rfl, hinUse, h1, hframe⟩ := h.grow.zallocMore hmore
          obtain ⟨slot', hz, hinUse', h', hframe'⟩ := ih h1 heq
          rw [hinUse] at hinUse'
          exact ⟨slot', hz, hinUse', h', hframe.trans hframe'⟩
        . next hzone => exact h.grow.zallocSpace (not_collected_grow hzone) heq

end Good

end Kern.Zalloc
