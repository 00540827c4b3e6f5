import UtahMach.Kern.Zalloc.Ops

/-!
This module contains what the collection of pages does to the free list of a zone and to the page table.
-/

namespace Kern.Zalloc

open List (append_assoc append_cons mem_append_left mem_cons mem_cons_of_mem nodup_append perm_middle)

open Function Extent

open Vm (pageSize)

theorem ptr_eq_some_iff : ptr x = some elt ↔ x = elt ∧ elt ≠ 0 := by
  rw [ptr]
  split
  . next h =>
    subst h
    simp only [reduceCtorEq, ne_eq, false_iff, not_and, not_not]
    exact Eq.symm
  . next h =>
    rw [Option.some_inj]
    constructor
    . rintro rfl
      exact ⟨rfl, h⟩
    . exact And.left

theorem ptr_eq_none_iff : ptr x = none ↔ x = 0 := by
  rw [ptr]
  split
  . next h => exact iff_of_true rfl h
  . next h => exact iff_of_false (Option.some_ne_none x) h

theorem countFree_eq {fuel : Nat} {mem : Nat → Nat} (elemSize : Nat)
    (hlinked : Linked (link mem) (ptr elt) l) (hfuel : l.length ≤ fuel) (table : Nat → PageEntry)
    : ∃ table', countFree c elemSize mem fuel elt table = some table' ∧
        ∀ i, (table' i).allocCount = (table i).allocCount := by
  induction l generalizing elt fuel table with
  | nil =>
    rw [Linked.nil_iff, ptr_eq_none_iff] at hlinked
    subst hlinked
    refine ⟨table, ?_, fun _ => rfl⟩
    rw [countFree.eq_def]
    exact if_pos rfl
  | cons a l ih =>
    obtain ⟨hhead, hrest⟩ := Linked.cons_iff.1 hlinked
    obtain ⟨rfl, hne⟩ := ptr_eq_some_iff.1 hhead
    cases fuel with
    | zero => contradiction
    | succ fuel =>
      obtain ⟨table', heq, hcount⟩ := ih hrest (Nat.le_of_succ_le_succ hfuel) (c.zonePageFree elt elemSize table)
      refine ⟨table', ?_, ?_⟩
      . rw [countFree, if_neg hne]
        exact heq
      . intro i
        rw [hcount, ZoneMap.zonePageFree, ZoneMap.eachPage_apply]
        split
        . rfl
        . rfl

theorem Good.drop (h : Good c slot others m) (hperm : slot.free.Perm (elt :: l))
    (hlinked : Linked (link mem') (ptr x) l) (hexact : Exact c table (slot.zone.extents (slot.inUse ++ l) ++ others))
    : Good c ⟨{ slot.zone with curSize := slot.zone.curSize - slot.zone.elemSize, freeElements := x }, slot.inUse, l⟩
        others { m with mem := mem', table := table } := by
  have hextents : slot.extents.Perm (⟨elt, slot.zone.elemSize⟩ :: slot.zone.extents (slot.inUse ++ l)) :=
    ((hperm.append_left slot.inUse).trans perm_middle).map _
  have hsub {e : Extent} (he : e ∈ slot.zone.extents (slot.inUse ++ l)) : e ∈ slot.extents :=
    hextents.mem_iff.2 (mem_cons_of_mem _ he)
  have hlen := hperm.length_eq
  rw [List.length_cons] at hlen
  refine ⟨hlinked, h.size_pos, h.others_pos, ?_, ?_, ?_, hexact, fun e he => h.away e (hsub he), h.fits, h.space.congr⟩
  . show slot.zone.curSize - slot.zone.elemSize = slot.zone.elemSize * (slot.inUse.length + l.length)
    rw [h.size, hlen, ← Nat.add_assoc, Nat.mul_succ, Nat.add_sub_cancel]
  . intro a
    have hcount := h.apart a
    have hperm' := count_perm (a := a) hextents
    show count (m.space :: slot.zone.extents (slot.inUse ++ l) ++ others) a ≤ 1
    rw [count_cons] at hperm'
    rw [List.cons_append, count_cons, count_append] at hcount ⊢
    omega
  . intro e he
    apply h.placed
    obtain he | he := List.mem_append.1 he
    . exact mem_append_left _ (hsub he)
    . exact List.mem_append_right _ he

def Gc.shared (g : Gc) (m : Shared) : Shared := { m with table := g.table, mem := g.mem }

def Shared.freeable (c : ZoneMap) (m : Shared) (i : Nat) : Bool :=
  m.held i && !decide (m.nextSpace < m.endOfSpace ∧ c.On i m.space)

structure Collecting (c : ZoneMap) (inUse : List Nat) (others : List Extent) (m : Shared) (g : Gc) (l : List Nat)
    : Prop where
  good : Good c ⟨g.zone, inUse, l⟩ others (g.shared m)
  dead : Dead c g.pages g.table (m.freeable c) (Slot.extents ⟨g.zone, inUse, l⟩ ++ others)

namespace Collecting

variable {g : Gc} {l l' : List Nat}

theorem nodup (h : Collecting c inUse others m g l) : l.Nodup := (nodup_append.1 h.good.nodup).2.1

theorem collect_zone : (g.collect c elt).zone = { g.zone with curSize := g.zone.curSize - g.zone.elemSize } := by
  rw [Gc.collect]
  split
  . rfl
  . rfl

theorem collect (h : Collecting c inUse others m g l) (hzone : g.zone.collected) (hperm : l.Perm (elt :: l'))
    (hlinked : Linked (link mem') (ptr x) l') : Collecting c inUse others m
        { g.collect c elt with mem := mem', zone := { (g.collect c elt).zone with freeElements := x } } l' := by
  have hmem : elt ∈ l := hperm.mem_iff.2 List.mem_cons_self
  have hextents : (Slot.extents ⟨g.zone, inUse, l⟩ ++ others).Perm
      (⟨elt, g.zone.elemSize⟩ :: (g.zone.extents (inUse ++ l') ++ others)) :=
    (((hperm.append_left inUse).trans perm_middle).map _).append_right others
  have he : (⟨elt, g.zone.elemSize⟩ : Extent) ∈ Slot.extents ⟨g.zone, inUse, l⟩ :=
    Slot.mem_extents.2 ⟨elt, Or.inr hmem, rfl⟩
  have hfreeable (i : Nat) (hon : c.On i ⟨elt, g.zone.elemSize⟩) : m.freeable c i = true := by
    rw [Shared.freeable, Bool.and_eq_true, Bool.not_eq_true', decide_eq_false_iff_not]
    refine ⟨(h.good.placed _ (mem_append_left _ he)).held i hon, ?_⟩
    rintro ⟨hlt, hspace⟩
    exact h.good.away _ he hzone hlt i hspace hon
  obtain ⟨hexact, hdead⟩ := Gc.collect_table elt h.good.exact h.dead
    (fun i => touching_perm hextents i) h.good.touching_le h.good.size_pos hfreeable
  refine ⟨?_, ?_⟩
  . rw [collect_zone]
    exact h.good.drop hperm hlinked hexact
  . rw [collect_zone]
    exact hdead

theorem keep (h : Collecting c inUse others m g l) (elt : Nat) : Collecting c inUse others m (g.keep c elt) l := by
  rw [Gc.keep]
  split
  . have hcount (i : Nat) : (update g.table (c.zonePage elt)
        { g.table (c.zonePage elt) with inFreeList := 0 } i).allocCount = (g.table i).allocCount := by
      by_cases hi : i = c.zonePage elt
      . subst hi
        rw [update_self]
      . rw [update_of_ne hi]
    obtain ⟨hlinked, hpos, hothers, hsize, hapart, hplaced, hexact, haway, hfits, hspace⟩ := h.good
    exact ⟨⟨hlinked, hpos, hothers, hsize, hapart, hplaced, hexact.of_allocCount hcount, haway, hfits, hspace.congr⟩,
      h.dead.of_allocCount hcount⟩
  . exact h

theorem keep_mem (c : ZoneMap) (g : Gc) (elt : Nat)
    : (g.keep c elt).mem = g.mem ∧ (g.keep c elt).collected = g.collected ∧ (g.keep c elt).zone = g.zone := by
  rw [Gc.keep]
  split
  . exact ⟨rfl, rfl, rfl⟩
  . exact ⟨rfl, rfl, rfl⟩

theorem collect_mem (c : ZoneMap) (g : Gc) (elt : Nat)
    : (g.collect c elt).mem = g.mem ∧ (g.collect c elt).collected = g.collected ++ [elt] := by
  rw [Gc.collect]
  split
  . exact ⟨rfl, rfl⟩
  . exact ⟨rfl, rfl⟩

theorem filter_collected {collected rest : List Nat} (hnot : elt ∉ rest)
    : (elt :: rest).filter (· ∉ elt :: collected) = rest.filter (· ∉ collected) := by
  rw [List.filter_cons_of_neg]
  . apply List.filter_congr
    intro b hb
    have hne : b ≠ elt := fun heq => hnot (heq ▸ hb)
    simp only [mem_cons, hne, false_or]
  . simp only [mem_cons, true_or, not_true_eq_false, decide_false, Bool.false_eq_true, not_false_eq_true]

theorem filter_kept {collected rest : List Nat} (hnot : elt ∉ collected)
    : (elt :: rest).filter (· ∉ collected) = elt :: rest.filter (· ∉ collected) :=
  List.filter_cons_of_pos (decide_eq_true hnot)

-- an eligible element is taken out of the list behind the elements that are kept
theorem unlink {kept rest : List Nat} {last : Nat} (h : Collecting c inUse others m g (kept ++ elt :: rest))
    (hzone : g.zone.collected) (hlast : last = kept.getLast?.getD elt) (hne : elt ≠ 0) (helig : g.eligible c elt = true)
    (fuel : Nat) : ∃ g', Zalloc.gcElements c (fuel + 1) last elt g =
          Zalloc.gcElements c fuel (kept.getLast?.getD (g.mem elt)) (g.mem elt) g' ∧
        g'.collected = g.collected ++ [elt] ∧ Collecting c inUse others m g' (kept ++ rest) ∧ g'.zone.collected ∧
        (∀ a, a ∉ kept → g'.mem a = g.mem a) ∧ g'.zone.elemSize = g.zone.elemSize := by
  have hnodup := h.nodup
  have hlinked : Linked (link g.mem) (ptr g.zone.freeElements) (kept ++ elt :: rest) := h.good.linked
  obtain ⟨hcmem, hccol⟩ := collect_mem c g elt
  have hnext : (g.collect c elt).mem elt = g.mem elt := congrFun hcmem elt
  have hzone' : (g.collect c elt).zone.collected := by
    rw [collect_zone]
    exact hzone
  have hsize : (g.collect c elt).zone.elemSize = g.zone.elemSize := by rw [collect_zone]
  rw [Zalloc.gcElements, if_neg hne, if_pos helig]
  dsimp only
  obtain rfl | ⟨kept, b, rfl⟩ := kept.eq_nil_or_concat'
  . -- the first element of the list is collected
    have hrest : Linked (link (g.collect c elt).mem) (ptr (g.mem elt)) rest := by
      rw [hcmem]
      exact hlinked.of_append
    have hlast' : elt = last := hlast.symm
    rw [if_pos hlast', hnext]
    exact ⟨_, rfl, hccol, h.collect hzone (.refl _) hrest, hzone', fun a _ => congrFun hcmem a, hsize⟩
  . -- the element is unlinked behind the last one that is kept
    rw [List.getLast?_concat] at hlast ⊢
    obtain rfl : last = b := hlast
    have hneb : elt ≠ last := by
      rintro rfl
      exact (nodup_append.1 hnodup).2.2 elt List.mem_concat_self elt List.mem_cons_self rfl
    have hrest : Linked (link (update (g.collect c elt).mem last (g.mem elt)))
        (ptr (g.collect c elt).zone.freeElements) (kept ++ [last] ++ rest) := by
      rw [append_assoc] at hlinked hnodup ⊢
      rw [hcmem, collect_zone, link_update]
      exact hlinked.unlink hnodup
    rw [if_neg hneb, hnext]
    refine ⟨_, rfl, hccol, h.collect hzone perm_middle hrest, hzone', fun a ha => ?_, hsize⟩
    have hne' : a ≠ last := by
      rintro rfl
      exact ha List.mem_concat_self
    exact (update_of_ne hne' _ _).trans (congrFun hcmem a)

theorem gcElements {kept rest : List Nat} {fuel last : Nat} (h : Collecting c inUse others m g (kept ++ rest))
    (hzone : g.zone.collected) (helt : ptr elt = rest.head?) (hlast : last = kept.getLast?.getD elt)
    (hfuel : rest.length ≤ fuel)
    : ∃ g' collected, Zalloc.gcElements c fuel last elt g = some g' ∧ g'.collected = g.collected ++ collected ∧
        (∀ a ∈ collected, a ∈ rest) ∧ Collecting c inUse others m g' (kept ++ rest.filter (· ∉ collected)) ∧
        (∀ a, a ∉ kept ++ rest → g'.mem a = g.mem a) ∧ g'.zone.elemSize = g.zone.elemSize := by
  induction rest generalizing kept fuel last elt g with
  | nil =>
    rw [List.head?_nil, ptr_eq_none_iff] at helt
    subst helt
    refine ⟨g, [], ?_, (List.append_nil _).symm, fun _ ha => ha, h, fun _ _ => rfl, rfl⟩
    rw [Zalloc.gcElements.eq_def]
    exact if_pos rfl
  | cons a rest ih =>
    obtain ⟨rfl, hne⟩ := ptr_eq_some_iff.1 helt
    have hnot : elt ∉ rest := (List.nodup_cons.1 (nodup_append.1 h.nodup).2.1).1
    have hlinked : Linked (link g.mem) (ptr g.zone.freeElements) (kept ++ elt :: rest) := h.good.linked
    have hnext : ptr (g.mem elt) = rest.head? := hlinked.of_append.head_eq
    cases fuel with
    | zero => contradiction
    | succ fuel =>
      have hfuel' := Nat.le_of_succ_le_succ hfuel
      by_cases helig : g.eligible c elt = true
      . obtain ⟨g1, heq1, hcol1, h1, hzone1, hframe1, hsize1⟩ := h.unlink hzone hlast hne helig fuel
        obtain ⟨g', collected, heq, hcol, hsub, h', hframe, hsize⟩ := ih h1 hzone1 hnext rfl hfuel'
        refine ⟨g', elt :: collected, heq1.trans heq, ?_, ?_, ?_, fun a ha => ?_, hsize.trans hsize1⟩
        . rw [hcol, hcol1, append_assoc]
          rfl
        . exact fun a ha => mem_cons.2 ((mem_cons.1 ha).imp_right (hsub a))
        . rw [filter_collected hnot]
          exact h'
        . rw [List.mem_append, not_or] at ha
          refine (hframe a ?_).trans (hframe1 a ha.1)
          rw [List.mem_append, not_or]
          exact ⟨ha.1, fun hmem => ha.2 (mem_cons_of_mem _ hmem)⟩
      . rw [Zalloc.gcElements, if_neg hne, if_neg helig]
        obtain ⟨hkmem, hkcol, hkzone⟩ := keep_mem c g elt
        have hkeep := h.keep elt
        have hzone1 : (g.keep c elt).zone.collected := hkzone ▸ hzone
        have hksize : (g.keep c elt).zone.elemSize = g.zone.elemSize := congrArg Zone.elemSize hkzone
        rw [append_cons] at hkeep
        obtain ⟨g', collected, heq, hcol, hsub, h', hframe, hsize⟩ := ih hkeep hzone1 (hkmem ▸ hnext) (by
          rw [List.getLast?_concat]) hfuel'
        refine ⟨g', collected, heq, hkcol ▸ hcol, fun a ha => mem_cons_of_mem _ (hsub a ha), ?_, ?_, hsize.trans hksize⟩
        . rw [filter_kept fun hmem => hnot (hsub elt hmem), append_cons]
          exact h'
        . intro a ha
          rw [append_cons] at ha
          exact (hframe a ha).trans (congrFun hkmem a)

end Collecting

namespace Good

theorem length_free_le (h : Good c slot others m) : slot.free.length ≤ addresses := by
  have hsub : slot.free ⊆ List.range addresses := by
    intro a ha
    have hplaced := h.placed ⟨a, slot.zone.elemSize⟩ (mem_append_left _ (Slot.mem_extents.2 ⟨a, Or.inr ha, rfl⟩))
    have hbound : a + slot.zone.elemSize ≤ addresses := hplaced.bound
    have hpos := h.size_pos
    apply List.mem_range.2
    omega
  have hle := (List.subperm_of_subset (nodup_append.1 h.nodup).2.1 hsub).length_le
  rwa [List.length_range] at hle

theorem gcZone {pages : List Nat} (h : Good c slot others m)
    (hdead : Dead c pages m.table (m.freeable c) (slot.extents ++ others))
    : ∃ g, Zalloc.gcZone c slot.zone m pages = some g ∧
        Collecting c slot.inUse others m g (slot.free.filter (· ∉ g.collected)) ∧
        (∀ a ∈ g.collected, a ∈ slot.free) ∧ (∀ a, a ∉ slot.free → g.mem a = m.mem a) ∧
        g.zone.elemSize = slot.zone.elemSize := by
  have hlen := h.length_free_le
  rw [Zalloc.gcZone]
  generalize addresses = fuel at hlen ⊢
  split
  . next hzone =>
    have hcollected : slot.zone.collected := ⟨hzone.1, Bool.eq_false_iff.2 hzone.2⟩
    obtain ⟨table, hcount, hsame⟩ := countFree_eq (c := c) slot.zone.elemSize h.linked hlen m.table
    rw [hcount]
    have hstart : Collecting c slot.inUse others m ⟨slot.zone, table, m.mem, pages, []⟩ ([] ++ slot.free) :=
      ⟨⟨h.linked, h.size_pos, h.others_pos, h.size, h.apart, h.placed, h.exact.of_allocCount hsame, h.away,
        h.fits, h.space.congr⟩, hdead.of_allocCount hsame⟩
    have hlast : slot.zone.freeElements = ([] : List Nat).getLast?.getD slot.zone.freeElements := rfl
    obtain ⟨g, collected, heq, hcol, hsub, h', hframe, hsize⟩ :=
      hstart.gcElements hcollected h.linked.head_eq hlast hlen
    subst hcol
    exact ⟨g, heq, h', hsub, hframe, hsize⟩
  . refine ⟨_, rfl, ?_, nofun, fun _ _ => rfl, rfl⟩
    have hfilter : slot.free.filter (fun a => decide (a ∉ ([] : List Nat))) = slot.free := by
      rw [List.filter_eq_self]
      intro a _
      exact decide_eq_true List.not_mem_nil
    rw [hfilter]
    exact ⟨h, hdead⟩

end Good

end Kern.Zalloc
