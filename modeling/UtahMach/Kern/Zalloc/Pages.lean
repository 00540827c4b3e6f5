import UtahMach.Kern.Zalloc.Basic

/-!
This module contains what the counts of the page table say about the elements on a page.
-/

namespace Kern.Zalloc

open ZoneMap Extent

open Vm (pageSize)

variable {c : ZoneMap} {e f : Extent} {es es' fs : List Extent} {i n : Nat} {table : Nat → PageEntry}

namespace ZoneMap

def pageExtent (c : ZoneMap) (i : Nat) : Extent := ⟨c.minAddress + i * pageSize, pageSize⟩

def On (c : ZoneMap) (i : Nat) (e : Extent) : Prop := ¬ c.Outside e.addr e.size ∧ c.Touches e.addr e.size i

instance (i : Nat) (e : Extent) : Decidable (c.On i e) := inferInstanceAs (Decidable (_ ∧ _))

def touching (c : ZoneMap) (es : List Extent) (i : Nat) : Nat := es.countP fun e => decide (c.On i e)

theorem pageSize_eq : pageSize = 4096 := rfl

theorem touching_cons : c.touching (e :: es) i = c.touching es i + if c.On i e then 1 else 0 := by
  unfold touching
  by_cases h : c.On i e <;> simp [h]

theorem touching_append : c.touching (es ++ fs) i = c.touching es i + c.touching fs i := List.countP_append

theorem touching_eq_zero_iff : c.touching es i = 0 ↔ ∀ e ∈ es, ¬ c.On i e := by
  rw [touching, List.countP_eq_zero]
  simp only [decide_eq_true_eq]

theorem On.lt (h : c.On i e) (hsize : 0 < e.size) : i < c.zonePages := by
  obtain ⟨hinside, -, hle⟩ := h
  have haligned := c.aligned
  rw [Outside] at hinside
  rw [zonePage] at hle
  rw [zonePages]
  rw [pageSize_eq] at haligned hle ⊢
  omega

theorem on_iff (hinside : ¬ c.Outside e.addr e.size) (hsize : 0 < e.size)
    : c.On i e ↔ ∃ a, (c.pageExtent i).Has a ∧ e.Has a := by
  rw [Outside] at hinside
  rw [On, Touches, zonePage, zonePage]
  unfold pageExtent Extent.Has
  dsimp only
  rw [pageSize_eq]
  constructor
  . rintro ⟨-, hlo, hhi⟩
    refine ⟨max e.addr (c.minAddress + i * 4096), ?_, ?_⟩
    . omega
    . omega
  . rintro ⟨a, ha, ha'⟩
    refine ⟨hinside, ?_, ?_⟩
    . omega
    . omega

theorem has_zonePage (c : ZoneMap) (hmin : c.minAddress ≤ a) : (c.pageExtent (c.zonePage a)).Has a := by
  rw [zonePage]
  unfold pageExtent Extent.Has
  dsimp only
  rw [pageSize_eq]
  omega

theorem not_has_of_apart (hi : i < c.zonePages)
    (houtside : e.addr + e.size ≤ c.minAddress ∨ c.maxAddress ≤ e.addr) (hpage : (c.pageExtent i).Has a)
    : ¬ e.Has a := by
  rw [zonePages] at hi
  unfold pageExtent at hpage
  unfold Extent.Has at hpage ⊢
  dsimp only at hpage
  rw [pageSize_eq] at hi hpage
  omega

theorem touching_le_sum (ks : List Nat) (hks : ∀ k < pageSize, k ∈ ks) (hsize : ∀ e ∈ es, 0 < e.size)
    : c.touching es i ≤ (ks.map fun k => count es (c.minAddress + i * pageSize + k)).sum := by
  induction es with
  | nil => exact Nat.zero_le _
  | cons e es ih =>
    rw [List.forall_mem_cons] at hsize
    have hsum : (ks.map fun k => count (e :: es) (c.minAddress + i * pageSize + k)).sum =
        (ks.map fun k => if e.Has (c.minAddress + i * pageSize + k) then 1 else 0).sum +
        (ks.map fun k => count es (c.minAddress + i * pageSize + k)).sum := by
      rw [← List.sum_map_add]
      congr 1
      apply List.map_congr_left
      intro k _
      exact count_cons
    have hrest := ih hsize.2
    rw [hsum, touching_cons]
    split
    . next hon =>
      obtain ⟨a, hpage, ha⟩ := (on_iff hon.1 hsize.1).1 hon
      have hmem : 1 ∈ ks.map fun k => if e.Has (c.minAddress + i * pageSize + k) then 1 else 0 := by
        apply List.mem_map.2
        unfold pageExtent Extent.Has at hpage
        dsimp only at hpage
        refine ⟨a - (c.minAddress + i * pageSize), ?_, ?_⟩
        . apply hks
          omega
        . rw [Nat.add_sub_cancel' hpage.1, if_pos ha]
      have hle := List.le_sum_of_mem hmem
      omega
    . omega

theorem touching_le (hsize : ∀ e ∈ es, 0 < e.size) (hapart : ∀ a, count es a ≤ 1) : c.touching es i ≤ pageSize := by
  apply Nat.le_trans (touching_le_sum (List.range pageSize) (fun k hk => List.mem_range.2 hk) hsize)
  have hle (ks : List Nat)
      : (ks.map fun k => count es (c.minAddress + i * pageSize + k)).sum ≤ ks.length := by
    induction ks with
    | nil => exact Nat.zero_le _
    | cons k ks ih =>
      have hone := hapart (c.minAddress + i * pageSize + k)
      rw [List.map_cons, List.sum_cons, List.length_cons]
      omega
  exact Nat.le_trans (hle _) (Nat.le_of_eq List.length_range)

theorem eachPage_apply (f : PageEntry → PageEntry) (addr size : Nat)
    : c.eachPage f addr size table i = if c.On i ⟨addr, size⟩ then f (table i) else table i := by
  rw [eachPage]
  by_cases houtside : c.Outside addr size
  . rw [if_pos houtside, if_neg fun hon => hon.1 houtside]
  . rw [if_neg houtside]
    by_cases ht : c.Touches addr size i
    . rw [if_pos ht, if_pos ⟨houtside, ht⟩]
    . rw [if_neg ht, if_neg fun hon => ht hon.2]

end ZoneMap

def Counts (x : Int) (n : Nat) : Prop := x = n ∨ n = 0 ∧ x = zonePageUnused

def Exact (c : ZoneMap) (table : Nat → PageEntry) (es : List Extent) : Prop :=
  ∀ i < c.zonePages, Counts (table i).allocCount (c.touching es i)

theorem short_eq (hlo : -1 ≤ x) (hhi : x ≤ 4096) : short x = x := by
  rw [short, Int.bmod_def]
  omega

namespace Exact

section

variable (h : Exact c table es)
include h

theorem congr (hes : ∀ i, c.touching es' i = c.touching es i) : Exact c table es' := by
  intro i hi
  rw [hes]
  exact h i hi

theorem of_allocCount (heq : ∀ i, (table' i).allocCount = (table i).allocCount) : Exact c table' es := by
  intro i hi
  rw [heq]
  exact h i hi

theorem alloc (hle : ∀ i, c.touching (e :: es) i ≤ 4096) : Exact c (c.zonePageAlloc e.addr e.size table) (e :: es) := by
  intro i hi
  have hcount := h i hi
  have hle := hle i
  rw [touching_cons] at hle ⊢
  rw [zonePageAlloc, eachPage_apply]
  split
  . next hon =>
    rw [if_pos hon] at hle
    left
    obtain heq | ⟨hzero, heq⟩ := hcount
    . rw [heq, if_neg (by rw [zonePageUnused]; omega), short_eq (by omega) (by omega)]
      rfl
    . rw [heq, if_pos rfl, hzero]
      rfl
  . exact hcount

theorem dealloc (hes : ∀ i, c.touching es i = c.touching (e :: es') i)
    (hle : ∀ i, c.touching es i ≤ 4096) : Exact c (c.zonePageDealloc e.addr e.size table) es' := by
  intro i hi
  have hcount := h i hi
  have hle := hle i
  rw [hes, touching_cons] at hcount hle
  rw [zonePageDealloc, eachPage_apply]
  split
  . next hon =>
    rw [if_pos hon] at hcount hle
    left
    dsimp only
    obtain heq | ⟨hzero, -⟩ := hcount
    . rw [heq, short_eq (by omega) (by omega)]
      omega
    . omega
  . next hon =>
    rw [if_neg hon] at hcount
    exact hcount

theorem init (hfree : ∀ i, c.On i e → c.touching es i = 0)
    : Exact c (c.zonePageInit e.addr e.size zonePageUsed table) es := by
  intro i hi
  rw [zonePageInit, eachPage_apply]
  split
  . next hon =>
    rw [hfree i hon]
    exact Or.inl rfl
  . exact h i hi

end

end Exact

structure Dead (c : ZoneMap) (pages : List Nat) (table : Nat → PageEntry) (held : Nat → Bool) (es : List Extent)
    : Prop where
  nodup : pages.Nodup
  lt : ∀ p ∈ pages, p < c.zonePages
  held : ∀ p ∈ pages, held p = true
  unused : ∀ p ∈ pages, (table p).allocCount = zonePageUnused
  none : ∀ p ∈ pages, c.touching es p = 0

variable {pages : List Nat} {held : Nat → Bool}

namespace Dead

theorem of_allocCount (h : Dead c pages table held es)
    (heq : ∀ i, (table' i).allocCount = (table i).allocCount) : Dead c pages table' held es :=
  ⟨h.nodup, h.lt, h.held, fun p hp => (heq p).trans (h.unused p hp), h.none⟩

theorem dealloc (h : Dead c pages table held es) (hes : ∀ i, c.touching es i = c.touching (e :: es') i)
    : Dead c pages (c.zonePageDealloc e.addr e.size table) held es' := by
  have hnone (p : Nat) (hp : p ∈ pages) : ¬ c.On p e ∧ c.touching es' p = 0 := by
    have hzero := h.none p hp
    rw [hes, touching_cons] at hzero
    split at hzero
    . omega
    . next hon => exact ⟨hon, hzero⟩
  refine ⟨h.nodup, h.lt, h.held, ?_, fun p hp => (hnone p hp).2⟩
  intro p hp
  rw [zonePageDealloc, eachPage_apply, if_neg (hnone p hp).1]
  exact h.unused p hp

end Dead

theorem ZoneMap.mem_pagesOf {addr size : Nat} : i ∈ c.pagesOf addr size ↔ c.Touches addr size i := by
  rw [pagesOf, List.mem_range'_1, Touches]
  omega

theorem Exact.addFreePageList (h : Exact c table es) (hdead : Dead c pages table held es) (hsize : 0 < e.size)
    (hheld : ∀ i, c.On i e → held i = true) : Exact c (c.zoneAddFreePageList pages e.addr e.size table).2 es ∧
        Dead c (c.zoneAddFreePageList pages e.addr e.size table).1
          (c.zoneAddFreePageList pages e.addr e.size table).2 held es := by
  rw [zoneAddFreePageList]
  by_cases houtside : c.Outside e.addr e.size
  . rw [if_pos houtside]
    exact ⟨h, hdead⟩
  . rw [if_neg houtside]
    dsimp only
    generalize hnew : (c.pagesOf e.addr e.size).filter (fun i => decide ((table i).allocCount = 0)) = new
    have hmem {p : Nat} : p ∈ new ↔ c.On p e ∧ (table p).allocCount = 0 := by
      rw [← hnew, List.mem_filter, mem_pagesOf, decide_eq_true_iff, ZoneMap.On]
      exact and_congr_left' (and_iff_right houtside).symm
    have hnone {p : Nat} (hp : p ∈ new) : c.touching es p = 0 := by
      obtain ⟨hon, hzero⟩ := hmem.1 hp
      obtain heq | ⟨heq, -⟩ := h p (hon.lt hsize)
      . omega
      . exact heq
    refine ⟨?_, ?_, ?_, ?_, ?_, ?_⟩
    . intro i hi
      dsimp only
      split
      . next hi' => exact Or.inr ⟨hnone hi', rfl⟩
      . exact h i hi
    . rw [List.nodup_append]
      refine ⟨?_, hdead.nodup, ?_⟩
      . rw [List.nodup_reverse, ← hnew]
        apply List.Nodup.filter
        exact List.nodup_range'
      . rintro p hp q hq rfl
        have hunused := hdead.unused p hq
        rw [(hmem.1 (List.mem_reverse.1 hp)).2] at hunused
        contradiction
    . exact List.forall_mem_append.2 ⟨fun p hp => (hmem.1 (List.mem_reverse.1 hp)).1.lt hsize, hdead.lt⟩
    . exact List.forall_mem_append.2 ⟨fun p hp => hheld p (hmem.1 (List.mem_reverse.1 hp)).1, hdead.held⟩
    . intro p hp
      split
      . rfl
      . next hnot =>
        obtain hp | hp := List.mem_append.1 hp
        . exact absurd (List.mem_reverse.1 hp) hnot
        . exact hdead.unused p hp
    . exact List.forall_mem_append.2 ⟨fun p hp => hnone (List.mem_reverse.1 hp), hdead.none⟩

theorem Gc.collect_table {g : Gc} (elt : Nat) (h : Exact c g.table es) (hdead : Dead c g.pages g.table held es)
    (hes : ∀ i, c.touching es i = c.touching (⟨elt, g.zone.elemSize⟩ :: es') i)
    (hle : ∀ i, c.touching es i ≤ 4096) (hsize : 0 < g.zone.elemSize)
    (hheld : ∀ i, c.On i ⟨elt, g.zone.elemSize⟩ → held i = true)
    : Exact c (g.collect c elt).table es' ∧ Dead c (g.collect c elt).pages (g.collect c elt).table held es' := by
  have hcount (i : Nat) : (c.zonePageInUse elt g.zone.elemSize g.table i).allocCount = (g.table i).allocCount := by
    rw [zonePageInUse, eachPage_apply]
    split
    . rfl
    . rfl
  have hexact := (h.of_allocCount hcount).dealloc hes hle
  have hdead := (hdead.of_allocCount hcount).dealloc hes
  rw [Gc.collect]
  split
  . exact hexact.addFreePageList hdead hsize hheld
  . exact ⟨hexact, hdead⟩

end Kern.Zalloc
