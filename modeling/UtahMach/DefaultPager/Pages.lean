import UtahMach.DefaultPager.Map

/-!
This module contains the listing of the pages that a paging object has allocated.
-/

namespace DefaultPager

open List (filter_append filter_eq_nil_iff length_append length_map length_singleton length_take map_append map_cons
  mem_of_mem_filter range_add sum_append sum_cons take_of_length_le)

open Vm (pageSize)

abbrev Levels := List (Option (List Block))

def slots {α : Type} (n : Nat) (map : List α) : Except Halt (List α) :=
  if n ≤ map.length then .ok (map.take n) else .error .astray

section

variable {σ : Type} (hole next : σ → σ) (entry : σ → Block → σ)

def walkLevels : Levels → σ → Except Halt σ
  | [], s => .ok s
  | none :: map, s => walkLevels map (hole s)
  | some map2 :: map, s => do
    let entries ← slots pagemapEntries map2
    walkLevels map (next (entries.foldl entry s))

/-- The loops of `pager_pages` and `pager_allocated` over the map. -/
def Dpager.walk (pager : Dpager) (s : σ) : Except Halt σ :=
  if indirectPagemap pager.size then
    match pager.map with
    | .direct _ => .error .astray
    | .indirect map => do
      let map ← slots (indirectPagemapEntries pager.size) map
      walkLevels hole next entry map s
  else
    match pager.map with
    | .indirect _ => .error .astray
    | .direct map => do
      let map ← slots pager.size map
      .ok (next (map.foldl entry s))

def onLevel (s : σ) : Option (List Block) → σ
  | none => hole s
  | some second => next (second.foldl entry s)

end

def countEntry (asize : Nat) (block : Block) : Nat := if block = noBlock then asize else asize + 1

def pagerAllocated (pager : Dpager) : Except Halt Nat := do
  let asize ← pager.walk id id countEntry 0
  .ok (ptoa asize)

structure Listing where
  pages : List Nat
  actual : Nat
  offset : Nat
deriving DecidableEq, Repr

namespace Listing

def skip (size : Nat) (l : Listing) : Listing := { l with offset := (l.offset + size) % 2 ^ 32 }

def note (numpages : Nat) (l : Listing) (block : Block) : Listing :=
  if block = noBlock then l
  else { l with pages := if l.actual < numpages then l.pages ++ [l.offset] else l.pages, actual := l.actual + 1 }

end Listing

def pagerPages (pager : Dpager) (numpages : Nat) : Except Halt Listing :=
  -- the offset moves on after the entries of a map, not after each of them
  pager.walk (.skip (pageSize * pagemapEntries)) (.skip pageSize) (.note numpages) ⟨[], 0, 0⟩

def Dpager.levels (pager : Dpager) : Levels :=
  match pager.map with
  | .direct map => [some map]
  | .indirect map => map

def Dpager.pagesBelow (pager : Dpager) (n : Nat) : List Nat :=
  (List.range n).filter fun p => pager.blockAt p ≠ noBlock

def Dpager.pages (pager : Dpager) : List Nat := pager.pagesBelow pager.size

/-- The page is the first entry of the first map that is there. -/
def Dpager.Leads (pager : Dpager) (p : Nat) : Prop :=
  p % pagemapEntries = 0 ∧ ∀ x ∈ pager.levels.take (p / pagemapEntries), x = none

instance (pager : Dpager) (p : Nat) : Decidable (pager.Leads p) := inferInstanceAs (Decidable (_ ∧ _))

theorem slots_eq {α : Type} {map : List α} {n : Nat} (h : map.length = n) : slots n map = .ok map := by
  rw [slots, if_pos (Nat.le_of_eq h.symm), take_of_length_le (Nat.le_of_eq h)]

variable {σ : Type} {hole next : σ → σ} {entry : σ → Block → σ}

theorem walkLevels_eq {map : Levels} (h : ∀ second, some second ∈ map → second.length = pagemapEntries) (s : σ)
    : walkLevels hole next entry map s = .ok (map.foldl (onLevel hole next entry) s) := by
  induction map generalizing s with
  | nil => rfl
  | cons x map ih =>
    have htail := ih fun second hmem => h second (List.mem_cons_of_mem _ hmem)
    cases x with
    | none => exact htail (hole s)
    | some second =>
      rw [walkLevels, slots_eq (h second List.mem_cons_self)]
      exact htail (next (second.foldl entry s))

namespace Dpager

def width (x : Option (List Block)) : Nat := if x = none then pageSize * pagemapEntries else pageSize

def noted (pager : Dpager) (p : Nat) : Nat :=
  ((pager.levels.take (p / pagemapEntries)).map width).sum % 2 ^ 32

theorem stretch_eq {f : Nat → Block} {entries : List Block} {n base c : Nat} (hlen : entries.length ≤ n)
    (hat : ∀ i < n, f (base + i) = entries[i]?.getD noBlock)
    : ((List.range' base n).filter fun p => f p ≠ noBlock).map (fun _ => c) =
        (entries.filter (· ≠ noBlock)).map fun _ => c := by
  induction n generalizing entries base with
  | zero =>
    cases List.eq_nil_of_length_eq_zero (Nat.le_zero.1 hlen)
    rfl
  | succ n ih =>
    rw [List.range'_succ]
    have hlen' : entries.tail.length ≤ n := by
      rw [List.length_tail]
      omega
    have htail := ih hlen' fun i hi => by
      rw [List.getElem?_tail, ← hat (i + 1) (by omega), ← Nat.add_assoc, Nat.add_right_comm]
    have hhead : f base = entries[0]?.getD noBlock := hat 0 (by omega)
    cases entries with
    | nil => simpa [hhead] using htail
    | cons block entries => by_cases hblock : block = noBlock <;> simpa [hhead, hblock] using htail

variable {pager : Dpager} {p : Nat}

section

variable (h : pager.Shaped)
include h

theorem Shaped.walk (s : σ)
    : pager.walk hole next entry s = .ok (pager.levels.foldl (onLevel hole next entry) s) := by
  rw [Dpager.walk, levels]
  obtain ⟨map, hmap, hlevel, -, hlen⟩ | ⟨map, hmap, hlevel, -, hlen, hsecond⟩ := h.cases
  . rw [hlevel, hmap]
    dsimp only
    rw [slots_eq hlen]
    rfl
  . rw [hlevel, hmap]
    dsimp only
    rw [slots_eq hlen]
    exact walkLevels_eq hsecond s

theorem Shaped.size_le : pager.size ≤ pagemapEntries * pager.levels.length := by
  rw [levels]
  obtain ⟨map, hmap, -, hle, -⟩ | ⟨map, hmap, -, -, hlen, -⟩ := h.cases
  . rw [hmap]
    exact hle
  . rw [hmap]
    dsimp only
    rw [hlen, indirectPagemapEntries, pagemapEntries]
    omega

variable {k : Nat} {x : Option (List Block)}

theorem Shaped.level (hx : pager.levels[k]? = some x)
    : (x.getD []).length ≤ pagemapEntries ∧ ∀ i < pagemapEntries,
        pager.blockAt (pagemapEntries * k + i) = (x.getD [])[i]?.getD noBlock := by
  rw [levels] at hx
  obtain ⟨map, hmap, -, hle, hlen⟩ | ⟨map, hmap, -, -, -, hsecond⟩ := h.cases
  . rw [hmap] at hx
    obtain ⟨hk, rfl⟩ := List.getElem?_eq_some_iff.1 hx
    cases Nat.lt_one_iff.1 hk
    refine ⟨hlen ▸ hle, fun i hi => ?_⟩
    rw [Dpager.blockAt, hmap, Nat.mul_zero, Nat.zero_add]
    rfl
  . rw [hmap] at hx
    constructor
    . cases x with
      | none => exact Nat.zero_le _
      | some second => exact Nat.le_of_eq (hsecond second (List.mem_of_getElem? hx))
    . intro i hi
      rw [Dpager.blockAt, hmap, DpMap.blockAt, Nat.mul_add_div (by decide), Nat.mul_add_mod, Nat.div_eq_of_lt hi,
        Nat.mod_eq_of_lt hi, Nat.add_zero]
      dsimp only at hx
      rw [hx, Option.getD_some]

theorem Shaped.pagesBelow_succ (hx : pager.levels[k]? = some x)
    : (pager.pagesBelow (pagemapEntries * (k + 1))).map pager.noted =
        (pager.pagesBelow (pagemapEntries * k)).map pager.noted ++
          ((x.getD []).filter (· ≠ noBlock)).map fun _ => ((pager.levels.take k).map width).sum % 2 ^ 32 := by
  obtain ⟨hlen, hblock⟩ := h.level hx
  rw [Nat.mul_succ, pagesBelow, pagesBelow, range_add, ← List.range'_eq_map_range, filter_append,
    map_append, ← stretch_eq hlen hblock, List.append_right_inj]
  apply List.map_congr_left
  intro p hp
  obtain ⟨hle, hlt⟩ := List.mem_range'_1.1 (mem_of_mem_filter hp)
  have hdiv : p / pagemapEntries = k := by
    rw [pagemapEntries] at hle hlt ⊢
    omega
  rw [noted, hdiv]

theorem Shaped.pages_eq : pager.pagesBelow (pagemapEntries * pager.levels.length) = pager.pages := by
  obtain ⟨d, hd⟩ := Nat.exists_eq_add_of_le h.size_le
  rw [hd, pages, pagesBelow, pagesBelow, range_add, filter_append, List.append_right_eq_self, filter_eq_nil_iff]
  intro p hp
  obtain ⟨i, -, rfl⟩ := List.mem_map.1 hp
  rw [h.outside _ (Nat.le_add_right _ _)]
  decide

end

end Dpager

namespace Listing

variable {numpages offset : Nat}

def of (numpages : Nat) (offsets : List Nat) (offset : Nat) : Listing :=
  ⟨offsets.take numpages, offsets.length, offset⟩

theorem foldl_note (entries : List Block) (offsets : List Nat)
    : entries.foldl (note numpages) (of numpages offsets offset) =
        of numpages (offsets ++ (entries.filter (· ≠ noBlock)).map fun _ => offset) offset := by
  induction entries generalizing offsets with
  | nil => simp
  | cons block entries ih =>
    rw [List.foldl_cons]
    by_cases hblock : block = noBlock
    . simpa [note, hblock] using ih offsets
    . have hnote : (of numpages offsets offset).note numpages block = of numpages (offsets ++ [offset]) offset := by
        rw [note, if_neg hblock, of, of, length_append, length_singleton]
        by_cases hlt : offsets.length < numpages
        . rw [if_pos hlt, take_of_length_le (Nat.le_of_lt hlt), take_of_length_le (by simp; omega)]
        . rw [if_neg hlt, List.take_append_of_le_length (Nat.le_of_not_lt hlt)]
      rw [hnote, ih]
      simp [hblock]

end Listing

namespace Dpager

variable {pager : Dpager} {p : Nat}

theorem Shaped.noteLevels (h : pager.Shaped) (numpages : Nat) {k : Nat} (hk : k ≤ pager.levels.length)
    : (pager.levels.take k).foldl
          (onLevel (Listing.skip (pageSize * pagemapEntries)) (.skip pageSize) (.note numpages)) ⟨[], 0, 0⟩ =
        .of numpages ((pager.pagesBelow (pagemapEntries * k)).map pager.noted)
          (((pager.levels.take k).map width).sum % 2 ^ 32) := by
  induction k with
  | zero => simp [Listing.of, pagesBelow]
  | succ k ih =>
    have hx := List.getElem?_eq_getElem hk
    rw [h.pagesBelow_succ hx, List.take_succ_eq_append_getElem hk, List.foldl_append, ih (Nat.le_of_lt hk)]
    rw [map_append, sum_append, ← Nat.mod_add_mod]
    generalize ((pager.levels.take k).map width).sum % 2 ^ 32 = offset
    cases pager.levels[k] with
    | none =>
      rw [Option.getD_none, List.filter_nil, List.map_nil, List.append_nil]
      rfl
    | some second =>
      rw [Option.getD_some, List.foldl_cons, onLevel, Listing.foldl_note]
      rfl

theorem countLevels_eq {levels : Levels} (numpages hole next : Nat) (l : Listing)
    : levels.foldl (onLevel id id countEntry) l.actual =
        (levels.foldl (onLevel (.skip hole) (.skip next) (.note numpages)) l).actual := by
  apply List.foldl_hom Listing.actual
  intro l x
  cases x with
  | none => rfl
  | some second =>
    apply List.foldl_hom Listing.actual
    intro l block
    rw [countEntry, Listing.note]
    split <;> rfl

theorem sum_width (done : Levels)
    : (done.map width).sum + 63 * pageSize * done.countP Option.isSome = 64 * pageSize * done.length := by
  induction done with
  | nil => rfl
  | cons x done ih =>
    rw [map_cons, sum_cons, List.length_cons, List.countP_cons]
    have hsize : pageSize = 4096 := rfl
    rw [hsize] at ih ⊢
    cases x with
    | none =>
      change 4096 * 64 + _ + 63 * 4096 * (_ + 0) = _
      omega
    | some second =>
      change 4096 + _ + 63 * 4096 * (_ + 1) = _
      omega

theorem Shaped.noted_eq_iff (h : pager.Shaped) (hp : p < pager.size)
    : pager.noted p = p * pageSize ↔ pager.Leads p ∧ p < 2 ^ 20 := by
  have hsize : pageSize = 4096 := rfl
  have hle := h.size_le
  have hsum := sum_width (pager.levels.take (p / pagemapEntries))
  have hcount := List.countP_le_length (p := Option.isSome) (l := pager.levels.take (p / pagemapEntries))
  have hnone : (∀ x ∈ pager.levels.take (p / pagemapEntries), x = none) ↔
      (pager.levels.take (p / pagemapEntries)).countP Option.isSome = 0 := by
    simp [List.countP_eq_zero]
  rw [Leads, hnone, noted, hsize]
  rw [length_take, hsize] at hsum
  rw [length_take] at hcount
  generalize (pager.levels.take (p / pagemapEntries)).countP Option.isSome = c at hsum hcount ⊢
  generalize ((pager.levels.take (p / pagemapEntries)).map width).sum = w at hsum ⊢
  rw [pagemapEntries] at hle hsum hcount ⊢
  have hmod := Nat.mod_le w (2 ^ 32)
  constructor
  . intro heq
    omega
  . rintro ⟨⟨hfirst, rfl⟩, hlt⟩
    rw [Nat.mod_eq_of_lt] <;> omega

end Dpager

theorem pagerPages_exact_iff {pager : Dpager} (h : pager.Shaped) (numpages : Nat)
    : ∃ l allocated, pagerPages pager numpages = .ok l ∧ pagerAllocated pager = .ok allocated ∧
        (l.actual = pager.pages.length ∧ l.actual = allocated / pageSize ∧
            l.pages = (pager.pages.take numpages).map (· * pageSize) ↔
          pager.pages.length < 2 ^ 20 ∧ ∀ p ∈ pager.pages.take numpages, pager.Leads p ∧ p < 2 ^ 20) := by
  have hpages := h.noteLevels numpages (Nat.le_refl _)
  rw [List.take_length, h.pages_eq] at hpages
  rw [pagerPages, pagerAllocated, h.walk, h.walk, hpages]
  refine ⟨_, _, rfl, rfl, ?_⟩
  rw [Dpager.countLevels_eq numpages _ _ ⟨[], 0, 0⟩, hpages, Listing.of, length_map]
  have hcount : pager.pages.length = ptoa pager.pages.length / pageSize ↔ pager.pages.length < 2 ^ 20 := by
    have hsize : pageSize = 4096 := rfl
    rw [ptoa, hsize]
    omega
  rw [hcount, ← List.map_take, List.map_inj_left, eq_self, true_and]
  refine and_congr_right fun _ => forall₂_congr ?_
  intro p hp
  apply h.noted_eq_iff
  exact List.mem_range.1 (mem_of_mem_filter (List.mem_of_mem_take hp))

theorem pagerPages_exact_first
    : ∃ l allocated, pagerPages ⟨.direct [⟨7, 0⟩, noBlock], 2, 0⟩ 5 = .ok l ∧ l.pages = [0] ∧
        pagerAllocated ⟨.direct [⟨7, 0⟩, noBlock], 2, 0⟩ = .ok allocated ∧ l.actual = allocated / pageSize := by
  have hshaped : Dpager.Shaped ⟨.direct [⟨7, 0⟩, noBlock], 2, 0⟩ := ⟨by decide, ⟨by decide, rfl⟩, fun p hp => by
    rw [Dpager.blockAt, DpMap.blockAt, List.getElem?_eq_none hp]
    rfl⟩
  obtain ⟨l, allocated, hpages, hallocated, hiff⟩ := pagerPages_exact_iff hshaped 5
  obtain ⟨-, hactual, hlist⟩ := hiff.2 ⟨by decide, by decide⟩
  exact ⟨l, allocated, hpages, hlist, hallocated, hactual⟩

theorem pagerPages_misplaced
    : ∃ pager l, (pagerAlloc 0 (2 * pageSize)).setEntry 1 ⟨7, 0⟩ = .ok pager ∧ pager.pages = [1] ∧
        pagerPages pager 5 = .ok l ∧ l.pages = [0] := ⟨_, _, rfl, rfl, rfl, rfl⟩

end DefaultPager
