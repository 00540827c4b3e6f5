import UtahMach.DefaultPager.Partition

/-!
This module contains the block map of a paging object.
-/

namespace DefaultPager

open List (getElem?_eq_getElem getElem?_replicate getElem?_set length_replicate length_set mem_replicate
  replicate)

open Vm (pageSize)

structure Block where
  pOffset : Nat
  pIndex : Nat
deriving DecidableEq, Repr

def noBlock : Block := ⟨0xFFFFFF, 0xFF⟩

inductive DpMap where
  | direct (map : List Block)
  | indirect (map : List (Option (List Block)))
deriving DecidableEq, Repr

structure Dpager where
  map : DpMap
  size : Nat
  curPartition : Nat
deriving DecidableEq, Repr

def pagemapEntries : Nat := 64

def indirectPagemapEntries (npgs : Nat) : Nat := (npgs - 1) / pagemapEntries + 1

def indirectPagemap (size : Nat) : Bool := decide (pagemapEntries < size)

def roundupToPagemap (npgs : Nat) : Nat := (npgs + pagemapEntries - 1) / pagemapEntries * pagemapEntries

def maxDoubledSize : Nat := 4 * 1024 * 1024

def doubleUntil (newSize : Nat) : Nat → Nat → Nat
  | 0, i => i
  | fuel + 1, i => if i < newSize then doubleUntil newSize fuel (i * 2) else i

def copyEntries {α : Type} (n m : Nat) (old : List α) (fill : α) : Except Halt (List α) :=
  if m ≤ old.length ∧ m ≤ n then .ok (old.take m ++ List.replicate (n - m) fill) else .error .astray

def pagerAlloc (part size : Nat) : Dpager :=
  let size := atop size
  let size := if size ≤ atop maxDoubledSize then doubleUntil size size 1 else roundupToPagemap size
  { map :=
      if indirectPagemap size then .indirect (List.replicate (indirectPagemapEntries size) none)
      else .direct (List.replicate size noBlock)
    size := size
    curPartition := part }

def extendedSize (oldSize newSize : Nat) : Nat :=
  if newSize ≤ atop maxDoubledSize then doubleUntil newSize newSize oldSize else roundupToPagemap newSize

def pagerExtend (pager : Dpager) (newSize : Nat) : Except Halt Dpager :=
  let oldSize := pager.size
  let newSize := extendedSize oldSize newSize
  if indirectPagemap oldSize then
    match pager.map with
    | .direct _ => .error .astray
    | .indirect oldMap => do
      let newMap ←
        copyEntries (indirectPagemapEntries newSize) (indirectPagemapEntries oldSize) oldMap none
      .ok { pager with map := .indirect newMap, size := newSize }
  else
    match pager.map with
    | .indirect _ => .error .astray
    | .direct oldMap =>
      if indirectPagemap newSize then do
        -- the second level has its full size, however short the old map is
        let second ← copyEntries pagemapEntries oldSize oldMap noBlock
        let newMap := some second :: List.replicate (indirectPagemapEntries newSize - 1) none
        .ok { pager with map := .indirect newMap, size := newSize }
      else do
        let newMap ← copyEntries newSize oldSize oldMap noBlock
        .ok { pager with map := .direct newMap, size := newSize }

namespace Dpager

def entry (pager : Dpager) (fPage : Nat) : Except Halt Block :=
  if indirectPagemap pager.size then
    match pager.map with
    | .direct _ => .error .astray
    | .indirect map =>
      match map[fPage / pagemapEntries]? with
      | none => .error .astray
      | some none => .ok noBlock
      | some (some second) =>
        match second[fPage % pagemapEntries]? with
        | none => .error .astray
        | some block => .ok block
  else
    match pager.map with
    | .indirect _ => .error .astray
    | .direct map =>
      match map[fPage]? with
      | none => .error .astray
      | some block => .ok block

def setEntry (pager : Dpager) (fPage : Nat) (block : Block) : Except Halt Dpager :=
  if indirectPagemap pager.size then
    match pager.map with
    | .direct _ => .error .astray
    | .indirect map =>
      match map[fPage / pagemapEntries]? with
      | some (some second) =>
        if fPage % pagemapEntries < second.length then
          let second := second.set (fPage % pagemapEntries) block
          .ok { pager with map := .indirect (map.set (fPage / pagemapEntries) (some second)) }
        else .error .astray
      | _ => .error .astray
  else
    match pager.map with
    | .indirect _ => .error .astray
    | .direct map =>
      if fPage < map.length then .ok { pager with map := .direct (map.set fPage block) }
      else .error .astray

def mapPages (pager : Dpager) : Nat :=
  if indirectPagemap pager.size then indirectPagemapEntries pager.size * pagemapEntries else pager.size

def secondLevel (pager : Dpager) (fPage : Nat) : Except Halt Dpager :=
  if indirectPagemap pager.size then
    match pager.map with
    | .direct _ => .error .astray
    | .indirect map =>
      match map[fPage / pagemapEntries]? with
      | none => .error .astray
      | some (some _) => .ok pager
      | some none =>
        let second := List.replicate pagemapEntries noBlock
        .ok { pager with map := .indirect (map.set (fPage / pagemapEntries) (some second)) }
  else .ok pager

end Dpager

def pagerReadOffset (pager : Dpager) (offset : Nat) : Except Halt Block :=
  if pager.size ≤ atop offset then .error (.panic "%spager_read_offset")
  else pager.entry (atop offset)

def pagerReleaseOffset {β : Type} (ps : Parts β) (pager : Dpager) (offset : Nat)
    : Except Halt (Parts β × Dpager) := do
  let block ← pager.entry (atop offset)
  let pager ← pager.setEntry (atop offset) noBlock
  let ps ← pagerDeallocPage ps block.pIndex block.pOffset true
  .ok (ps, pager)

def DpMap.blockAt : DpMap → Nat → Block
  | .direct map, p => map[p]?.getD noBlock
  | .indirect map, p => ((map[p / pagemapEntries]?.getD none).getD [])[p % pagemapEntries]?.getD noBlock

def Dpager.blockAt (pager : Dpager) (p : Nat) : Block := pager.map.blockAt p

def DpMap.Fits (size : Nat) : DpMap → Prop
  | .direct map => size ≤ pagemapEntries ∧ map.length = size
  | .indirect map =>
    pagemapEntries < size ∧ map.length = indirectPagemapEntries size ∧
      ∀ second, some second ∈ map → second.length = pagemapEntries

structure Dpager.Shaped (pager : Dpager) : Prop where
  pos : 0 < pager.size
  fits : pager.map.Fits pager.size
  outside : ∀ p, pager.size ≤ p → pager.blockAt p = noBlock

theorem le_doubleUntil (newSize fuel i : Nat) : i ≤ doubleUntil newSize fuel i := by
  induction fuel generalizing i with
  | zero => exact Nat.le_refl _
  | succ fuel ih =>
    rw [doubleUntil]
    split
    . have := ih (i * 2)
      omega
    . exact Nat.le_refl _

theorem doubleUntil_covers {newSize fuel i : Nat} (hi : 0 < i) (hfuel : newSize ≤ i + fuel)
    : newSize ≤ doubleUntil newSize fuel i := by
  induction fuel generalizing i with
  | zero => exact hfuel
  | succ fuel ih =>
    rw [doubleUntil]
    split
    . apply ih <;> omega
    . omega

theorem le_roundupToPagemap (n : Nat) : n ≤ roundupToPagemap n := by
  rw [roundupToPagemap, pagemapEntries]
  omega

def Extends (oldSize newSize : Nat) : Prop := newSize ≤ atop maxDoubledSize ∨ oldSize ≤ roundupToPagemap newSize

instance (oldSize newSize : Nat) : Decidable (Extends oldSize newSize) := inferInstanceAs (Decidable (_ ∨ _))

theorem le_extendedSize_iff : oldSize ≤ extendedSize oldSize newSize ↔ Extends oldSize newSize := by
  rw [extendedSize, Extends]
  split
  . next h => exact iff_of_true (le_doubleUntil _ _ _) (Or.inl h)
  . next h =>
    constructor
    . exact Or.inr
    . rintro (hle | hle)
      . exact absurd hle h
      . exact hle

theorem extendedSize_covers (h : 0 < oldSize) (newSize : Nat) : newSize ≤ extendedSize oldSize newSize := by
  rw [extendedSize]
  split
  . exact doubleUntil_covers h (by omega)
  . exact le_roundupToPagemap newSize

theorem indirectPagemapEntries_mono {n m : Nat} (h : n ≤ m)
    : indirectPagemapEntries n ≤ indirectPagemapEntries m := by
  rw [indirectPagemapEntries, indirectPagemapEntries, pagemapEntries]
  omega

theorem div_lt_indirectPagemapEntries {p size : Nat} (h : p < size)
    : p / pagemapEntries < indirectPagemapEntries size := by
  rw [indirectPagemapEntries, pagemapEntries]
  omega

theorem mod_lt_pagemapEntries (p : Nat) : p % pagemapEntries < pagemapEntries := Nat.mod_lt p (by decide)

variable {α : Type} {n m : Nat} {old : List α} {fill : α}

theorem copyEntries_eq (hold : m ≤ old.length) (hn : m ≤ n)
    : copyEntries n m old fill = .ok (old.take m ++ replicate (n - m) fill) := if_pos ⟨hold, hn⟩

theorem getD_copied (hold : old.length = m) (p : Nat)
    : (old.take m ++ replicate (n - m) fill)[p]?.getD fill = old[p]?.getD fill := by
  rw [List.take_of_length_le (Nat.le_of_eq hold)]
  by_cases hp : p < old.length
  . rw [List.getElem?_append_left hp]
  . rw [List.getElem?_append_right (Nat.le_of_not_lt hp), getElem?_replicate,
      List.getElem?_eq_none (Nat.le_of_not_lt hp)]
    split <;> rfl

theorem length_copied (hold : old.length = m) (hn : m ≤ n) : (old.take m ++ replicate (n - m) fill).length = n := by
  rw [List.length_append, List.length_take, length_replicate]
  omega

namespace Dpager

variable {pager : Dpager} {p q newSize : Nat} {block : Block}

theorem size_le_mapPages (pager : Dpager) : pager.size ≤ pager.mapPages := by
  rw [mapPages, indirectPagemapEntries]
  split
  . rw [pagemapEntries]
    omega
  . exact Nat.le_refl _

section

variable (h : pager.Shaped)
include h

theorem Shaped.lt_of_blockAt (hp : pager.blockAt p ≠ noBlock) : p < pager.size := by
  apply Nat.lt_of_not_le
  intro hle
  exact hp (h.outside p hle)

theorem Shaped.cases
    : (∃ map, pager.map = .direct map ∧ indirectPagemap pager.size = false ∧ pager.size ≤ pagemapEntries ∧
          map.length = pager.size) ∨
        ∃ map, pager.map = .indirect map ∧ indirectPagemap pager.size = true ∧ pagemapEntries < pager.size ∧
          map.length = indirectPagemapEntries pager.size ∧
          ∀ second, some second ∈ map → second.length = pagemapEntries := by
  have hfits := h.fits
  cases hmap : pager.map with
  | direct map =>
    rw [hmap] at hfits
    exact Or.inl ⟨map, rfl, decide_eq_false (Nat.not_lt.2 hfits.1), hfits⟩
  | indirect map =>
    rw [hmap] at hfits
    exact Or.inr ⟨map, rfl, decide_eq_true hfits.1, hfits⟩

theorem Shaped.entry_of_lt_mapPages (hp : p < pager.mapPages) : pager.entry p = .ok (pager.blockAt p) := by
  rw [Dpager.entry, Dpager.blockAt]
  rw [mapPages] at hp
  obtain ⟨map, hmap, hlevel, -, hlen⟩ | ⟨map, hmap, hlevel, -, hlen, hsecond⟩ := h.cases
  . rw [hlevel, if_neg Bool.false_ne_true] at hp
    rw [hlevel, hmap, if_neg Bool.false_ne_true]
    dsimp only
    rw [DpMap.blockAt, getElem?_eq_getElem (by omega)]
    rfl
  . rw [hlevel, if_pos rfl] at hp
    have hlt : p / pagemapEntries < map.length := by
      rw [hlen]
      exact (Nat.div_lt_iff_lt_mul (by decide)).2 hp
    rw [hlevel, hmap, if_pos rfl]
    dsimp only
    rw [DpMap.blockAt, getElem?_eq_getElem hlt]
    cases hx : map[p / pagemapEntries] with
    | none => rfl
    | some second =>
      have hlen2 := hsecond second (hx ▸ List.getElem_mem hlt)
      dsimp only [Option.getD_some]
      rw [getElem?_eq_getElem (hlen2 ▸ mod_lt_pagemapEntries p)]
      rfl

theorem Shaped.entry (hp : p < pager.size) : pager.entry p = .ok (pager.blockAt p) :=
  h.entry_of_lt_mapPages (Nat.lt_of_lt_of_le hp pager.size_le_mapPages)

end

def Reaches (pager : Dpager) (p : Nat) : Prop :=
  match pager.map with
  | .direct _ => True
  | .indirect map => ∃ second, map[p / pagemapEntries]? = some (some second)

theorem reaches_of_blockAt (hp : pager.blockAt p ≠ noBlock) : pager.Reaches p := by
  rw [Dpager.blockAt] at hp
  rw [Reaches]
  cases hmap : pager.map with
  | direct map => trivial
  | indirect map =>
    rw [hmap, DpMap.blockAt] at hp
    dsimp only
    cases hx : map[p / pagemapEntries]? with
    | none =>
      rw [hx] at hp
      exact absurd rfl hp
    | some x =>
      cases x with
      | none =>
        rw [hx] at hp
        exact absurd rfl hp
      | some second => exact ⟨second, rfl⟩

theorem Shaped.setEntry (h : pager.Shaped) (hp : p < pager.size) (hreach : pager.Reaches p) (block : Block)
    : ∃ pager', pager.setEntry p block = .ok pager' ∧ pager'.Shaped ∧ pager'.size = pager.size ∧
        pager'.curPartition = pager.curPartition ∧
        ∀ q, pager'.blockAt q = if p = q then block else pager.blockAt q := by
  suffices ∃ map', pager.setEntry p block = .ok { pager with map := map' } ∧ map'.Fits pager.size ∧
      ∀ q, map'.blockAt q = if p = q then block else pager.blockAt q by
    obtain ⟨map', heq, hfits, hblock⟩ := this
    refine ⟨_, heq, ⟨h.pos, hfits, ?_⟩, rfl, rfl, hblock⟩
    intro q hq
    change pager.size ≤ q at hq
    show map'.blockAt q = noBlock
    rw [hblock, if_neg (by omega)]
    exact h.outside q hq
  rw [Dpager.setEntry]
  obtain ⟨map, hmap, hlevel, hle, hlen⟩ | ⟨map, hmap, hlevel, hlt, hlen, hsecond⟩ := h.cases
  . rw [hlevel, hmap, if_neg Bool.false_ne_true]
    dsimp only
    rw [if_pos (by omega)]
    refine ⟨_, rfl, ⟨hle, length_set.trans hlen⟩, ?_⟩
    intro q
    rw [Dpager.blockAt, hmap, DpMap.blockAt, DpMap.blockAt, getElem?_set]
    split
    . rw [if_pos (by omega)]
      rfl
    . rfl
  . rw [Reaches, hmap] at hreach
    obtain ⟨second, hget⟩ := hreach
    have hp' : p / pagemapEntries < map.length := hlen ▸ div_lt_indirectPagemapEntries hp
    have hlen2 : second.length = pagemapEntries := hsecond second (List.mem_of_getElem? hget)
    have hmod : p % pagemapEntries < second.length := hlen2 ▸ mod_lt_pagemapEntries p
    rw [hlevel, hmap, if_pos rfl]
    dsimp only
    rw [hget]
    dsimp only
    rw [if_pos hmod]
    refine ⟨_, rfl, ⟨hlt, length_set.trans hlen, ?_⟩, ?_⟩
    . intro second' hmem
      obtain hmem | heq := List.mem_or_eq_of_mem_set hmem
      . exact hsecond second' hmem
      . cases heq
        rw [length_set]
        exact hlen2
    . intro q
      rw [Dpager.blockAt, hmap, DpMap.blockAt, DpMap.blockAt, getElem?_set]
      by_cases hdiv : p / pagemapEntries = q / pagemapEntries
      . rw [if_pos hdiv, if_pos (by omega), ← hdiv, hget]
        dsimp only [Option.getD_some]
        rw [getElem?_set]
        by_cases hmod' : p % pagemapEntries = q % pagemapEntries
        . rw [if_pos hmod', if_pos (by omega), if_pos ((Bitmap.mod_eq_iff_of_div_eq hdiv).1 hmod')]
          rfl
        . rw [if_neg hmod', if_neg (fun heq => hmod' ((Bitmap.mod_eq_iff_of_div_eq hdiv).2 heq))]
      . have hne : p ≠ q := fun heq => hdiv (by rw [heq])
        rw [if_neg hdiv, if_neg hne]

theorem Shaped.secondLevel (h : pager.Shaped) (hp : p < pager.size)
    : ∃ pager', pager.secondLevel p = .ok pager' ∧ pager'.Shaped ∧ pager'.Reaches p ∧
        pager'.size = pager.size ∧ pager'.curPartition = pager.curPartition ∧
        ∀ q, pager'.blockAt q = pager.blockAt q := by
  rw [Dpager.secondLevel]
  obtain ⟨map, hmap, hlevel, -, hlen⟩ | ⟨map, hmap, hlevel, hlt, hlen, hsecond⟩ := h.cases
  . refine ⟨pager, ?_, h, ?_, rfl, rfl, fun _ => rfl⟩
    . rw [hlevel]
      rfl
    . rw [Reaches, hmap]
      trivial
  . have hp' : p / pagemapEntries < map.length := hlen ▸ div_lt_indirectPagemapEntries hp
    rw [hlevel, hmap, if_pos rfl]
    dsimp only
    cases hx : map[p / pagemapEntries] with
    | some second =>
      have hget : map[p / pagemapEntries]? = some (some second) := by
        rw [getElem?_eq_getElem hp', hx]
      refine ⟨pager, ?_, h, ?_, rfl, rfl, fun _ => rfl⟩
      . rw [hget]
      . rw [Reaches, hmap]
        exact ⟨second, hget⟩
    | none =>
      have hget : map[p / pagemapEntries]? = some none := by
        rw [getElem?_eq_getElem hp', hx]
      have hblock (q : Nat) : (DpMap.indirect (map.set (p / pagemapEntries)
          (some (replicate pagemapEntries noBlock)))).blockAt q = pager.blockAt q := by
        rw [Dpager.blockAt, hmap, DpMap.blockAt, DpMap.blockAt, getElem?_set]
        by_cases hdiv : p / pagemapEntries = q / pagemapEntries
        . rw [if_pos hdiv, if_pos (by omega), ← hdiv, hget]
          dsimp only [Option.getD_some, Option.getD_none]
          rw [getElem?_replicate, if_pos (mod_lt_pagemapEntries q)]
          rfl
        . rw [if_neg hdiv]
      rw [hget]
      refine ⟨_, rfl, ⟨h.pos, ⟨hlt, length_set.trans hlen, ?_⟩, ?_⟩, ?_, rfl, rfl, hblock⟩
      . intro second' hmem
        obtain hmem | heq := List.mem_or_eq_of_mem_set hmem
        . exact hsecond second' hmem
        . cases heq
          exact length_replicate
      . intro q hq
        exact (hblock q).trans (h.outside q hq)
      . exact ⟨_, List.getElem?_set_self hp'⟩

theorem Shaped.extend (h : pager.Shaped) (hext : Extends pager.size newSize)
    : ∃ pager', pagerExtend pager newSize = .ok pager' ∧ pager'.Shaped ∧
        pager'.size = extendedSize pager.size newSize ∧ pager'.curPartition = pager.curPartition ∧
        ∀ q, pager'.blockAt q = pager.blockAt q := by
  have hle := le_extendedSize_iff.2 hext
  have hpos := h.pos
  suffices ∃ map', pagerExtend pager newSize =
        .ok { pager with map := map', size := extendedSize pager.size newSize } ∧
      map'.Fits (extendedSize pager.size newSize) ∧ ∀ q, map'.blockAt q = pager.blockAt q by
    obtain ⟨map', heq, hfits, hblock⟩ := this
    refine ⟨_, heq, ⟨by dsimp only; omega, hfits, ?_⟩, rfl, rfl, hblock⟩
    intro q hq
    change extendedSize pager.size newSize ≤ q at hq
    exact (hblock q).trans (h.outside q (by omega))
  rw [pagerExtend]
  generalize extendedSize pager.size newSize = size' at hle ⊢
  obtain ⟨map, hmap, hlevel, hsmall, hlen⟩ | ⟨map, hmap, hlevel, hlt, hlen, hsecond⟩ := h.cases
  . rw [hlevel, hmap, if_neg Bool.false_ne_true]
    dsimp only
    by_cases hnew : pagemapEntries < size'
    . -- the whole map becomes the first map of the second level
      rw [indirectPagemap, decide_eq_true hnew, if_pos rfl, copyEntries_eq (Nat.le_of_eq hlen.symm) hsmall]
      refine ⟨_, rfl, ⟨hnew, ?_, ?_⟩, ?_⟩
      . rw [List.length_cons, length_replicate]
        exact Nat.sub_add_cancel (Nat.le_add_left 1 _)
      . intro second hmem
        rw [List.mem_cons, mem_replicate] at hmem
        obtain heq | ⟨-, heq⟩ := hmem
        . cases heq
          exact length_copied hlen hsmall
        . cases heq
      . intro q
        rw [Dpager.blockAt, hmap, DpMap.blockAt, DpMap.blockAt]
        by_cases hq : q < pagemapEntries
        . rw [Nat.div_eq_of_lt hq, Nat.mod_eq_of_lt hq]
          exact getD_copied hlen q
        . have hdiv : 0 < q / pagemapEntries := Nat.div_pos (Nat.le_of_not_lt hq) (by decide)
          obtain ⟨k, hk⟩ : ∃ k, q / pagemapEntries = k + 1 := ⟨q / pagemapEntries - 1, by omega⟩
          rw [hk, List.getElem?_cons_succ, getElem?_replicate, List.getElem?_eq_none (l := map) (by omega)]
          split <;> rfl
    . rw [indirectPagemap, decide_eq_false hnew, if_neg Bool.false_ne_true, copyEntries_eq (Nat.le_of_eq hlen.symm) hle]
      refine ⟨_, rfl, ⟨Nat.le_of_not_lt hnew, length_copied hlen hle⟩, ?_⟩
      intro q
      rw [Dpager.blockAt, hmap]
      exact getD_copied hlen q
  . have hentries := indirectPagemapEntries_mono hle
    rw [hlevel, hmap, if_pos rfl]
    dsimp only
    rw [copyEntries_eq (Nat.le_of_eq hlen.symm) hentries]
    refine ⟨_, rfl, ⟨by omega, length_copied hlen hentries, ?_⟩, ?_⟩
    . intro second hmem
      rw [List.mem_append, mem_replicate] at hmem
      obtain hmem | ⟨-, heq⟩ := hmem
      . exact hsecond second (List.mem_of_mem_take hmem)
      . cases heq
    . intro q
      rw [Dpager.blockAt, hmap, DpMap.blockAt, DpMap.blockAt, getD_copied hlen]

theorem Shaped.extend_astray (h : pager.Shaped) (hext : ¬ Extends pager.size newSize)
    : pagerExtend pager newSize = .error .astray := by
  have hsize : extendedSize pager.size newSize = roundupToPagemap newSize := by
    rw [extendedSize, if_neg fun hle => hext (Or.inl hle)]
  rw [Extends, not_or, roundupToPagemap, maxDoubledSize, atop] at hext
  obtain ⟨hlarge, hshrink⟩ := hext
  have hbig : 64 < pager.size := by
    change ¬ newSize ≤ 1024 at hlarge
    rw [pagemapEntries] at hshrink
    omega
  obtain ⟨map, hmap, -, hsmall, -⟩ | ⟨map, hmap, hlevel, -, -, -⟩ := h.cases
  . rw [pagemapEntries] at hsmall
    omega
  . rw [pagerExtend]
    rw [hlevel, hmap, if_pos rfl, hsize]
    dsimp only
    rw [copyEntries, if_neg]
    . rfl
    . rintro ⟨-, hle⟩
      rw [indirectPagemapEntries, indirectPagemapEntries, roundupToPagemap] at hle
      rw [pagemapEntries] at hle hshrink
      omega

end Dpager

theorem pagerAlloc_shaped (part size : Nat)
    : (pagerAlloc part size).Shaped ∧ ∀ p, (pagerAlloc part size).blockAt p = noBlock := by
  rw [pagerAlloc]
  generalize hsize : (if atop size ≤ atop maxDoubledSize then doubleUntil (atop size) (atop size) 1
    else roundupToPagemap (atop size)) = n
  have hpos : 0 < n := by
    rw [← hsize]
    split
    . have := le_doubleUntil (atop size) (atop size) 1
      omega
    . next h =>
      have := le_roundupToPagemap (atop size)
      omega
  by_cases hlevel : pagemapEntries < n
  . rw [indirectPagemap, decide_eq_true hlevel, if_pos rfl]
    have hblock (p : Nat) : (DpMap.indirect (replicate (indirectPagemapEntries n) none)).blockAt p = noBlock := by
      rw [DpMap.blockAt, getElem?_replicate]
      split <;> rfl
    refine ⟨⟨hpos, ⟨hlevel, length_replicate, ?_⟩, fun p _ => hblock p⟩, hblock⟩
    intro second hmem
    rw [mem_replicate] at hmem
    cases hmem.2
  . rw [indirectPagemap, decide_eq_false hlevel, if_neg Bool.false_ne_true]
    have hblock (p : Nat) : (DpMap.direct (replicate n noBlock)).blockAt p = noBlock := by
      rw [DpMap.blockAt, getElem?_replicate]
      split <;> rfl
    exact ⟨⟨hpos, ⟨Nat.le_of_not_lt hlevel, length_replicate⟩, fun p _ => hblock p⟩, hblock⟩

end DefaultPager
