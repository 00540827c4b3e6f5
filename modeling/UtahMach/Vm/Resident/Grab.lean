import UtahMach.Vm.Resident.Scan
import UtahMach.Data.Linked

/-!
This module contains what grabbing consecutive pages does to the list of free pages.
-/

open Runs

namespace Vm

open Function

namespace FreePages

variable {s : FreePages} {l : List Nat} {head prevmem : Option Nat} {fuel first n npages : Nat}

def pagenum (s : FreePages) (mem : Nat) : Nat := s.physAddr mem >>> pageShift

def isFree (s : FreePages) (l : List Nat) (p : Nat) : Bool := l.any (s.pagenum · == p)

theorem isFree_iff {p : Nat} : s.isFree l p ↔ ∃ mem ∈ l, s.pagenum mem = p := by
  simp [isFree]

theorem setBits_spec (h : Linked s.pageqNext head l) (hfuel : l.length ≤ fuel) (bits : Nat → Nat)
    : ∃ bits', s.setBits fuel head bits = .ok bits'
        ∧ ∀ word b, (bits' word).testBit b =
            ((bits word).testBit b || l.any fun mem => s.pagenum mem / nbpel = word ∧ s.pagenum mem % nbpel = b) := by
  induction l generalizing head fuel bits with
  | nil =>
    obtain rfl := Linked.nil_iff.1 h
    cases fuel <;> exact ⟨bits, rfl, by simp⟩
  | cons mem l ih =>
    obtain ⟨rfl, hrest⟩ := Linked.cons_iff.1 h
    obtain ⟨fuel, rfl⟩ : ∃ k, fuel = k + 1 := ⟨fuel - 1, by simp at hfuel; omega⟩
    obtain ⟨bits', heq, hbits⟩ := ih hrest (Nat.le_of_succ_le_succ hfuel) _
    refine ⟨bits', heq, ?_⟩
    intro word b
    rw [hbits, List.any_cons, ← Bool.or_assoc]
    congr 1
    have hnum : s.physAddr mem >>> pageShift = s.pagenum mem := rfl
    have hmod : s.pagenum mem - s.pagenum mem / nbpel * nbpel = s.pagenum mem % nbpel := by
      have := Nat.div_add_mod' (s.pagenum mem) nbpel
      omega
    rw [hnum, hmod]
    by_cases hword : s.pagenum mem / nbpel = word
    . subst hword
      rw [update_self, Nat.testBit_or, Nat.one_shiftLeft, Nat.testBit_two_pow]
      simp
    . rw [update_of_ne (Ne.symm hword)]
      simp [hword]

theorem isWord_of_setBits (h : Linked s.pageqNext head l) (hfuel : l.length ≤ fuel)
    : ∃ bits, s.setBits fuel head (fun _ => 0) = .ok bits
        ∧ ∀ word, IsWord (s.isFree l) (word * nbpel) (bits word) := by
  obtain ⟨bits, heq, hbits⟩ := setBits_spec h hfuel fun _ => 0
  refine ⟨bits, heq, ?_⟩
  intro word b
  rw [hbits, Nat.zero_testBit, Bool.false_or, Bool.eq_iff_iff]
  simp only [List.any_eq_true, decide_eq_true_eq, Bool.and_eq_true, isFree_iff]
  constructor
  . rintro ⟨mem, hmem, rfl, rfl⟩
    refine ⟨Nat.mod_lt _ (by decide), mem, hmem, ?_⟩
    exact (Nat.div_add_mod' _ _).symm
  . rintro ⟨hb, mem, hmem, hp⟩
    simp only [nbpel] at *
    exact ⟨mem, hmem, by omega, by omega⟩

def Wanted (s : FreePages) (firstPhys lastPhys mem : Nat) : Prop :=
  firstPhys ≤ s.physAddr mem ∧ s.physAddr mem < lastPhys

instance (firstPhys lastPhys : Nat) : DecidablePred (s.Wanted firstPhys lastPhys) :=
  fun _ => inferInstanceAs (Decidable (_ ∧ _))

def index (s : FreePages) (firstPhys mem : Nat) : Nat := (s.physAddr mem - firstPhys) >>> pageShift

variable {firstPhys lastPhys : Nat} {t t' : Taken}

structure Fills (s : FreePages) (firstPhys lastPhys : Nat) (l : List Nat) (t t' : Taken) : Prop where
  wanted : ∀ mem ∈ l, s.Wanted firstPhys lastPhys mem → t'.pages (s.index firstPhys mem) = mem
  other : ∀ i, (∀ mem ∈ l, s.Wanted firstPhys lastPhys mem → s.index firstPhys mem ≠ i)
    → t'.pages i = t.pages i

theorem Fills.of_forall_not (h : ∀ mem ∈ l, ¬ s.Wanted firstPhys lastPhys mem) : s.Fills firstPhys lastPhys l t t :=
  ⟨fun mem hmem hwanted => absurd hwanted (h mem hmem), fun _ _ => rfl⟩

variable {mem i : Nat}

theorem Fills.cons_of_not (h : s.Fills firstPhys lastPhys l t t')
    (hmem : ¬ s.Wanted firstPhys lastPhys mem) : s.Fills firstPhys lastPhys (mem :: l) t t' := by
  refine ⟨?_, ?_⟩
  . intro mem' hmem' hwanted
    obtain rfl | hmem' := List.mem_cons.1 hmem'
    . contradiction
    . exact h.wanted mem' hmem' hwanted
  . intro i hi
    exact h.other i fun mem' hmem' => hi mem' (List.mem_cons_of_mem _ hmem')

theorem Fills.cons (h : s.Fills firstPhys lastPhys l (t.take prevmem mem (s.index firstPhys mem)) t')
    (hne : ∀ mem' ∈ l, s.Wanted firstPhys lastPhys mem' → s.index firstPhys mem' ≠ s.index firstPhys mem)
    (hmem : s.Wanted firstPhys lastPhys mem) : s.Fills firstPhys lastPhys (mem :: l) t t' := by
  refine ⟨?_, ?_⟩
  . intro mem' hmem' hwanted
    obtain rfl | hmem' := List.mem_cons.1 hmem'
    . rw [h.other _ hne]
      exact update_self ..
    . exact h.wanted mem' hmem' hwanted
  . intro i hi
    rw [h.other i fun mem' hmem' => hi mem' (List.mem_cons_of_mem _ hmem')]
    exact update_of_ne (Ne.symm (hi mem List.mem_cons_self hmem)) ..

def Unlinks (s : FreePages) (firstPhys lastPhys : Nat) (head : Option Nat) (l : List Nat)
    (prevmem : Option Nat) (t t' : Taken) : Prop :=
  ∀ kept : List Nat, kept.getLast? = prevmem → (kept ++ l).Nodup → Linked t.pageqNext head (kept ++ l)
    → (kept = [] → ∀ mem ∈ l.head?, ¬ s.Wanted firstPhys lastPhys mem)
    → Linked t'.pageqNext head (kept ++ l.filter fun mem => ¬ s.Wanted firstPhys lastPhys mem)

theorem Unlinks.of_forall_not (h : ∀ mem ∈ l, ¬ s.Wanted firstPhys lastPhys mem)
    : s.Unlinks firstPhys lastPhys head l prevmem t t := by
  intro kept _ _ hlinked _
  have hfilter : (l.filter fun mem => ¬ s.Wanted firstPhys lastPhys mem) = l := by
    apply List.filter_eq_self.2
    intro mem hmem
    exact decide_eq_true (h mem hmem)
  rwa [hfilter]

theorem Unlinks.cons_of_not (h : s.Unlinks firstPhys lastPhys head l (some mem) t t')
    (hmem : ¬ s.Wanted firstPhys lastPhys mem) : s.Unlinks firstPhys lastPhys head (mem :: l) prevmem t t' := by
  intro kept _ hnodup hlinked _
  rw [List.filter_cons_of_pos (by simpa using hmem)]
  rw [List.append_cons] at hnodup hlinked ⊢
  apply h _ (by simp) hnodup hlinked
  intro hnil
  simp at hnil

theorem Unlinks.cons (h : s.Unlinks firstPhys lastPhys head l prevmem (t.take prevmem mem i) t')
    (hmem : s.Wanted firstPhys lastPhys mem) : s.Unlinks firstPhys lastPhys head (mem :: l) prevmem t t' := by
  intro kept hlast hnodup hlinked hhead
  have hne : kept ≠ [] := fun hnil => hhead hnil mem rfl hmem
  obtain ⟨kept, prev, rfl⟩ := List.eq_nil_or_concat' kept |>.resolve_left hne
  rw [List.getLast?_concat] at hlast
  subst hlast
  rw [List.filter_cons_of_neg (by simpa using hmem)]
  apply h
  . simp
  . apply List.Nodup.sublist _ hnodup
    simp
  . rw [List.append_assoc] at hnodup hlinked ⊢
    exact hlinked.unlink hnodup
  . exact fun hnil => absurd hnil hne

theorem Linked.of_take (h : Linked t.pageqNext head l) (hprev : ∀ p ∈ prevmem, p ∉ l)
    : Linked (t.take prevmem mem i).pageqNext head l := by
  cases prevmem with
  | none => exact h
  | some p => exact h.update_of_notMem (hprev p rfl) _

theorem take_pageqNext_self (hprev : ∀ p ∈ prevmem, p ≠ mem)
    : (t.take prevmem mem i).pageqNext mem = t.pageqNext mem := by
  cases prevmem with
  | none => rfl
  | some p => exact update_of_ne (Ne.symm (hprev p rfl)) ..

theorem takePages_spec {mem : Option Nat} (hlinked : Linked t.pageqNext mem l) (hnodup : l.Nodup)
    (hprev : ∀ p ∈ prevmem, p ∉ l)
    (hindex : l.Pairwise fun a b => s.Wanted firstPhys lastPhys a → s.Wanted firstPhys lastPhys b
      → s.index firstPhys b ≠ s.index firstPhys a) (hfuel : l.length ≤ fuel) (hnpages : 0 < npages)
    (hcount : l.countP (s.Wanted firstPhys lastPhys ·) ≤ npages)
    : ∃ t', s.takePages firstPhys lastPhys fuel t prevmem mem npages = .ok t'
        ∧ s.Fills firstPhys lastPhys l t t'
        ∧ ∀ head, s.Unlinks firstPhys lastPhys head l prevmem t t' := by
  induction l generalizing mem fuel t prevmem npages with
  | nil =>
    obtain rfl := Linked.nil_iff.1 hlinked
    exact ⟨t, by cases fuel <;> rfl, .of_forall_not nofun, fun _ => .of_forall_not nofun⟩
  | cons mem l ih =>
    obtain ⟨rfl, hrest⟩ := Linked.cons_iff.1 hlinked
    obtain ⟨hmem, hnodup⟩ := List.nodup_cons.1 hnodup
    obtain ⟨hne, hindex⟩ := List.pairwise_cons.1 hindex
    obtain ⟨fuel, rfl⟩ : ∃ k, fuel = k + 1 := ⟨fuel - 1, by simp at hfuel; omega⟩
    have hfuel := Nat.le_of_succ_le_succ hfuel
    rw [takePages]
    by_cases haddr : firstPhys ≤ s.physAddr mem ∧ s.physAddr mem < lastPhys
    . have hwanted : s.Wanted firstPhys lastPhys mem := haddr
      rw [if_pos haddr]
      rw [List.countP_cons_of_pos (by simpa using hwanted)] at hcount
      have hne := fun mem' hmem' => hne mem' hmem' hwanted
      have hprev' : ∀ p ∈ prevmem, p ∉ l := fun p hp hpl => hprev p hp (List.mem_cons_of_mem _ hpl)
      split
      . next hlast =>
        have hzero : l.countP (s.Wanted firstPhys lastPhys ·) = 0 := by omega
        have hnone : ∀ mem ∈ l, ¬ s.Wanted firstPhys lastPhys mem := by
          simpa using List.countP_eq_zero.1 hzero
        exact ⟨_, rfl, .cons (.of_forall_not hnone) hne hwanted, fun head => .cons (.of_forall_not hnone) hwanted⟩
      . next hlast =>
        have hself : ∀ p ∈ prevmem, p ≠ mem := fun p hp heq => hprev p hp (by simp [heq])
        dsimp only
        rw [take_pageqNext_self hself]
        obtain ⟨t', heq, hfills, hunlinks⟩ :=
          ih (Linked.of_take hrest hprev') hnodup hprev' hindex hfuel (Nat.pos_of_ne_zero hlast) (by omega)
        exact ⟨t', heq, .cons hfills hne hwanted, fun head => .cons (hunlinks head) hwanted⟩
    . have hwanted : ¬ s.Wanted firstPhys lastPhys mem := haddr
      rw [if_neg haddr]
      rw [List.countP_cons_of_neg (by simpa using hwanted)] at hcount
      have hprev' : ∀ p ∈ some mem, p ∉ l := by
        intro p hp
        obtain rfl := Option.mem_some_iff.1 hp
        exact hmem
      obtain ⟨t', heq, hfills, hunlinks⟩ := ih hrest hnodup hprev' hindex hfuel hnpages hcount
      exact ⟨t', heq, .cons_of_not hfills hwanted, fun head => .cons_of_not (hunlinks head) hwanted⟩

-- an end that has wrapped around is not above any page
theorem takePages_zero (h : Linked t.pageqNext head l) (hfuel : l.length ≤ fuel)
    : s.takePages firstPhys 0 fuel t prevmem head npages = .ok t := by
  induction l generalizing head fuel prevmem with
  | nil =>
    obtain rfl := Linked.nil_iff.1 h
    cases fuel <;> rfl
  | cons mem l ih =>
    obtain ⟨rfl, hrest⟩ := Linked.cons_iff.1 h
    obtain ⟨fuel, rfl⟩ : ∃ k, fuel = k + 1 := ⟨fuel - 1, by simp at hfuel; omega⟩
    rw [takePages, if_neg (by omega)]
    exact ih hrest (Nat.le_of_succ_le_succ hfuel)

structure IsFreeList (s : FreePages) (c : PageTargets) (l : List Nat) : Prop where
  linked : Linked s.pageqNext s.vmPageQueueFree l
  nodup : (l.map s.pagenum).Nodup
  below : ∀ mem ∈ l, s.pagenum mem < c.vmPageBigPagenum
  aligned : ∀ mem ∈ l, s.physAddr mem = s.pagenum mem * pageSize
  count : s.vmPageFreeCount = l.length
  big : c.vmPageBigPagenum * pageSize ≤ physSize

theorem takePages_free (h : s.takePages firstPhys lastPhys fuel t prevmem head npages = .ok t')
    (hmem : t.free mem = false)
    : t'.free mem = false := by
  induction fuel generalizing t prevmem head npages with
  | zero =>
    cases head with
    | none =>
      cases h
      exact hmem
    | some mem' => cases h
  | succ fuel ih =>
    cases head with
    | none =>
      cases h
      exact hmem
    | some mem' =>
      have htake : ∀ i, (t.take prevmem mem' i).free mem = false := by
        intro i
        show update t.free mem' false mem = false
        rw [update_apply]
        split
        . rfl
        . exact hmem
      rw [takePages] at h
      dsimp only at h
      split at h
      . split at h
        . cases h
          exact htake _
        . exact ih h (htake _)
      . exact ih h hmem

-- the pages are put in front of the list one after another
theorem kmemFree_spec {work : List Nat} (hnodup : work.Nodup) (hfree : ∀ mem ∈ work, s.free mem = false)
    : ∃ s', s.kmemFree work = .ok s' ∧ s'.vmPageFreeCount = s.vmPageFreeCount + work.length
        ∧ (∀ mem, mem ∉ work → s'.pageqNext mem = s.pageqNext mem)
        ∧ ∀ l, Linked s'.pageqNext s'.vmPageQueueFree l ↔
            ∃ l', l = work.reverse ++ l' ∧ Linked s'.pageqNext s.vmPageQueueFree l' := by
  induction work generalizing s with
  | nil => exact ⟨s, rfl, rfl, fun _ _ => rfl, fun l => ⟨fun h => ⟨l, rfl, h⟩, fun ⟨l', heq, h⟩ => heq ▸ h⟩⟩
  | cons mem work ih =>
    obtain ⟨hmem, hnodup⟩ := List.nodup_cons.1 hnodup
    obtain ⟨hhere, hfree⟩ := List.forall_mem_cons.1 hfree
    obtain ⟨s', hrun, hcount, hnext, hlinked⟩ := ih (s := {
      s with
      free := update s.free mem true
      pageqNext := update s.pageqNext mem s.vmPageQueueFree
      vmPageQueueFree := some mem
      vmPageFreeCount := s.vmPageFreeCount + 1 }) hnodup fun mem' hmem' => by
        have hne : mem' ≠ mem := fun heq => hmem (heq ▸ hmem')
        exact (update_of_ne hne ..).trans (hfree mem' hmem')
    have hself : s'.pageqNext mem = s.vmPageQueueFree := by
      rw [hnext mem hmem]
      exact update_self ..
    refine ⟨s', ?_, ?_, ?_, ?_⟩
    . rw [kmemFree, vmPageRelease, hhere]
      exact hrun
    . rw [hcount, List.length_cons]
      dsimp only
      omega
    . intro mem' hmem'
      rw [List.mem_cons, not_or] at hmem'
      rw [hnext mem' hmem'.2]
      exact update_of_ne hmem'.1 ..
    . intro l
      rw [hlinked, List.reverse_cons]
      constructor
      . rintro ⟨l', rfl, h⟩
        cases l' with
        | nil => cases Linked.nil_iff.1 h
        | cons mem' l' =>
          obtain ⟨heq, h⟩ := Linked.cons_iff.1 h
          cases heq
          rw [hself] at h
          exact ⟨l', by simp, h⟩
      . rintro ⟨l', rfl, h⟩
        rw [← hself] at h
        exact ⟨mem :: l', by simp, Linked.cons_iff.2 ⟨rfl, h⟩⟩

structure Grabs (s : FreePages) (l : List Nat) (npages : Nat) (r : Grabbed) : Prop where
  returned : r.ret ≠ .waits
  success : r.ret = .kernSuccess ↔ ∃ first, IsRun (s.isFree l) first npages
  pages : r.ret = .kernSuccess → ∃ first, ∀ i < npages,
    r.pages i ∈ l ∧ s.physAddr (r.pages i) = (first + i) * pageSize
  rest : r.ret = .kernSuccess → ∃ l', Linked r.free.pageqNext r.free.vmPageQueueFree l' ∧ l'.Nodup
    ∧ (∀ mem, mem ∈ l' ↔ mem ∈ l ∧ ∀ i < npages, r.pages i ≠ mem)
    ∧ r.free.vmPageFreeCount = l'.length
  failure : r.ret = .kernResourceShortage → r.allocated = 0
    ∧ ∃ l', Linked r.free.pageqNext r.free.vmPageQueueFree l' ∧ l'.Perm l ∧ r.free.vmPageFreeCount = l'.length

structure CanTake (s : FreePages) (l work : List Nat) (npages : Nat) : Prop where
  run : (∃ first, IsRun (s.isFree (work ++ l)) first npages) → ∃ first, IsRun (s.isFree l) first npages
  head : ∀ first, IsFirstRun (s.isFree l) npages first → ∀ mem ∈ l.head?,
    ¬ (first ≤ s.pagenum mem ∧ s.pagenum mem < first + npages)
  last : ∀ first, IsFirstRun (s.isFree l) npages first → (first + npages) * pageSize < physSize

def Allows (s : FreePages) (c : PageTargets) (l : List Nat) (npages : Nat) : WorkSpace → Prop
  | .given => s.CanTake l [] npages
  | .noSpace => ∀ first, ¬ IsRun (s.isFree l) first npages
  | .alloc _ => c.vmPageFreeReserved + workPages c ≤ s.vmPageFreeCount
    ∧ s.CanTake (l.drop (workPages c)) (l.take (workPages c)) npages

structure IsWork (s : FreePages) (l work : List Nat) : Prop where
  nodup : (work ++ l).Nodup
  free : ∀ mem ∈ work, s.free mem = false

variable {c : PageTargets} {work : List Nat}

theorem isRun_append (h : IsRun (s.isFree l) first npages) : IsRun (s.isFree (work ++ l)) first npages := by
  intro i hi
  obtain ⟨mem, hmem, heq⟩ := isFree_iff.1 (h i hi)
  exact isFree_iff.2 ⟨mem, List.mem_append_right _ hmem, heq⟩

namespace IsFreeList

section

variable (h : s.IsFreeList c l)
include h

theorem nodup_self : l.Nodup := h.nodup.of_map

theorem eq_of_pagenum {a b : Nat} (ha : a ∈ l) (hb : b ∈ l)
    (heq : s.pagenum a = s.pagenum b) : a = b := List.inj_on_of_nodup_map h.nodup ha hb heq

theorem add_le (hn : 0 < npages) (hrun : IsRun (s.isFree l) first npages) : (first + npages) * pageSize ≤ physSize := by
  obtain ⟨mem, hmem, heq⟩ := isFree_iff.1 (hrun (npages - 1) (by omega))
  have hlt := h.below mem hmem
  have hle : first + npages ≤ c.vmPageBigPagenum := by omega
  exact (Nat.mul_le_mul_right _ hle).trans h.big

theorem length_filter (hrun : IsRun (s.isFree l) first npages)
    : (l.filter fun mem => first ≤ s.pagenum mem ∧ s.pagenum mem < first + npages).length = npages := by
  have hperm : ((l.filter fun mem => first ≤ s.pagenum mem ∧ s.pagenum mem < first + npages).map
      s.pagenum).Perm (List.range' first npages) := by
    apply (List.perm_ext_iff_of_nodup (h.nodup.sublist (List.filter_sublist.map _)) List.nodup_range').2
    intro p
    rw [List.mem_map, List.mem_range'_1]
    constructor
    . rintro ⟨mem, hmem, rfl⟩
      simpa using (List.mem_filter.1 hmem).2
    . rintro ⟨hle, hlt⟩
      have hfree := hrun (p - first) (by omega)
      rw [Nat.add_sub_cancel' hle] at hfree
      obtain ⟨mem, hmem, rfl⟩ := isFree_iff.1 hfree
      exact ⟨mem, List.mem_filter.2 ⟨hmem, by simp [hle, hlt]⟩, rfl⟩
  have hlength := hperm.length_eq
  rwa [List.length_map, List.length_range'] at hlength

theorem wanted_iff {mem : Nat} (hmem : mem ∈ l) : s.Wanted (first * pageSize) ((first + npages) * pageSize) mem
        ↔ first ≤ s.pagenum mem ∧ s.pagenum mem < first + npages := by
  rw [Wanted, h.aligned mem hmem]
  simp only [pageSize, pageShift]
  omega

theorem index_eq {mem : Nat} (hmem : mem ∈ l) : s.index (first * pageSize) mem = s.pagenum mem - first := by
  rw [index, h.aligned mem hmem, ← Nat.sub_mul, Nat.shiftRight_eq_div_pow]
  exact Nat.mul_div_cancel _ (by decide)

theorem filter_wanted : (l.filter fun mem => s.Wanted (first * pageSize) ((first + npages) * pageSize) mem)
        = l.filter fun mem => first ≤ s.pagenum mem ∧ s.pagenum mem < first + npages := by
  apply List.filter_congr
  intro mem hmem
  rw [decide_eq_decide]
  exact h.wanted_iff hmem

theorem takePages_of_isRun (hn : 0 < npages) (hrun : IsRun (s.isFree l) first npages) (pages : Nat → Nat)
    : ∃ t, s.takePages (first * pageSize) ((first + npages) * pageSize) s.vmPageFreeCount
          ⟨s.pageqNext, s.free, pages⟩ none s.vmPageQueueFree npages = .ok t
        ∧ (∀ i < npages, t.pages i ∈ l ∧ s.pagenum (t.pages i) = first + i)
        ∧ ∀ head, s.Unlinks (first * pageSize) ((first + npages) * pageSize) head l none
            ⟨s.pageqNext, s.free, pages⟩ t := by
  have hindex : l.Pairwise fun a b => s.Wanted (first * pageSize) ((first + npages) * pageSize) a
      → s.Wanted (first * pageSize) ((first + npages) * pageSize) b
      → s.index (first * pageSize) b ≠ s.index (first * pageSize) a := by
    apply h.nodup_self.imp_of_mem
    intro a b ha hb hne hwanteda hwantedb heq
    rw [h.wanted_iff ha] at hwanteda
    rw [h.wanted_iff hb] at hwantedb
    rw [h.index_eq ha, h.index_eq hb] at heq
    exact hne (h.eq_of_pagenum ha hb (by omega))
  have hcount : l.countP (s.Wanted (first * pageSize) ((first + npages) * pageSize) ·) ≤ npages := by
    rw [List.countP_eq_length_filter, h.filter_wanted, h.length_filter hrun]
  have hprev : ∀ p ∈ (none : Option Nat), p ∉ l := nofun
  obtain ⟨t, heq, hfills, hunlinks⟩ := takePages_spec (t := ⟨s.pageqNext, s.free, pages⟩)
    h.linked h.nodup_self hprev hindex h.count.ge hn hcount
  refine ⟨t, heq, ?_, hunlinks⟩
  intro i hi
  obtain ⟨mem, hmem, hnum⟩ := isFree_iff.1 (hrun i hi)
  have hpage := hfills.wanted mem hmem ((h.wanted_iff hmem).2 (by omega))
  rw [h.index_eq hmem, hnum, Nat.add_sub_cancel_left] at hpage
  rw [hpage]
  exact ⟨hmem, hnum⟩

theorem mem_pages_iff {t : Taken}
    (hpages : ∀ i < npages, t.pages i ∈ l ∧ s.pagenum (t.pages i) = first + i) {mem : Nat} (hmem : mem ∈ l)
    : (∀ i < npages, t.pages i ≠ mem) ↔ ¬ (first ≤ s.pagenum mem ∧ s.pagenum mem < first + npages) := by
  constructor
  . rintro hne ⟨hle, hlt⟩
    have hi : s.pagenum mem - first < npages := by omega
    obtain ⟨hpage, hnum⟩ := hpages _ hi
    exact hne _ hi (h.eq_of_pagenum hpage hmem (by omega))
  . rintro hout i hi rfl
    have := (hpages i hi).2
    omega

omit h in
theorem shift_eq (hn : 0 < npages) (hlast : (first + npages) * pageSize ≤ physSize)
    : first <<< pageShift % physSize = first * pageSize := by
  simp only [pageSize, pageShift, physSize] at *
  omega

theorem foundEm_of_lt (hn : 0 < npages) (hw : s.IsWork l work)
    (hrun : IsRun (s.isFree l) first npages) (hlast : (first + npages) * pageSize < physSize) (pages : Nat → Nat)
    : ∃ r free, s.foundEm c npages pages first = .ok r ∧ r.free.kmemFree work = .ok free
        ∧ (s.Grabs (work ++ l) npages { r with free } ↔ ∀ mem ∈ l.head?,
            ¬ (first ≤ s.pagenum mem ∧ s.pagenum mem < first + npages)) := by
  obtain ⟨t, heq, hpages, hunlinks⟩ := h.takePages_of_isRun hn hrun pages
  have hfirst := shift_eq hn hlast.le
  have hphys : (first * pageSize + npages <<< pageShift) % physSize = (first + npages) * pageSize := by
    simp only [pageSize, pageShift, physSize] at *
    omega
  obtain ⟨hnodup, -, hdisjoint⟩ := List.nodup_append.1 hw.nodup
  rw [foundEm, hfirst, hphys, heq]
  obtain ⟨free, hfree, hcount, hnext, hlinked⟩ := kmemFree_spec (s := {
    s with
    pageqNext := t.pageqNext
    free := t.free
    vmPageFreeCount := s.vmPageFreeCount - npages
    vmPageFreeCountMinimum := min (s.vmPageFreeCount - npages) s.vmPageFreeCountMinimum }) hnodup
    fun mem hmem => takePages_free heq (hw.free mem hmem)
  refine ⟨_, free, rfl, hfree, ?_, ?_⟩
  . rintro hgrabs mem hhead hwanted
    obtain ⟨l', hl', -, hmem, -⟩ := hgrabs.rest rfl
    obtain ⟨l'', rfl, hl''⟩ := (hlinked l').1 hl'
    have hmem'' : mem ∈ l'' := by
      apply List.mem_of_mem_head?
      rw [← hl''.head_eq]
      show mem ∈ s.vmPageQueueFree
      rwa [h.linked.head_eq]
    have hne := ((hmem mem).1 (List.mem_append_right _ hmem'')).2
    exact (h.mem_pages_iff hpages (List.mem_of_mem_head? hhead)).1 hne hwanted
  . intro hout
    have hkept : ∀ mem, mem ∈ (l.filter fun mem => ¬ s.Wanted (first * pageSize) ((first + npages) * pageSize) mem)
        ↔ mem ∈ l ∧ ∀ i < npages, t.pages i ≠ mem := by
      intro mem
      rw [List.mem_filter, decide_eq_true_iff]
      apply and_congr_right
      intro hmem
      rw [h.wanted_iff hmem, h.mem_pages_iff hpages hmem]
    have hlist := hunlinks s.vmPageQueueFree [] rfl h.nodup_self h.linked fun _ mem hmem => by
      rw [h.wanted_iff (List.mem_of_mem_head? hmem)]
      exact hout mem hmem
    refine ⟨nofun, ⟨fun _ => ⟨first, isRun_append hrun⟩, fun _ => rfl⟩, fun _ => ⟨first, ?_⟩, fun _ => ?_, nofun⟩
    . intro i hi
      obtain ⟨hmem, hnum⟩ := hpages i hi
      refine ⟨List.mem_append_right _ hmem, ?_⟩
      rw [h.aligned _ hmem, hnum]
    . refine ⟨_, (hlinked _).2 ⟨_, rfl, hlist.congr fun mem hmem => hnext mem fun hwork => ?_⟩, ?_, ?_, ?_⟩
      . exact hdisjoint mem hwork mem ((hkept mem).1 hmem).1 rfl
      . refine List.nodup_append.2 ⟨List.nodup_reverse.2 hnodup, h.nodup_self.filter _, ?_⟩
        intro a ha b hb
        exact hdisjoint a (List.mem_reverse.1 ha) b ((hkept b).1 hb).1
      . intro mem
        rw [List.nil_append, List.mem_append, List.mem_append, List.mem_reverse, hkept, or_and_right]
        refine or_congr_left (and_iff_left_of_imp fun hmem i hi heq => ?_).symm
        exact hdisjoint mem hmem _ (hpages i hi).1 heq.symm
      . have hlength := List.length_eq_length_filter_add (l := l)
          fun mem => s.Wanted (first * pageSize) ((first + npages) * pageSize) mem
        rw [h.filter_wanted, h.length_filter hrun, ← h.count] at hlength
        simp only [← decide_not] at hlength
        dsimp only at hcount ⊢
        rw [hcount, List.nil_append, List.length_append, List.length_reverse]
        omega

theorem foundEm_of_eq (hn : 0 < npages) (hw : s.IsWork l work)
    (hrun : IsRun (s.isFree l) first npages) (hlast : (first + npages) * pageSize = physSize) (pages : Nat → Nat)
    : ∃ r free, s.foundEm c npages pages first = .ok r ∧ r.free.kmemFree work = .ok free
        ∧ ¬ s.Grabs (work ++ l) npages { r with free } := by
  have hfirst := shift_eq hn hlast.le
  have hphys : (first * pageSize + npages <<< pageShift) % physSize = 0 := by
    simp only [pageSize, pageShift, physSize] at *
    omega
  have heq : s.takePages (first * pageSize) 0 s.vmPageFreeCount ⟨s.pageqNext, s.free, pages⟩ none
      s.vmPageQueueFree npages = .ok _ := takePages_zero h.linked h.count.ge
  obtain ⟨hnodup, -, hdisjoint⟩ := List.nodup_append.1 hw.nodup
  rw [foundEm, hfirst, hphys, heq]
  obtain ⟨free, hfree, hcount, hnext, hlinked⟩ := kmemFree_spec (s := {
    s with
    vmPageFreeCount := s.vmPageFreeCount - npages
    vmPageFreeCountMinimum := min (s.vmPageFreeCount - npages) s.vmPageFreeCountMinimum }) hnodup hw.free
  refine ⟨_, free, rfl, hfree, ?_⟩
  intro hgrabs
  obtain ⟨l', hl', -, -, hlength⟩ := hgrabs.rest rfl
  obtain ⟨l'', rfl, hl''⟩ := (hlinked l').1 hl'
  have hsame : Linked free.pageqNext s.vmPageQueueFree l :=
    h.linked.congr fun mem hmem => hnext mem fun hwork => hdisjoint mem hwork mem hmem rfl
  obtain rfl := hsame.unique hl''
  have hle := List.length_filter_le (fun mem => first ≤ s.pagenum mem ∧ s.pagenum mem < first + npages) l
  rw [h.length_filter hrun] at hle
  have hall := h.count
  dsimp only at hlength hcount
  rw [hcount, List.length_append, List.length_reverse] at hlength
  omega

theorem foundEm_iff (hn : 0 < npages) (hw : s.IsWork l work)
    (hfirst : IsFirstRun (s.isFree l) npages first) (pages : Nat → Nat)
    : ∃ r free, s.foundEm c npages pages first = .ok r ∧ r.free.kmemFree work = .ok free
        ∧ (s.Grabs (work ++ l) npages { r with free } ↔ s.CanTake l work npages) := by
  have hunique : ∀ first', IsFirstRun (s.isFree l) npages first' → first' = first := fun _ h' =>
    Nat.le_antisymm (h'.least _ hfirst.isRun) (hfirst.least _ h'.isRun)
  obtain hlast | hlast := Nat.lt_or_eq_of_le (h.add_le hn hfirst.isRun)
  . obtain ⟨r, free, heq, hfree, hiff⟩ := h.foundEm_of_lt hn hw hfirst.isRun hlast pages
    refine ⟨r, free, heq, hfree, hiff.trans ?_⟩
    constructor
    . intro hhead
      refine ⟨fun _ => ⟨first, hfirst.isRun⟩, ?_, ?_⟩
      . intro first' hfirst'
        rwa [hunique first' hfirst']
      . intro first' hfirst'
        rwa [hunique first' hfirst']
    . exact fun hcan => hcan.head first hfirst
  . obtain ⟨r, free, heq, hfree, hnot⟩ := h.foundEm_of_eq hn hw hfirst.isRun hlast pages
    refine ⟨r, free, heq, hfree, iff_of_false hnot ?_⟩
    intro hcan
    have := hcan.last first hfirst
    omega

theorem scanBits_spec (hn : 0 < npages)
    : ∃ bits, s.setBits s.vmPageFreeCount s.vmPageQueueFree (fun _ => 0) = .ok bits
        ∧ (scanBits npages bits ((c.vmPageBigPagenum + nbpel - 1) / nbpel) 0 0 0 = none
            ∧ (∀ first, ¬ IsRun (s.isFree l) first npages)
          ∨ ∃ first, scanBits npages bits ((c.vmPageBigPagenum + nbpel - 1) / nbpel) 0 0 0 = some first
            ∧ IsFirstRun (s.isFree l) npages first) := by
  obtain ⟨bits, heq, hbits⟩ := isWord_of_setBits h.linked h.count.ge
  refine ⟨bits, heq, ?_⟩
  cases hscan : scanBits npages bits ((c.vmPageBigPagenum + nbpel - 1) / nbpel) 0 0 0 with
  | none =>
    have hbound : ∀ p, s.isFree l p → p < (c.vmPageBigPagenum + nbpel - 1) / nbpel * nbpel := by
      intro p hp
      obtain ⟨mem, hmem, rfl⟩ := isFree_iff.1 hp
      have hlt := h.below mem hmem
      simp only [nbpel]
      omega
    exact .inl ⟨rfl, scanBits_eq_none hbits hn _ hbound hscan⟩
  | some first => exact .inr ⟨first, rfl, scanBits_eq_some hbits hn _ hscan⟩

theorem grabWith_iff (hn : 0 < npages) (hw : s.IsWork l work)
    (hreserved : c.vmPageFreeReserved ≤ s.vmPageFreeCount) (pages : Nat → Nat)
    : ∃ r, s.grabWith c npages pages work = .ok r ∧ (s.Grabs (work ++ l) npages r ↔ s.CanTake l work npages) := by
  obtain ⟨bits, heq, ⟨hnone, hscan⟩ | ⟨first, hsome, hscan⟩⟩ := h.scanBits_spec hn
  . rw [grabWith, if_neg (Nat.not_lt.2 hreserved), heq]
    dsimp only [bind, Except.bind]
    obtain ⟨hnodup, -, hdisjoint⟩ := List.nodup_append.1 hw.nodup
    obtain ⟨free, hfree, hcount, hnext, hlinked⟩ := kmemFree_spec hnodup hw.free
    rw [hnone]
    dsimp only
    rw [hfree]
    refine ⟨_, rfl, ?_⟩
    constructor
    . intro hgrabs
      have hno : ∀ first, ¬ IsRun (s.isFree (work ++ l)) first npages := by
        intro first hrun
        cases hgrabs.success.2 ⟨first, hrun⟩
      exact ⟨fun ⟨first, hrun⟩ => absurd hrun (hno first), fun first hrun => absurd hrun.isRun (hscan first),
        fun first hrun => absurd hrun.isRun (hscan first)⟩
    . intro hcan
      have hno : ¬ ∃ first, IsRun (s.isFree (work ++ l)) first npages := by
        intro hrun
        obtain ⟨first, hrun⟩ := hcan.run hrun
        exact hscan first hrun
      refine ⟨nofun, iff_of_false nofun hno, nofun, nofun, fun _ => ⟨rfl, work.reverse ++ l, ?_, ?_, ?_⟩⟩
      . exact (hlinked _).2 ⟨l, rfl, h.linked.congr fun mem hmem => hnext mem fun hwork =>
          hdisjoint mem hwork mem hmem rfl⟩
      . exact work.reverse_perm.append_right l
      . dsimp only
        rw [hcount, h.count, List.length_append, List.length_reverse, Nat.add_comm]
  . rw [grabWith, if_neg (Nat.not_lt.2 hreserved), heq]
    dsimp only [bind, Except.bind]
    obtain ⟨r, free, hr, hfree, hiff⟩ := h.foundEm_iff hn hw hscan pages
    refine ⟨{ r with free }, ?_, hiff⟩
    rw [hsome]
    dsimp only
    rw [hr]
    dsimp only
    rw [hfree]

end

/--
The pages of the work space come off the front of the list, unless the thread has to wait.
-/
theorem kmemAllocPages_spec (h : s.IsFreeList c l) (vmPrivilege : Bool) (n : Nat)
    : kmemAllocPages c vmPrivilege n s = .error .panic ∧ s.vmPageFreeCount < n
      ∨ kmemAllocPages c vmPrivilege n s = .ok none ∧ s.vmPageFreeCount < c.vmPageFreeReserved + n
      ∨ ∃ s', kmemAllocPages c vmPrivilege n s = .ok (some (l.take n, s')) ∧ n ≤ l.length
          ∧ s'.IsFreeList c (l.drop n) ∧ (∀ mem, mem ∈ l.take n ∨ s.free mem = false → s'.free mem = false)
          ∧ s'.physAddr = s.physAddr := by
  induction n generalizing s l with
  | zero => exact .inr (.inr ⟨s, rfl, Nat.zero_le _, h, by simp, rfl⟩)
  | succ n ih =>
    rw [kmemAllocPages, vmPageGrab]
    split
    . exact .inr (.inl ⟨rfl, by omega⟩)
    . cases l with
      | nil =>
        rw [Linked.nil_iff.1 h.linked]
        have hcount := h.count
        rw [List.length_nil] at hcount
        exact .inl ⟨rfl, by omega⟩
      | cons mem l =>
        obtain ⟨hhead, hlinked⟩ := Linked.cons_iff.1 h.linked
        have hcount := h.count
        rw [List.length_cons] at hcount
        rw [hhead]
        obtain hrest | hrest | ⟨s', hrest, hle, hlist, hfree, hphys⟩ := ih (s := {
          s with
          free := update s.free mem false
          vmPageQueueFree := s.pageqNext mem
          vmPageFreeCount := s.vmPageFreeCount - 1
          vmPageFreeCountMinimum := min (s.vmPageFreeCount - 1) s.vmPageFreeCountMinimum }) (l := l) {
            linked := hlinked
            nodup := (List.nodup_cons.1 h.nodup).2
            below := (List.forall_mem_cons.1 h.below).2
            aligned := (List.forall_mem_cons.1 h.aligned).2
            count := Nat.sub_eq_of_eq_add hcount
            big := h.big }
        . refine .inl ⟨?_, by have := hrest.2; dsimp only at this; omega⟩
          dsimp only [bind, Except.bind]
          rw [hrest.1]
        . refine .inr (.inl ⟨?_, by have := hrest.2; dsimp only at this; omega⟩)
          dsimp only [bind, Except.bind]
          rw [hrest.1]
          rfl
        . refine .inr (.inr ⟨s', ?_, Nat.succ_le_succ hle, hlist, fun mem' hmem' => hfree mem' ?_, hphys⟩)
          . dsimp only [bind, Except.bind]
            rw [hrest]
            rfl
          . rw [List.take_succ_cons, List.mem_cons] at hmem'
            by_cases heq : mem' = mem
            . right
              rw [heq]
              exact update_self ..
            . exact (hmem'.imp_left fun hor => hor.resolve_left heq).imp_right (update_of_ne heq ..).trans

end IsFreeList

section

variable {s' : FreePages} (hphys : s'.physAddr = s.physAddr)
include hphys

theorem isFree_congr : s'.isFree = s.isFree := by
  funext l p
  unfold isFree pagenum
  rw [hphys]

theorem Grabs.congr (h : s.Grabs l npages r) : s'.Grabs l npages r :=
  ⟨h.returned, by rw [isFree_congr hphys]; exact h.success, by rw [hphys]; exact h.pages, h.rest, h.failure⟩

theorem CanTake.congr (h : s.CanTake l work npages) : s'.CanTake l work npages := by
  refine ⟨by rw [isFree_congr hphys]; exact h.run, ?_, by rw [isFree_congr hphys]; exact h.last⟩
  unfold pagenum
  rw [isFree_congr hphys, hphys]
  exact h.head

end

theorem grabWith_given {pages : Nat → Nat} (h : s.grabWith c npages pages [] = .ok r)
    (hret : r.ret = .kernResourceShortage) : r.free = s := by
  unfold grabWith at h
  split at h
  . cases h
    rfl
  . obtain ⟨bits, -, h⟩ := Stop.bind_ok.1 h
    split at h
    . cases h
      rfl
    . obtain ⟨r', hr', h⟩ := Stop.bind_ok.1 h
      obtain ⟨t, -, hr'⟩ := Stop.bind_ok.1 hr'
      cases hr'
      cases h
      cases hret

theorem vmPageGrabContiguousPages_iff (h : s.IsFreeList c l) (hn : 0 < npages)
    (hreserved : c.vmPageFreeReserved ≤ s.vmPageFreeCount) (pages : Nat → Nat) (w : WorkSpace)
    : (∃ r, s.vmPageGrabContiguousPages c npages pages w = .ok r ∧ s.Grabs l npages r
          ∧ (w = .given → r.ret = .kernResourceShortage → r.free = s))
        ↔ s.Allows c l npages w := by
  cases w with
  | given =>
    have hwork : s.IsWork l [] := ⟨h.nodup_self, by simp⟩
    obtain ⟨r, hr, hiff⟩ := h.grabWith_iff hn hwork hreserved pages
    constructor
    . rintro ⟨r', hr', hgrabs, -⟩
      cases hr.symm.trans hr'
      exact hiff.1 hgrabs
    . exact fun hcan => ⟨r, hr, hiff.2 hcan, fun _ => grabWith_given hr⟩
  | noSpace =>
    constructor
    . rintro ⟨r, hr, hgrabs, -⟩ first hrun
      cases hr
      cases hgrabs.success.2 ⟨first, hrun⟩
    . intro hno
      exact ⟨_, rfl, ⟨nofun, iff_of_false nofun fun ⟨first, hrun⟩ => hno first hrun, nofun, nofun,
        fun _ => ⟨rfl, l, h.linked, .refl l, h.count⟩⟩, nofun⟩
  | alloc vmPrivilege =>
    obtain ⟨hrun, hcount⟩ | ⟨hrun, hcount⟩ | ⟨s', hrun, hle, hlist, hfree, hphys⟩ :=
      h.kmemAllocPages_spec vmPrivilege (workPages c)
    . rw [vmPageGrabContiguousPages, hrun]
      exact iff_of_false (fun ⟨r, hr, _⟩ => nomatch hr) fun hcan => by have := hcan.1; omega
    . rw [vmPageGrabContiguousPages, hrun]
      refine iff_of_false ?_ fun hcan => by have := hcan.1; omega
      rintro ⟨r, hr, hgrabs, -⟩
      cases hr
      exact hgrabs.returned rfl
    . have hcount := hlist.count
      have hall := h.count
      rw [List.length_drop] at hcount
      have htake := List.take_append_drop (workPages c) l
      have hw : s'.IsWork (l.drop (workPages c)) (l.take (workPages c)) :=
        ⟨by rw [htake]; exact h.nodup_self, fun mem hmem => hfree mem (.inl hmem)⟩
      rw [vmPageGrabContiguousPages, hrun]
      by_cases henough : c.vmPageFreeReserved ≤ s'.vmPageFreeCount
      . obtain ⟨r, hr, hiff⟩ := hlist.grabWith_iff hn hw henough pages
        rw [htake] at hiff
        constructor
        . rintro ⟨r', hr', hgrabs, -⟩
          cases hr.symm.trans hr'
          exact ⟨by omega, (hiff.1 (hgrabs.congr hphys)).congr hphys.symm⟩
        . rintro ⟨-, hcan⟩
          exact ⟨r, hr, (hiff.2 (hcan.congr hphys)).congr hphys.symm, nofun⟩
      . refine iff_of_false ?_ fun hcan => by have := hcan.1; omega
        rintro ⟨r, hr, hgrabs, -⟩
        dsimp only [bind, Except.bind] at hr
        rw [grabWith, if_pos (Nat.lt_of_not_le henough)] at hr
        cases hr
        have hleak := (hgrabs.failure rfl).1
        dsimp only at hleak
        rw [List.length_take] at hleak
        omega

def ofList (l : List Nat) : FreePages where
  physAddr := fun mem => mem * pageSize
  pageqNext := fun mem => (l.dropWhile (· ≠ mem)).tail.head?
  free := fun mem => mem ∈ l
  vmPageQueueFree := l.head?
  vmPageFreeCount := l.length
  vmPageFreeCountMinimum := l.length

def noTargets : PageTargets := ⟨64, 0, 0, 0, 0, 0⟩

def fivePages : FreePages := ofList [50, 40, 31, 33, 32]

theorem fivePages_isFreeList : fivePages.IsFreeList noTargets [50, 40, 31, 33, 32] where
  linked := by simp [Linked, fivePages, ofList]
  nodup := by decide
  below := by decide
  aligned := by decide
  count := rfl
  big := by decide

theorem fivePages_run (h : IsRun (fivePages.isFree [40, 31, 33, 32]) first 3) : first = 31 := by
  obtain ⟨mem, hmem, rfl⟩ := isFree_iff.1 (h 0 (by decide))
  have hnext := h 1 (by decide)
  have hlast := h 2 (by decide)
  clear h
  revert mem
  decide

theorem vmPageGrabContiguousPages_fivePages
    : ∃ r, fivePages.vmPageGrabContiguousPages noTargets 3 id (.alloc false) = .ok r
        ∧ fivePages.Grabs [50, 40, 31, 33, 32] 3 r := by
  have hallows : fivePages.Allows noTargets [50, 40, 31, 33, 32] 3 (.alloc false) := by
    have hwork : workPages noTargets = 1 := by decide
    unfold Allows
    rw [hwork]
    refine ⟨by decide, fun _ => ⟨31, by unfold IsRun; decide⟩, fun first hfirst mem hmem => ?_, fun first hfirst => ?_⟩
    . cases hmem
      rw [fivePages_run hfirst.isRun]
      decide
    . rw [fivePages_run hfirst.isRun]
      decide
  obtain ⟨r, hr, hgrabs, -⟩ :=
    (vmPageGrabContiguousPages_iff fivePages_isFreeList (by decide) (by decide) id (.alloc false)).2 hallows
  exact ⟨r, hr, hgrabs⟩

theorem vmPageGrabContiguousPages_head : (ofList [31, 40, 32]).IsFreeList noTargets [31, 40, 32]
        ∧ ∃ r, (ofList [31, 40, 32]).vmPageGrabContiguousPages noTargets 2 id .given = .ok r
          ∧ r.ret = .kernSuccess ∧ r.pages 0 = 31 ∧ r.free.vmPageQueueFree = some 31
          ∧ ¬ (ofList [31, 40, 32]).Grabs [31, 40, 32] 2 r := by
  refine ⟨⟨by simp [Linked, ofList], by decide, by decide, by decide, rfl, by decide⟩, ?_⟩
  obtain ⟨r, hr, hret, hpage, hhead⟩ :
      ∃ r, (ofList [31, 40, 32]).vmPageGrabContiguousPages noTargets 2 id .given = .ok r
        ∧ r.ret = .kernSuccess ∧ r.pages 0 = 31 ∧ r.free.vmPageQueueFree = some 31 := by
    decide +kernel
  refine ⟨r, hr, hret, hpage, hhead, ?_⟩
  intro hgrabs
  obtain ⟨l', hlinked, -, hmem, -⟩ := hgrabs.rest hret
  have hmem' : 31 ∈ l' := by
    apply List.mem_of_mem_head?
    rw [← hlinked.head_eq]
    exact hhead
  exact ((hmem 31).1 hmem').2 0 (by decide) hpage

end FreePages

end Vm
