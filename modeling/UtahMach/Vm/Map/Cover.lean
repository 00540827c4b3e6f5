import UtahMach.Vm.Map.Pages

/-!
This module contains maps whose entries cover a region and allow writing.
-/

namespace Vm

namespace MapEntry

def isWritable (e : MapEntry) : Bool := e.protection.allows .write

def unwired (e : MapEntry) : MapEntry :=
  { e with inTransition := false, needsWakeup := false, wiredCount := 0, userWiredCount := 0 }

end MapEntry

open MapEntry

def Contiguous : Nat → List MapEntry → Nat → Prop
  | lo, [], hi => lo = hi
  | lo, e :: l, hi =>
    e.vmeStart = lo ∧ lo < e.vmeEnd ∧ e.vmeEnd % pageSize = 0 ∧ e.isWritable ∧ Contiguous e.vmeEnd l hi

namespace Contiguous

theorem append (h : Contiguous lo l mid) (h' : Contiguous mid l' hi) : Contiguous lo (l ++ l') hi := by
  induction l generalizing lo with
  | nil =>
    obtain rfl : lo = mid := h
    exact h'
  | cons e l ih =>
    obtain ⟨hstart, hlt, haligned, hwritable, hl⟩ := h
    exact ⟨hstart, hlt, haligned, hwritable, ih hl⟩

end Contiguous

def Covers (stop : Nat) (start : Nat) (l : List MapEntry) : Prop :=
  ∃ l' l'' hi, l = l' ++ l'' ∧ Contiguous start l' hi ∧ stop ≤ hi

theorem Covers.of_cons (h : Covers stop start (entry :: rest)) (hlt : start < stop)
    : entry.vmeStart = start ∧ start < entry.vmeEnd ∧ entry.vmeEnd % pageSize = 0 ∧ entry.isWritable
        ∧ Covers stop entry.vmeEnd rest := by
  obtain ⟨l', l'', hi, heq, hl, hle⟩ := h
  cases l' with
  | nil =>
    obtain rfl : start = hi := hl
    omega
  | cons e l' =>
    obtain ⟨rfl, rfl⟩ := List.cons.inj heq
    obtain ⟨hstart, hlt, haligned, hwritable, hl⟩ := hl
    exact ⟨hstart, hlt, haligned, hwritable, l', l'', hi, rfl, hl, hle⟩

theorem Covers.cons (hstart : entry.vmeStart = start) (hlt : start < entry.vmeEnd)
    (haligned : entry.vmeEnd % pageSize = 0)
    (hwritable : entry.isWritable) (h : Covers stop entry.vmeEnd rest) : Covers stop start (entry :: rest) := by
  obtain ⟨l', l'', hi, rfl, hl, hle⟩ := h
  exact ⟨entry :: l', l'', hi, rfl, ⟨hstart, hlt, haligned, hwritable, hl⟩, hle⟩

theorem not_covers_nil (h : start < stop) : ¬ Covers stop start [] := by
  rintro ⟨l', l'', hi, heq, hl, hle⟩
  obtain ⟨rfl, rfl⟩ := List.append_eq_nil_iff.1 heq.symm
  obtain rfl : start = hi := hl
  omega

def Mapped (start stop : Nat) (entries : List MapEntry) : Prop :=
  ∀ p, start ≤ p → p < stop → ∃ e ∈ entries, e.vmeStart ≤ p ∧ p < e.vmeEnd ∧ e.isWritable

theorem Contiguous.mapped (h : Contiguous lo l hi) : Mapped lo hi l := by
  induction l generalizing lo with
  | nil =>
    intro p hp hp'
    obtain rfl : lo = hi := h
    omega
  | cons e l ih =>
    obtain ⟨hstart, hlt, haligned, hwritable, hl⟩ := h
    intro p hp hp'
    by_cases hend : p < e.vmeEnd
    . exact ⟨e, List.mem_cons_self, by omega, hend, hwritable⟩
    . obtain ⟨f, hf, hfp⟩ := ih hl p (by omega) hp'
      exact ⟨f, List.mem_cons_of_mem _ hf, hfp⟩

theorem Covers.mapped (h : Covers stop start rest) : Mapped start stop rest := by
  obtain ⟨l', l'', hi, rfl, hl, hle⟩ := h
  intro p hp hp'
  obtain ⟨e, he, hep⟩ := hl.mapped p hp (by omega)
  exact ⟨e, List.mem_append_left _ he, hep⟩

theorem Mapped.of_unwired (h : Mapped start stop entries) (heq : entries'.map unwired = entries.map unwired)
    : Mapped start stop entries' := by
  intro p hp hp'
  obtain ⟨e, he, hstart, hend, hwritable⟩ := h p hp hp'
  have hmem : e.unwired ∈ entries'.map unwired := heq ▸ List.mem_map_of_mem he
  obtain ⟨f, hf, hfe⟩ := List.mem_map.1 hmem
  -- wiring changes neither the addresses nor the protection
  have hsame : f.vmeStart = e.vmeStart ∧ f.vmeEnd = e.vmeEnd ∧ f.protection = e.protection := by
    simp only [unwired, MapEntry.mk.injEq] at hfe
    tauto
  refine ⟨f, hf, by omega, by omega, ?_⟩
  rw [isWritable, hsame.2.2]
  exact hwritable

theorem Mapped.covers (h : Mapped start stop l) (hsorted : VmMap.Sorted l) (haligned : ∀ e ∈ l, e.vmeEnd % pageSize = 0)
    (hstart : ∀ e ∈ l, start ≤ e.vmeStart) : Covers stop start l := by
  induction l generalizing start with
  | nil =>
    by_cases hlt : start < stop
    . obtain ⟨e, he, _⟩ := h start (Nat.le_refl _) hlt
      cases he
    . exact ⟨[], [], start, rfl, rfl, by omega⟩
  | cons e l ih =>
    by_cases hlt : start < stop
    . obtain ⟨helt, hle, hsorted'⟩ := Segments.Sorted.cons_iff.1 hsorted
      have hestart := hstart e List.mem_cons_self
      obtain ⟨f, hf, hfstart, hfend, hwritable⟩ := h start (Nat.le_refl _) hlt
      -- the entry that holds the first address is the first one
      obtain rfl : f = e := by
        rcases List.mem_cons.1 hf with hf | hf
        . exact hf
        . have := hle f hf
          omega
      refine Covers.cons (by omega) hfend (haligned f List.mem_cons_self) hwritable (ih ?_ hsorted' ?_ hle)
      . intro p hp hp'
        obtain ⟨d, hd, hdp⟩ := h p (by omega) hp'
        rcases List.mem_cons.1 hd with rfl | hd
        . omega
        . exact ⟨d, hd, hdp⟩
      . exact fun d hd => haligned d (List.mem_cons_of_mem _ hd)
    . exact ⟨[], _, start, rfl, rfl, by omega⟩

/--
A map where clipping may have left entries of no size, all of them up to the address that has been reached.
-/
structure Laid (m : VmMap) (start : Nat) : Prop where
  ordered : VmMap.Ordered m.entries
  aligned : ∀ e ∈ m.entries, e.vmeEnd % pageSize = 0
  hint : ∀ id, m.hdr.hint = some id → ∃ e ∈ m.entries, e.id = id
  lt : ∀ e ∈ m.entries, start < e.vmeEnd → e.vmeStart < e.vmeEnd

namespace Laid

theorem of_wellFormed (h : m.WellFormed) (start : Nat) : Laid m start where
  ordered := .of_sorted h.sorted
  aligned := fun e he => (h.aligned e he).2
  hint := h.linked.hint
  lt := fun e he _ => h.sorted.lt e he

theorem mono (h : Laid m start) (hle : start ≤ address) : Laid m address :=
  { h with lt := fun e he hlt => h.lt e he (by omega) }

theorem looked (h : Laid m start) (hlooked : VmMap.Looked m address hdr place)
    : Laid ⟨hdr, place.before ++ place.after⟩ start := by
  rw [hlooked.isAt.append]
  exact ⟨h.ordered, h.aligned, hlooked.linked, h.lt⟩

theorem exchange {hdr : MapHeader} (h : Laid ⟨hdr, before ++ e :: rest⟩ start) (hdr' : MapHeader)
    (hhint : hdr'.hint = hdr.hint)
    (hordered : VmMap.Ordered l) (hbounds : ∀ x ∈ l, e.vmeStart ≤ x.vmeStart ∧ x.vmeEnd ≤ e.vmeEnd)
    (haligned : ∀ x ∈ l, x.vmeEnd % pageSize = 0) (hlt : ∀ x ∈ l, start < x.vmeEnd → x.vmeStart < x.vmeEnd)
    (hid : ∃ x ∈ l, x.id = e.id) : Laid ⟨hdr', before ++ l ++ rest⟩ start := by
  obtain ⟨hpairb, hpair, hbefore⟩ := List.pairwise_append.1 h.ordered.pairwise
  obtain ⟨hrest, hpairr⟩ := List.pairwise_cons.1 hpair
  have hmem : ∀ x ∈ before ++ l ++ rest, x ∈ l ∨ x ∈ before ++ e :: rest := by
    intro x hx
    simp only [List.mem_append, List.mem_cons] at hx ⊢
    tauto
  refine ⟨⟨?_, ?_⟩, ?_, ?_, ?_⟩
  . intro x hx
    exact (hmem x hx).elim (hordered.le x) (h.ordered.le x)
  . refine List.pairwise_append.2 ⟨List.pairwise_append.2 ⟨hpairb, hordered.pairwise, ?_⟩, hpairr, ?_⟩
    . intro x hx y hy
      exact (hbefore x hx e List.mem_cons_self).trans (hbounds y hy).1
    . exact List.forall_mem_append.2 ⟨fun x hx y hy => hbefore x hx y (List.mem_cons_of_mem _ hy),
        fun x hx y hy => (hbounds x hx).2.trans (hrest y hy)⟩
  . intro x hx
    exact (hmem x hx).elim (haligned x) (h.aligned x)
  . intro id heq
    obtain ⟨f, hf, rfl⟩ := h.hint id (hhint ▸ heq)
    rcases List.mem_append.1 hf with hf | hf
    . exact ⟨f, by simp [hf], rfl⟩
    . rcases List.mem_cons.1 hf with rfl | hf
      . obtain ⟨x, hx, hxid⟩ := hid
        exact ⟨x, by simp [hx], hxid⟩
      . exact ⟨f, by simp [hf], rfl⟩
  . intro x hx
    exact (hmem x hx).elim (hlt x) (h.lt x)

theorem found (h : Laid m start) (hlooked : VmMap.Looked m address hdr place)
    (hat : ∃ e ∈ m.entries, e.vmeStart ≤ address ∧ address < e.vmeEnd)
    : place.found = true ∧ ∃ e rest, place.after = e :: rest ∧ e.vmeStart ≤ address ∧ address < e.vmeEnd := by
  obtain ⟨f, hf, hstart, hend⟩ := hat
  rw [← hlooked.isAt.append] at hf
  rcases List.mem_append.1 hf with hf | hf
  . have := hlooked.isAt.before f hf
    omega
  . cases hafter : place.after with
    | nil =>
      rw [hafter] at hf
      cases hf
    | cons e rest =>
      have heend := hlooked.isAt.after e (by simp [hafter])
      have hle : e.vmeStart ≤ address := by
        rw [hafter] at hf
        rcases List.mem_cons.1 hf with rfl | hf
        . exact hstart
        . have hordered := (h.looked hlooked).ordered.append_right
          simp only [hafter] at hordered
          have := (List.pairwise_cons.1 hordered.pairwise).1 f hf
          omega
      exact ⟨hlooked.isAt.found.2 ⟨e, by rw [hafter]; rfl, hle⟩, e, rest, rfl, hle, heend⟩

theorem clipStart (h : Laid ⟨hdr, before ++ e :: rest⟩ start) (haddress : address % pageSize = 0)
    (hlt : address < e.vmeEnd)
    : Laid ⟨(hdr.clipStart e address).1,
        before ++ (hdr.clipStart e address).2.1 ++ (hdr.clipStart e address).2.2 :: rest⟩ start := by
  have haligned := h.aligned e (by simp)
  unfold MapHeader.clipStart
  split
  . rename_i hclip
    have hnew := h.exchange hdr.link (l := [{ e.front address with id := hdr.nextId }, e.rear address]) rfl
      ⟨?_, ?_⟩ ?_ ?_ ?_ ⟨e.rear address, by simp, rfl⟩
    . simpa using hnew
    all_goals simp [front, rear]
    all_goals omega
  . simpa using h

theorem clipEnd (h : Laid ⟨hdr, before ++ e :: rest⟩ start) (haddress : address % pageSize = 0)
    (hle : e.vmeStart ≤ address) (hlt : start < address → e.vmeStart < address)
    : Laid ⟨(hdr.clipEnd e address).1,
        before ++ (hdr.clipEnd e address).2.1 :: ((hdr.clipEnd e address).2.2 ++ rest)⟩ start := by
  have haligned := h.aligned e (by simp)
  unfold MapHeader.clipEnd
  split
  . rename_i hclip
    have hnew := h.exchange hdr.link (l := [e.front address, { e.rear address with id := hdr.nextId }]) rfl
      ⟨?_, ?_⟩ ?_ ?_ ?_ ⟨e.front address, by simp, rfl⟩
    . simpa using hnew
    all_goals simp [front, rear]
    all_goals omega
  . exact h

theorem covers (h : Laid ⟨hdr, before ++ e :: rest⟩ start) (hstart : e.vmeStart = start) (hlt : start < e.vmeEnd)
    (hmapped : Mapped start stop (e :: rest)) : Covers stop start (e :: rest) := by
  have hordered := h.ordered.append_right
  apply hmapped.covers
  . exact ⟨fun f hf => h.lt f (List.mem_append_right _ hf) (VmMap.lt_of_head hordered hlt hf), hordered.pairwise⟩
  . exact fun f hf => h.aligned f (List.mem_append_right _ hf)
  . refine List.forall_mem_cons.2 ⟨hstart.ge, fun f hf => ?_⟩
    have := (List.pairwise_cons.1 hordered.pairwise).1 f hf
    omega

end Laid

section

variable {hdr : MapHeader} {e : MapEntry} {address : Nat} {place : Place}

theorem clipStart_spec (hdr : MapHeader) (hle : e.vmeStart ≤ address)
    : (hdr.clipStart e address).2.2.vmeStart = address ∧ (hdr.clipStart e address).2.2.vmeEnd = e.vmeEnd
      ∧ (hdr.clipStart e address).2.2.protection = e.protection := by
  unfold MapHeader.clipStart
  split
  . exact ⟨rfl, rfl, rfl⟩
  . exact ⟨by dsimp only; omega, rfl, rfl⟩

theorem Mapped.clipStart (h : Mapped start stop entries) (hat : place.IsAt entries address)
    (hafter : place.after = e :: rest) (hstart : start ≤ address) (hle : e.vmeStart ≤ address)
    : Mapped address stop ((hdr.clipStart e address).2.2 :: rest) := by
  obtain ⟨hstart', hend', hprot'⟩ := clipStart_spec hdr hle
  intro p hp hp'
  obtain ⟨f, hf, hfstart, hfend, hwritable⟩ := h p (by omega) hp'
  rw [← hat.append, hafter] at hf
  rcases List.mem_append.1 hf with hf | hf
  . have := hat.before f hf
    omega
  . rcases List.mem_cons.1 hf with rfl | hf
    . refine ⟨_, List.mem_cons_self, by omega, by omega, ?_⟩
      rw [isWritable, hprot']
      exact hwritable
    . exact ⟨f, List.mem_cons_of_mem _ hf, hfstart, hfend, hwritable⟩

end

end Vm
