import UtahMach.Vm.Map.Lookup

/-!
This module contains what a map says about each address, and that clipping an entry keeps it.
-/

open Segments

namespace Vm

def MapEntry.page (e : MapEntry) (p : Nat) : MapEntry :=
  { e with id := 0, vmeStart := p, vmeEnd := p + 1, offset := (e.offset + (p - e.vmeStart)) % wordSize }

def pages (entries : List MapEntry) (p : Nat) : Option MapEntry :=
  (segmentAt MapEntry.vmeStart MapEntry.vmeEnd entries p).map (·.page p)

namespace MapEntry

variable {e : MapEntry} {address p : Nat}

theorem page_rear (hstart : e.vmeStart ≤ address) (hp : address ≤ p) : (e.rear address).page p = e.page p := by
  unfold page rear
  congr 1
  rw [Nat.mod_add_mod]
  congr 1
  dsimp only
  omega

theorem source_page (e : MapEntry) (p : Nat) : (e.page p).source p = e.source p := by
  simp [page, source]

end MapEntry

variable {entries entries' before rest : List MapEntry} {e x y : MapEntry} {address p : Nat}

theorem pages_append : pages (entries ++ entries') p = (pages entries p).or (pages entries' p) := by
  unfold pages
  rw [segmentAt_append]
  cases segmentAt MapEntry.vmeStart MapEntry.vmeEnd entries p <;> rfl

theorem pages_cons
    : pages (e :: entries) p = if e.vmeStart ≤ p ∧ p < e.vmeEnd then some (e.page p) else pages entries p := by
  unfold pages
  rw [segmentAt_cons]
  split <;> rfl

theorem map_pages_congr (f : MapEntry → γ) (hstart : x.vmeStart = e.vmeStart) (hend : x.vmeEnd = e.vmeEnd)
    (hf : f (x.page p) = f (e.page p)) (before rest : List MapEntry)
    : (pages (before ++ x :: rest) p).map f = (pages (before ++ e :: rest) p).map f := by
  rw [pages_append, pages_append, pages_cons, pages_cons, hstart, hend]
  cases pages before p with
  | some d => rfl
  | none =>
    split
    . exact congrArg some hf
    . rfl

theorem pages_map {f : MapEntry → MapEntry} (hstart : ∀ e, (f e).vmeStart = e.vmeStart)
    (hend : ∀ e, (f e).vmeEnd = e.vmeEnd) (hpage : ∀ e p, (f e).page p = f (e.page p)) (entries : List MapEntry)
    (p : Nat) : pages (entries.map f) p = (pages entries p).map f := by
  unfold pages
  rw [segmentAt_map hstart hend, Option.map_map, Option.map_map]
  congr 1
  funext e
  exact hpage e p

theorem pages_clip (hstart : e.vmeStart ≤ address) (hend : address ≤ e.vmeEnd) (before rest : List MapEntry)
    (i j p : Nat) : pages (before ++ { e.front address with id := i } :: { e.rear address with id := j } :: rest) p =
      pages (before ++ e :: rest) p := by
  rw [pages_append, pages_append, pages_cons, pages_cons, pages_cons]
  congr 1
  change (if e.vmeStart ≤ p ∧ p < address then some (e.page p) else
    if address ≤ p ∧ p < e.vmeEnd then some ((e.rear address).page p) else pages rest p) = _
  by_cases hfront : e.vmeStart ≤ p ∧ p < address
  . rw [if_pos hfront, if_pos (by omega)]
  . rw [if_neg hfront]
    by_cases hrear : address ≤ p ∧ p < e.vmeEnd
    . rw [if_pos hrear, if_pos (by omega), MapEntry.page_rear hstart hrear.1]
    . rw [if_neg hrear, if_neg (by omega)]

namespace MapEntry

def key (e : MapEntry) : Nat × Nat × Nat := (e.id, e.vmeStart, e.vmeEnd)

end MapEntry

namespace VmMap

variable {hdr hdr' : MapHeader}

theorem forall_mem_key {P : Nat × Nat × Nat → Prop} (hkey : entries'.map MapEntry.key = entries.map MapEntry.key)
    (h : ∀ e ∈ entries, P e.key) : ∀ e ∈ entries', P e.key := by
  have hmap : ∀ k ∈ entries.map MapEntry.key, P k := List.forall_mem_map.2 h
  rw [← hkey] at hmap
  exact List.forall_mem_map.1 hmap

theorem exists_mem_key (hkey : entries'.map MapEntry.key = entries.map MapEntry.key) {id : Nat}
    (h : ∃ e ∈ entries, e.id = id) : ∃ e ∈ entries', e.id = id := by
  obtain ⟨e, he, rfl⟩ := h
  have hmem : e.key ∈ entries'.map MapEntry.key := hkey ▸ List.mem_map_of_mem he
  obtain ⟨e', he', heq⟩ := List.mem_map.1 hmem
  exact ⟨e', he', congrArg Prod.fst heq⟩

theorem map_key (f : Nat × Nat × Nat → γ) (hkey : entries'.map MapEntry.key = entries.map MapEntry.key)
    : entries'.map (fun e => f e.key) = entries.map fun e => f e.key := by
  have h := congrArg (List.map f) hkey
  rw [List.map_map, List.map_map] at h
  exact h

theorem WellFormed.congr (h : WellFormed ⟨hdr, entries⟩)
    (hkey : entries'.map MapEntry.key = entries.map MapEntry.key) : WellFormed ⟨hdr, entries'⟩ where
  sorted := by
    refine ⟨forall_mem_key (P := fun k => k.2.1 < k.2.2) hkey h.sorted.lt, ?_⟩
    have hp : (entries.map MapEntry.key).Pairwise fun j k => j.2.2 ≤ k.2.1 := List.pairwise_map.2 h.sorted.pairwise
    rw [← hkey] at hp
    exact List.pairwise_map.1 hp
  aligned := forall_mem_key (P := fun k => k.2.1 % pageSize = 0 ∧ k.2.2 % pageSize = 0) hkey h.aligned
  bounds := forall_mem_key (P := fun k => hdr.minOffset ≤ k.2.1 ∧ k.2.2 ≤ hdr.maxOffset) hkey h.bounds
  max_lt := h.max_lt
  linked := by
    refine ⟨?_, ?_, ?_, ?_⟩
    . change (entries'.map fun e => e.key.1).Nodup
      rw [map_key Prod.fst hkey]
      exact h.linked.nodup
    . exact forall_mem_key (P := fun k => k.1 < hdr.nextId) hkey h.linked.fresh
    . exact fun id hid => exists_mem_key hkey (h.linked.hint id hid)
    . exact fun id hid => exists_mem_key hkey (h.linked.firstFree id hid)
  nentries := by
    have hlength := congrArg List.length hkey
    rw [List.length_map, List.length_map] at hlength
    exact h.nentries.trans hlength.symm
  size := by
    refine h.size.trans ?_
    change (entries.map fun e => e.key.2.2 - e.key.2.1).sum = (entries'.map fun e => e.key.2.2 - e.key.2.1).sum
    rw [map_key (fun k => k.2.2 - k.2.1) hkey]

theorem WellFormed.looked {m : VmMap} (h : m.WellFormed) (hlooked : Looked m address hdr' place)
    : WellFormed ⟨hdr', place.before ++ place.after⟩ := by
  rw [hlooked.isAt.append]
  have hl := h.linked
  have heq := hlooked.hdr_eq
  constructor
  . exact h.sorted
  . exact h.aligned
  . rw [heq]
    exact h.bounds
  . rw [heq]
    exact h.max_lt
  . refine ⟨hl.nodup, ?_, hlooked.linked, ?_⟩
    . rw [heq]
      exact hl.fresh
    . rw [heq]
      exact hl.firstFree
  . rw [heq]
    exact h.nentries
  . rw [heq]
    exact h.size

section

variable (h : WellFormed ⟨hdr, before ++ e :: rest⟩) (haddress : address % pageSize = 0)
include h haddress

theorem WellFormed.split
    (hx : x.vmeStart = e.vmeStart) (hx' : x.vmeEnd = address) (hy : y.vmeStart = address) (hy' : y.vmeEnd = e.vmeEnd)
    (hlt : e.vmeStart < address) (hlt' : address < e.vmeEnd)
    (hid : x.id = hdr.nextId ∧ y.id = e.id ∨ x.id = e.id ∧ y.id = hdr.nextId)
    : WellFormed ⟨hdr.link, before ++ x :: y :: rest⟩ := by
  have he := h.bounds e (by simp)
  have hea := h.aligned e (by simp)
  have hmem : ∀ f, f ∈ before ++ x :: y :: rest → f = x ∨ f = y ∨ f ∈ before ++ e :: rest := by
    intro f hf
    simp only [List.mem_append, List.mem_cons] at hf ⊢
    tauto
  have hids : ∀ id, (∃ f ∈ before ++ e :: rest, f.id = id) → ∃ f ∈ before ++ x :: y :: rest, f.id = id := by
    rintro id ⟨f, hf, rfl⟩
    simp only [List.mem_append, List.mem_cons] at hf
    rcases hf with hf | rfl | hf
    . exact ⟨f, by simp [hf], rfl⟩
    . rcases hid with hid | hid
      . exact ⟨y, by simp, hid.2⟩
      . exact ⟨x, by simp, hid.1⟩
    . exact ⟨f, by simp [hf], rfl⟩
  constructor
  . exact h.sorted.split hx (hx'.trans hy.symm) hy' (by omega) (by omega)
  . intro f hf
    rcases hmem f hf with rfl | rfl | hf
    . exact ⟨hx ▸ hea.1, hx' ▸ haddress⟩
    . exact ⟨hy ▸ haddress, hy' ▸ hea.2⟩
    . exact h.aligned f hf
  . intro f hf
    change hdr.minOffset ≤ _ ∧ _ ≤ hdr.maxOffset
    change hdr.minOffset ≤ _ ∧ _ ≤ hdr.maxOffset at he
    rcases hmem f hf with rfl | rfl | hf
    . omega
    . omega
    . exact h.bounds f hf
  . exact h.max_lt
  . have hl := h.linked
    have hfresh : ∀ f ∈ before ++ e :: rest, f.id ≠ hdr.nextId := fun f hf => (hl.fresh f hf).ne
    constructor
    . have hperm : ((before ++ x :: y :: rest).map MapEntry.id).Perm
          (hdr.nextId :: (before ++ e :: rest).map MapEntry.id) := by
        simp only [List.map_append, List.map_cons]
        rcases hid with ⟨hxi, hyi⟩ | ⟨hxi, hyi⟩
        . rw [hxi, hyi]
          exact List.perm_middle
        . rw [hxi, hyi]
          exact ((List.Perm.swap _ _ _).append_left _).trans List.perm_middle
      refine hperm.nodup_iff.2 (List.nodup_cons.2 ⟨?_, hl.nodup⟩)
      intro hmem
      obtain ⟨f, hf, hfid⟩ := List.mem_map.1 hmem
      exact hfresh f hf hfid
    . intro f hf
      change f.id < hdr.nextId + 1
      have hef := hl.fresh e (by simp)
      change e.id < hdr.nextId at hef
      rcases hmem f hf with rfl | rfl | hf
      . omega
      . omega
      . have := hl.fresh f hf
        change f.id < hdr.nextId at this
        omega
    . exact fun id hh => hids id (hl.hint id hh)
    . exact fun id hh => hids id (hl.firstFree id hh)
  . have := h.nentries
    change hdr.nentries + 1 = _
    simp only [List.length_append, List.length_cons] at this ⊢
    omega
  . have := h.size
    change hdr.size = _
    simp only [total_append, total_cons] at this ⊢
    omega

theorem WellFormed.clipStart (hlt : address < e.vmeEnd) : WellFormed ⟨(hdr.clipStart e address).1,
        before ++ (hdr.clipStart e address).2.1 ++ (hdr.clipStart e address).2.2 :: rest⟩ := by
  unfold MapHeader.clipStart
  split
  . rename_i hstart
    rw [List.append_assoc]
    exact h.split haddress rfl rfl rfl rfl hstart hlt (Or.inl ⟨rfl, rfl⟩)
  . simpa using h

end

end VmMap

variable {hdr : MapHeader}

theorem pages_clipStart (hlt : address ≤ e.vmeEnd) (before rest : List MapEntry) (p : Nat)
    : pages (before ++ (hdr.clipStart e address).2.1 ++ (hdr.clipStart e address).2.2 :: rest) p =
      pages (before ++ e :: rest) p := by
  unfold MapHeader.clipStart
  split
  . rename_i hstart
    rw [List.append_assoc]
    exact pages_clip (Nat.le_of_lt hstart) hlt before rest hdr.nextId e.id p
  . simp

end Vm
