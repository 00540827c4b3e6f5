import UtahMach.Vm.Map.Basic

/-!
This module contains the invariant of address maps and the correctness of the search for an address.
-/

open Segments

namespace Vm

namespace VmMap

abbrev Sorted (entries : List MapEntry) : Prop := Segments.Sorted MapEntry.vmeStart MapEntry.vmeEnd entries

structure Ordered (entries : List MapEntry) : Prop where
  le : ∀ e ∈ entries, e.vmeStart ≤ e.vmeEnd
  pairwise : entries.Pairwise fun e f => e.vmeEnd ≤ f.vmeStart

theorem Ordered.of_sorted {entries : List MapEntry} (h : Sorted entries) : Ordered entries :=
  ⟨fun e he => (h.lt e he).le, h.pairwise⟩

theorem Ordered.append_right {before after : List MapEntry} (h : Ordered (before ++ after)) : Ordered after :=
  ⟨fun e he => h.le e (List.mem_append_right _ he), (List.pairwise_append.1 h.pairwise).2.1⟩

abbrev entryAt (m : VmMap) (p : Nat) : Option MapEntry := segmentAt MapEntry.vmeStart MapEntry.vmeEnd m.entries p

structure Linked (hdr : MapHeader) (entries : List MapEntry) : Prop where
  nodup : (entries.map MapEntry.id).Nodup
  fresh : ∀ e ∈ entries, e.id < hdr.nextId
  hint : ∀ id ∈ hdr.hint, ∃ e ∈ entries, e.id = id
  firstFree : ∀ id ∈ hdr.firstFree, ∃ e ∈ entries, e.id = id

structure WellFormed (m : VmMap) : Prop where
  sorted : Sorted m.entries
  aligned : ∀ e ∈ m.entries, e.vmeStart % pageSize = 0 ∧ e.vmeEnd % pageSize = 0
  bounds : ∀ e ∈ m.entries, m.hdr.minOffset ≤ e.vmeStart ∧ e.vmeEnd ≤ m.hdr.maxOffset
  max_lt : m.hdr.maxOffset < wordSize
  linked : Linked m.hdr m.entries
  nentries : m.hdr.nentries = m.entries.length
  size : m.hdr.size = total MapEntry.vmeStart MapEntry.vmeEnd m.entries

instance (hdr : MapHeader) (entries : List MapEntry) : Decidable (Linked hdr entries) :=
  decidable_of_iff ((entries.map MapEntry.id).Nodup ∧ (∀ e ∈ entries, e.id < hdr.nextId)
      ∧ (∀ id ∈ hdr.hint, ∃ e ∈ entries, e.id = id) ∧ ∀ id ∈ hdr.firstFree, ∃ e ∈ entries, e.id = id)
    ⟨fun h => ⟨h.1, h.2.1, h.2.2.1, h.2.2.2⟩, fun h => ⟨h.nodup, h.fresh, h.hint, h.firstFree⟩⟩

instance (m : VmMap) : Decidable m.WellFormed :=
  decidable_of_iff (Sorted m.entries ∧ (∀ e ∈ m.entries, e.vmeStart % pageSize = 0 ∧ e.vmeEnd % pageSize = 0)
      ∧ (∀ e ∈ m.entries, m.hdr.minOffset ≤ e.vmeStart ∧ e.vmeEnd ≤ m.hdr.maxOffset) ∧ m.hdr.maxOffset < wordSize
      ∧ Linked m.hdr m.entries ∧ m.hdr.nentries = m.entries.length
      ∧ m.hdr.size = total MapEntry.vmeStart MapEntry.vmeEnd m.entries)
    ⟨fun h => ⟨h.1, h.2.1, h.2.2.1, h.2.2.2.1, h.2.2.2.2.1, h.2.2.2.2.2.1, h.2.2.2.2.2.2⟩,
      fun h => ⟨h.sorted, h.aligned, h.bounds, h.max_lt, h.linked, h.nentries, h.size⟩⟩

end VmMap

structure Place.IsAt (place : Place) (entries : List MapEntry) (address : Nat) : Prop where
  append : place.before ++ place.after = entries
  before : ∀ e ∈ place.before, e.vmeEnd ≤ address
  after : ∀ e ∈ place.after, address < e.vmeEnd
  found : place.found = true ↔ ∃ e, place.after.head? = some e ∧ e.vmeStart ≤ address

namespace VmMap

variable {m : VmMap} {entries before after : List MapEntry} {e : MapEntry} {address n : Nat}

theorem lt_of_head (h : Ordered (e :: after)) (he : address < e.vmeEnd) {f : MapEntry} (hf : f ∈ e :: after)
    : address < f.vmeEnd := by
  have hle := h.le f hf
  rcases List.mem_cons.1 hf with rfl | hf
  . exact he
  . have := (List.pairwise_cons.1 h.pairwise).1 f hf
    omega

theorem searchEntry_isAt (n : Nat) (h : Ordered (before ++ after)) (hbefore : ∀ e ∈ before, e.vmeEnd ≤ address)
    (hn : after.length ≤ n ∨ ∃ e ∈ after.take n, address < e.vmeEnd)
    : (searchEntry address n before after).IsAt (before ++ after) address := by
  induction n generalizing before after with
  | zero =>
    have hnil : after = [] := by simpa using hn
    subst hnil
    exact ⟨rfl, hbefore, by simp [searchEntry], by simp [searchEntry]⟩
  | succ n ih =>
    cases after with
    | nil => exact ⟨rfl, hbefore, by simp [searchEntry], by simp [searchEntry]⟩
    | cons e after =>
      rw [searchEntry]
      split
      . rename_i he
        exact ⟨rfl, hbefore, fun f hf => lt_of_head h.append_right he hf, by simp⟩
      . rename_i he
        have happend : before ++ e :: after = (before ++ [e]) ++ after := by simp
        rw [happend] at h ⊢
        apply ih h
        . exact List.forall_mem_append.2 ⟨hbefore, List.forall_mem_singleton.2 (Nat.not_lt.1 he)⟩
        . rcases hn with hn | ⟨f, hf, hlt⟩
          . left
            simpa using hn
          . right
            refine ⟨f, ?_, hlt⟩
            rcases List.mem_cons.1 hf with rfl | hf
            . exact absurd hlt he
            . exact hf

theorem hint_isAt {place : Place} (h : place.IsAt entries address) {id : Nat} (hid : place.hint = some id)
    : ∃ e ∈ entries, e.id = id := by
  obtain ⟨e, he, rfl⟩ := Option.map_eq_some_iff.1 hid
  refine ⟨e, ?_, rfl⟩
  rw [← h.append]
  split at he
  . exact List.mem_append_right _ (List.mem_of_head? he)
  . exact List.mem_append_left _ (List.mem_of_getLast? he)

structure Looked (m : VmMap) (address : Nat) (hdr : MapHeader) (place : Place) : Prop where
  isAt : place.IsAt m.entries address
  hdr_eq : hdr = { m.hdr with hint := hdr.hint }
  linked : ∀ id, hdr.hint = some id → ∃ e ∈ m.entries, e.id = id

theorem looked_saveHint (h : place.IsAt m.entries address)
    : Looked m address (saveHint m.hdr place).1 (saveHint m.hdr place).2 :=
  ⟨h, rfl, fun _ hid => hint_isAt h hid⟩

theorem lookupEntry_looked (h : Ordered m.entries) (hhint : ∀ id, m.hdr.hint = some id → ∃ e ∈ m.entries, e.id = id)
    (address : Nat) : Looked m address (m.lookupEntry address).1 (m.lookupEntry address).2 := by
  have happend := List.take_append_drop m.hintIndex m.entries
  unfold lookupEntry
  split
  . rename_i hdrop
    -- the hint is the header and there are no entries
    have hnil : m.entries = [] := by
      cases hm : m.hdr.hint with
      | none =>
        rw [hintIndex, hm] at hdrop
        simpa using hdrop
      | some id =>
        obtain ⟨e, he, hid⟩ := hhint id hm
        rw [hintIndex, hm, List.drop_eq_nil_iff] at hdrop
        dsimp only at hdrop
        have := List.findIdx_lt_length_of_exists (p := fun e => e.id == id) ⟨e, he, by simp [hid]⟩
        omega
    apply looked_saveHint
    rw [hnil]
    exact ⟨rfl, by simp, by simp, by simp⟩
  . rename_i cur rest hdrop
    rw [hdrop] at happend
    rw [← happend] at h
    have hle := (List.pairwise_append.1 h.pairwise).2.2
    split
    . rename_i hstart
      have hbefore : ∀ e ∈ m.entries.take m.hintIndex, e.vmeEnd ≤ address :=
        fun e he => (hle e he cur (by simp)).trans hstart
      split
      . rename_i hend
        exact ⟨⟨happend, hbefore, fun f hf => lt_of_head h.append_right hend hf, by simp [hstart]⟩, rfl, hhint⟩
      . apply looked_saveHint
        have := searchEntry_isAt (cur :: rest).length h hbefore (Or.inl le_rfl)
        rwa [happend] at this
    . rename_i hstart
      apply looked_saveHint
      have hmem : cur ∈ m.entries.take (m.hintIndex + 1) := by
        have hget : m.entries[m.hintIndex]? = some cur := by
          rw [← List.head?_drop, hdrop]
          rfl
        rw [List.take_add_one, hget]
        simp
      have hcur := h.append_right.le cur (by simp)
      rw [happend] at h
      exact searchEntry_isAt (m.hintIndex + 1) h (by simp) (Or.inr ⟨cur, hmem, by omega⟩)

end VmMap

end Vm
