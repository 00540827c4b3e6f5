import UtahMach.Vm.Object.Merge

/-!
This module contains the proof that a collapse comes to an end and changes nothing for readers.
-/

open Chain

namespace Vm

open VmObject

variable {β : Type} {a b : Nat} {h h' : Objects β} {outside : Nat → Nat}

namespace Objects

def Room (h : Objects β) (a : Nat) : Prop :=
  ∀ x, Reaches (h.links VmObject.shadow) a x → x ≠ a → (h.object a).shadow ≠ some x →
    (h.object x).refCount.toInt < 32767

structure Round (outside : Nat → Nat) (a b : Nat) (h h' : Objects β) : Prop where
  kept : Kept outside a h h'
  window : Window h' a
  room : Room h' a
  skips : Skips (h.links VmObject.shadow) (h'.links VmObject.shadow) a b

namespace Candidate

section

variable (hc : Candidate h a b) (hwf : WellFormed outside h) (hwin : Window h a) (hroom : Room h a)
include hc hwf

include hroom in
theorem room_next : ∀ s ∈ (h.object b).shadow, (h.object s).refCount.toInt < 32767 := by
  intro s hs
  obtain ⟨hsa, hsb⟩ := hc.ne_of_shadow hwf hs
  have hlink : h.links VmObject.shadow b = some s := by rw [Heap.links_of_mem (hc.mem_backing hwf), hs]
  apply hroom s (.tail (.tail .refl hc.links) hlink) hsa
  rw [hc.shadow]
  exact fun heq => hsb (Option.some.inj heq).symm

include hwin hroom

theorem merged_round {memq : AList fun _ : Nat => Page β} (hkept : Kept outside a h (h.merged a b memq))
    : Round outside a b h (h.merged a b memq) where
  kept := hkept
  window := hc.window_of hwf merged_shifted hwin
  room := by
    intro x hr hxa _
    rw [merged_refCount]
    apply hroom x (hkept.reaches x hr) hxa
    rw [hc.shadow]
    -- the backing object is gone
    have hx := mem_merged.1 (hkept.wellFormed.mem_of_reaches hkept.frame.mem hr)
    exact fun heq => hx.1 (Option.some.inj heq).symm
  skips := hc.merged_skips hwf

theorem bypassed_round (hkept : Kept outside a h (h.bypassed a b)) : Round outside a b h (h.bypassed a b) where
  kept := hkept
  window := hc.window_of hwf (hc.bypassed_shifted hwf) hwin
  room := by
    intro x hr hxa hshadow
    rw [hc.bypassed_parent hwf] at hshadow
    have hxs : (h.object b).shadow ≠ some x := hshadow
    by_cases hxb : x = b
    . subst hxb
      have hpos := hwf.refCount_pos hc.mem hc.shadow
      have hlt := Int16.toInt_lt (h.object x).refCount
      rw [Int16.lt_iff_toInt_lt] at hpos
      have hzero : (0 : Int16).toInt = 0 := rfl
      rw [bypassed_object_backing, bypassedBacking, toInt_sub_one (by omega)]
      omega
    . have hnot : (h.object a).shadow ≠ some x := by
        rw [hc.shadow]
        exact fun heq => hxb (Option.some.inj heq).symm
      rw [bypassed_object_of_ne hxa hxb hxs]
      exact hroom x (hkept.reaches x hr) hxa hnot
  skips := by
    rw [hc.bypassed_links hwf]
    exact hc.skips_update hwf

end

end Candidate

theorem collapseRound_spec (env : CollapseEnv) (round : Nat) (hwf : WellFormed outside h)
    (hwin : Window h a) (ha : a ∈ h.live) (hroom : Room h a) : ∃ r, h.collapseRound env round a = .ok r
        ∧ ∀ h' ∈ r, ∃ b, (h.object a).shadow = some b ∧ Round outside a b h h' := by
  rw [collapseRound, Heap.get_bind ha]
  split
  . exact ⟨none, rfl, nofun⟩
  next hidle =>
  split
  . exact ⟨none, rfl, nofun⟩
  next b hb =>
  have hblive := hwf.linked a ha b hb
  rw [Heap.get_bind hblive]
  split
  . exact ⟨none, rfl, nofun⟩
  next hinternal =>
  rw [hasCopy_eq fun s hs => hwf.linked b hblive s hs, Stop.ok_bind]
  split
  . exact ⟨none, rfl, nofun⟩
  next hcopied =>
  have hc : Candidate h a b := by
    refine ⟨ha, hb, ?_, ?_, ?_⟩
    . simpa using fun hpager => hidle (.inl hpager)
    . simpa using fun hnot => hinternal (.inl hnot)
    . intro s hs
      rw [hs] at hcopied
      simpa using hcopied
  split
  . next href =>
    split
    . obtain ⟨memq, heq, hkept⟩ := hc.merge_spec hwf hwin href
      rw [heq]
      refine ⟨_, rfl, ?_⟩
      intro h' hh'
      obtain rfl := Option.mem_some_iff.1 hh'
      exact ⟨b, hb, hc.merged_round hwf hwin hroom hkept⟩
    . exact ⟨none, rfl, nofun⟩
  . next href =>
    split
    . exact ⟨none, rfl, nofun⟩
    . next hpages =>
      have hpager : (h.object b).pagerCreated = false := by
        simpa using fun hpager => hpages (.inr (.inl hpager))
      have hneeded : (h.object b).memq.keys.any (pageNeeded (h.object a)) = false :=
        eq_false_of_ne_true fun hneeded => hpages (.inr (.inr hneeded))
      obtain ⟨heq, hkept⟩ := hc.bypass_spec hwf hwin href hpager hneeded (hc.room_next hwf hroom)
      rw [heq]
      refine ⟨_, rfl, ?_⟩
      intro h' hh'
      obtain rfl := Option.mem_some_iff.1 hh'
      exact ⟨b, hb, hc.bypassed_round hwf hwin hroom hkept⟩

-- every round leaves one object less to reach
theorem collapseRounds_spec (env : CollapseEnv) (s : Finset Nat) {fuel : Nat} (round : Nat)
    (hfuel : s.card < fuel) (hwf : WellFormed outside h) (hwin : Window h a) (ha : a ∈ h.live)
    (hroom : Room h a) (hs : ∀ x, Reaches (h.links VmObject.shadow) a x → x ≠ a → x ∈ s)
    : ∃ h', h.collapseRounds env a fuel round = .ok h' ∧ Kept outside a h h' := by
  induction fuel generalizing h round s with
  | zero => omega
  | succ fuel ih =>
    obtain ⟨r, heq, hround⟩ := collapseRound_spec env round hwf hwin ha hroom
    rw [collapseRounds, heq]
    cases r with
    | none => exact ⟨h, rfl, .refl hwf ha⟩
    | some h1 =>
      obtain ⟨b, hb, hround⟩ := hround h1 rfl
      have hlink : h.links VmObject.shadow a = some b := by rw [Heap.links_of_mem ha, hb]
      have hbs : b ∈ s := by
        apply hs b (.tail .refl hlink)
        rintro rfl
        exact hwf.acyclic.not_reaches hlink .refl
      have hcard := Finset.card_erase_lt_of_mem hbs
      obtain ⟨h', heq', hkept⟩ := ih (s.erase b) (round + 1) (by omega) hround.kept.wellFormed
        hround.window hround.kept.frame.mem hround.room (by
          intro x hr hxa
          apply Finset.mem_erase.2
          refine ⟨?_, hs x (hround.skips.reaches hlink hr) hxa⟩
          rintro rfl
          exact hwf.acyclic.not_reaches_of_skips hround.skips hlink hr)
      exact ⟨h', heq', hround.kept.trans hkept⟩

theorem collapse_spec (env : CollapseEnv) (hwf : WellFormed outside h) (hwin : Window h a)
    (ha : a ∈ h.live) (hroom : Room h a) : ∃ h', h.collapse env (some a) = .ok h' ∧ Kept outside a h h' := by
  rw [collapse]
  split
  . apply collapseRounds_spec env h.live 0 (Nat.lt_succ_self _) hwf hwin ha hroom
    exact fun x hr _ => hwf.mem_of_reaches ha hr
  . exact ⟨h, rfl, .refl hwf ha⟩

def ofList (l : List (VmObject β)) : Objects β where
  live := Finset.range l.length
  object := fun a => l.getD a .template
  next := l.length
  lt_next := fun _ ha => Finset.mem_range.1 ha

theorem acyclic_ofList {l : List (VmObject β)} (hl : ∀ a < l.length, ∀ b ∈ (l.getD a .template).shadow, b < a)
    : Acyclic ((ofList l).links shadow) := by
  apply acyclic_of_lt id
  intro a b hlink
  obtain ⟨ha, hlink⟩ := Heap.mem_of_links hlink
  exact hl a (Finset.mem_range.1 ha) b hlink

def anonymous (size : Nat) (refCount : Int16) (shadow : Option Nat) (shadowOffset : Nat)
    (pages : List (Nat × β)) : VmObject β :=
  {
    (VmObject.template : VmObject β) with
    size
    refCount
    shadow
    shadowOffset
    memq := (pages.map fun p => (⟨p.1, .resident p.2⟩ : Sigma fun _ : Nat => Page β)).toAList
  }

theorem anonymous_lookup_ne {size shadowOffset : Nat} {refCount : Int16} {shadow : Option Nat}
    {pages : List (Nat × β)} (o : Nat) (b : Bool)
    : (anonymous size refCount shadow shadowOffset pages).memq.lookup o ≠ some (.absent b) := by
  intro hlookup
  have hlookup : (pages.map fun p => (⟨p.1, .resident p.2⟩ : Sigma fun _ : Nat => Page β)).dlookup o
      = some (.absent b) := by
    rw [← AList.lookup_to_alist]
    exact hlookup
  have hmem := List.of_mem_dlookup hlookup
  simp at hmem

theorem wellFormed_ofList {l : List (VmObject β)} {outside : Nat → Nat}
    (hl : ∀ x ∈ l, ∃ size refCount shadow shadowOffset pages, x = anonymous size refCount shadow shadowOffset pages)
    (hshadow : ∀ a < l.length, ∀ b ∈ (l.getD a .template).shadow, b < a)
    (hcounted : ∀ a < l.length, (l.getD a .template).refCount.toInt = outside a + (ofList l).linkers shadow a)
    : WellFormed outside (ofList l) := by
  have hobject : ∀ a ∈ (ofList l).live, ∃ size refCount shadow shadowOffset pages,
      (ofList l).object a = anonymous size refCount shadow shadowOffset pages := by
    intro a ha
    have hlt := Finset.mem_range.1 ha
    have heq : (ofList l).object a = l[a] := List.getD_eq_getElem l _ hlt
    rw [heq]
    exact hl _ (List.getElem_mem hlt)
  refine ⟨acyclic_ofList hshadow, ?_, ?_, ?_, ?_⟩
  . intro a ha b hb
    have ha := Finset.mem_range.1 ha
    have hlt := hshadow a ha b hb
    exact Finset.mem_range.2 (by omega)
  . exact fun a ha => hcounted a (Finset.mem_range.1 ha)
  . intro a ha c hc
    obtain ⟨size, refCount, shadow, shadowOffset, pages, heq⟩ := hobject a ha
    rw [heq] at hc
    contradiction
  . intro a ha _
    obtain ⟨size, refCount, shadow, shadowOffset, pages, heq⟩ := hobject a ha
    rw [heq]
    exact ⟨rfl, rfl, anonymous_lookup_ne⟩

def always : CollapseEnv := ⟨true, true, fun _ => true⟩

def threeObjects : List (VmObject Nat) := [
  anonymous 16384 2 none 0 [(4096, 4)],
  anonymous 16384 1 (some 0) 0 [(8192, 7), (0, 3)],
  anonymous 8192 1 (some 1) 4096 [(0, 5)]]

theorem threeObjects_wellFormed : WellFormed (fun a => if a = 1 then 0 else 1) (ofList threeObjects) := by
  apply wellFormed_ofList
  . intro x hx
    simp only [threeObjects, List.mem_cons, List.not_mem_nil, or_false] at hx
    obtain rfl | rfl | rfl := hx <;> exact ⟨_, _, _, _, _, rfl⟩
  . decide
  . decide

theorem threeObjects_window : Window (ofList threeObjects) 2 :=
  Windows.window threeObjects_wellFormed (by decide) ⟨by decide, by decide⟩

theorem threeObjects_room : Room (ofList threeObjects) 2 := by
  have hall : ∀ x ∈ (ofList threeObjects).live, ((ofList threeObjects).object x).refCount.toInt < 32767 := by decide
  exact fun x hr _ _ => hall x (threeObjects_wellFormed.mem_of_reaches (by decide) hr)

def wrapping : List (VmObject Nat) := [
  anonymous 8192 1 none 0 [(0, 7)],
  anonymous 8192 1 (some 0) 4294963200 []]

def crowded : List (VmObject Nat) := [
  anonymous 4096 32767 none 0 [(0, 9)],
  anonymous 4096 2 (some 0) 0 [],
  anonymous 4096 1 (some 1) 0 []]

theorem wrapping_wellFormed : WellFormed (fun a => a) (ofList wrapping) := by
  apply wellFormed_ofList
  . intro x hx
    simp only [wrapping, List.mem_cons, List.not_mem_nil, or_false] at hx
    obtain rfl | rfl := hx <;> exact ⟨_, _, _, _, _, rfl⟩
  . decide
  . decide

theorem crowded_wellFormed : WellFormed (fun a => if a = 0 then 32766 else 1) (ofList crowded) := by
  apply wellFormed_ofList
  . intro x hx
    simp only [crowded, List.mem_cons, List.not_mem_nil, or_false] at hx
    obtain rfl | rfl | rfl := hx <;> exact ⟨_, _, _, _, _, rfl⟩
  . decide
  . decide

end Objects

end Vm
