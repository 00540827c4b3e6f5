import UtahMach.Vm.Object.Graph

/-!
This module contains the proof that the rounds of a collapse change nothing for readers.
-/

open Chain

namespace Vm

open Heap (get_bind links_of_mem object_set_of_ne)

open Function

variable {β : Type} {a b c o : Nat} {h h' : Objects β} {outside : Nat → Nat}

theorem movePages_spec (backingOffset size : Nat) (l : List (Sigma fun _ : Nat => Page β))
    (hl : l.NodupKeys) (memq : AList fun _ : Nat => Page β)
    (habsent : ∀ o < size, ∀ b, memq.lookup o = some (.absent b) → o + backingOffset ∉ l.keys)
    : ∃ memq', movePages backingOffset size l memq = .ok memq'
        ∧ ∀ o, memq'.lookup o = (memq.lookup o).or (if o < size then l.dlookup (o + backingOffset) else none) := by
  induction l generalizing memq with
  | nil =>
    refine ⟨memq, rfl, ?_⟩
    intro o
    rw [List.dlookup_nil, ite_self, Option.or_none]
  | cons s l ih =>
    obtain ⟨offset, p⟩ := s
    obtain ⟨hoffset, hl⟩ := List.nodupKeys_cons.1 hl
    have habsent' : ∀ o < size, ∀ b, memq.lookup o = some (.absent b) → o + backingOffset ∉ l.keys := by
      intro o ho b hlookup hmem
      exact habsent o ho b hlookup (List.mem_cons_of_mem _ hmem)
    rw [movePages]
    by_cases hout : offset < backingOffset ∨ size ≤ offset - backingOffset
    . rw [if_pos hout]
      obtain ⟨memq', heq, hlookup⟩ := ih hl memq habsent'
      refine ⟨memq', heq, ?_⟩
      intro o
      rw [hlookup]
      split
      . have hne : o + backingOffset ≠ offset := by omega
        rw [List.dlookup_cons_ne _ _ hne]
      . rfl
    . rw [if_neg hout]
      have hback : offset - backingOffset + backingOffset = offset := by omega
      cases hparent : memq.lookup (offset - backingOffset) with
      | some page =>
        cases page with
        | resident contents =>
          obtain ⟨memq', heq, hlookup⟩ := ih hl memq habsent'
          refine ⟨memq', heq, ?_⟩
          intro o
          rw [hlookup]
          by_cases ho : o = offset - backingOffset
          . rw [ho, hparent]
            rfl
          . have hne : o + backingOffset ≠ offset := by omega
            rw [List.dlookup_cons_ne _ _ hne]
        | absent busy =>
          have hnot := habsent (offset - backingOffset) (by omega) busy hparent
          rw [hback] at hnot
          exact absurd List.mem_cons_self hnot
      | none =>
        have habsent'' : ∀ o < size, ∀ b, (memq.insert (offset - backingOffset) p).lookup o = some (.absent b)
            → o + backingOffset ∉ l.keys := by
          intro o ho b hlookup
          by_cases heq : o = offset - backingOffset
          . rw [heq, hback]
            exact hoffset
          . rw [AList.lookup_insert_ne heq] at hlookup
            exact habsent' o ho b hlookup
        obtain ⟨memq', heq, hlookup⟩ := ih hl _ habsent''
        refine ⟨memq', heq, ?_⟩
        intro o
        rw [hlookup]
        by_cases ho : o = offset - backingOffset
        . subst ho
          rw [AList.lookup_insert, hparent, if_pos (by omega), if_pos (by omega), hback, List.dlookup_cons_eq]
          rfl
        . have hne : o + backingOffset ≠ offset := by omega
          rw [AList.lookup_insert_ne ho, List.dlookup_cons_ne _ _ hne]

theorem toInt_add_one {n : Int16} (hn : n.toInt < 32767) : (n + 1).toInt = n.toInt + 1 := by
  have hle := Int16.le_toInt n
  rw [Int16.toInt_add]
  apply Int.bmod_eq_of_le
  . have : (1 : Int16).toInt = 1 := rfl
    omega
  . have : (1 : Int16).toInt = 1 := rfl
    omega

theorem toInt_sub_one {n : Int16} (hn : 0 < n.toInt) : (n - 1).toInt = n.toInt - 1 := by
  have hlt := Int16.toInt_lt n
  rw [Int16.toInt_sub]
  apply Int.bmod_eq_of_le
  . have : (1 : Int16).toInt = 1 := rfl
    omega
  . have : (1 : Int16).toInt = 1 := rfl
    omega

namespace VmObject

variable {object backing : VmObject β} {pagers : Nat → Nat → Option β}

-- without a pager there are only the pages in memory
theorem pagerContents_of_not_pagerCreated (hpager : object.pagerCreated = false)
    : object.pagerContents pagers o = none := by
  have hlook : object.lookForPage o = false := by simp [lookForPage, hpager]
  rw [pagerContents, hlook]
  rfl

theorem pagerContents_mergeWith (memq : AList fun _ : Nat => Page β)
    : (object.mergeWith backing memq).pagerContents pagers o
        = backing.pagerContents pagers (o + object.shadowOffset) := by
  cases hpager : backing.pager with
  | none => simp [pagerContents, mergeWith, hpager]
  | some pager =>
    have hoffset : (o + (object.mergeWith backing memq).pagingOffset) % wordSize
        = (o + object.shadowOffset + backing.pagingOffset) % wordSize := by
      rw [mergeWith, hpager, Option.isSome_some, if_pos rfl, Nat.add_mod_mod]
      congr 1
      omega
    have hlook : (object.mergeWith backing memq).lookForPage o
        = backing.lookForPage (o + object.shadowOffset) := by
      rw [lookForPage, lookForPage, externalState, externalState, hoffset]
      rfl
    rw [pagerContents, pagerContents, hlook, hoffset]
    rfl

theorem contents_of_resident (hpage : object.memq.lookup o = some (.resident d))
    : object.contents pagers o = some d := by
  rw [contents, hpage]

theorem contents_of_not_resident (hpage : ∀ d, object.memq.lookup o ≠ some (.resident d))
    : object.contents pagers o = object.pagerContents pagers o := by
  rw [contents]
  split
  . next d heq => exact absurd heq (hpage d)
  . rfl

theorem contents_mergeWith {memq : AList fun _ : Nat => Page β}
    (hpager : object.pagerCreated = false) (habsent : ∀ b, object.memq.lookup o ≠ some (.absent b))
    (hlookup : memq.lookup o = (object.memq.lookup o).or (backing.memq.lookup (o + object.shadowOffset)))
    (hwrap : o + object.shadowOffset < wordSize)
    : (object.mergeWith backing memq).contents pagers o = (object.contents pagers o).or
        (backing.contents pagers ((o + object.shadowOffset) % wordSize)) := by
  rw [Nat.mod_eq_of_lt hwrap]
  have hmemq : (object.mergeWith backing memq).memq.lookup o = memq.lookup o := rfl
  rw [hlookup] at hmemq
  cases hobject : object.memq.lookup o with
  | some page =>
    cases page with
    | resident d =>
      rw [hobject] at hmemq
      rw [contents_of_resident hmemq, contents_of_resident hobject]
      rfl
    | absent busy => exact absurd hobject (habsent busy)
  | none =>
    rw [hobject, Option.none_or] at hmemq
    have hnone : object.contents pagers o = none := by
      rw [contents_of_not_resident (by simp [hobject]), pagerContents_of_not_pagerCreated hpager]
    rw [hnone, Option.none_or]
    by_cases hpage : ∃ d, backing.memq.lookup (o + object.shadowOffset) = some (.resident d)
    . obtain ⟨d, hpage⟩ := hpage
      rw [contents_of_resident hpage, contents_of_resident (hmemq.trans hpage)]
    . have hpage := not_exists.1 hpage
      rw [contents_of_not_resident hpage, contents_of_not_resident (hmemq ▸ hpage), pagerContents_mergeWith]

end VmObject

namespace Objects

structure Candidate (h : Objects β) (a b : Nat) : Prop where
  mem : a ∈ h.live
  shadow : (h.object a).shadow = some b
  noPager : (h.object a).pagerCreated = false
  internal : (h.object b).internal
  noCopy : ∀ s ∈ (h.object b).shadow, (h.object s).copy = none

structure Kept (outside : Nat → Nat) (a : Nat) (h h' : Objects β) : Prop where
  frame : Frame a h h'
  reaches : ∀ x, Reaches (h'.links VmObject.shadow) a x → Reaches (h.links VmObject.shadow) a x
  freed : ∀ x ∈ h.live, x ∉ h'.live → outside x = 0 ∧ Reaches (h.links VmObject.shadow) a x
  wellFormed : WellFormed outside h'
  windows : Windows h → Windows h'
  aligned : Aligned h → Aligned h'
  unpaged : Unpaged h → Unpaged h'
  alive : ∀ x ∈ h'.live, (h'.object x).refCount = 0 → (h.object x).refCount = 0
  copy : (h'.object a).copy = (h.object a).copy
  pager : ∃ x, Reaches (h.links VmObject.shadow) a x ∧ (h'.object a).pager = (h.object x).pager
  pages : ∀ o p, (h.object a).memq.lookup o = some p → (h'.object a).memq.lookup o = some p
  reads : ∀ (pagers : Nat → Nat → Option β) (zero : β) (p : Nat × Nat) (d : β), p.1 ∈ h'.live
    → h.Below a (h.object a).size p → (h.Reads pagers zero p d ↔ h'.Reads pagers zero p d)

theorem Kept.refl (hwf : WellFormed outside h) (ha : a ∈ h.live) : Kept outside a h h where
  frame := .refl ha
  reaches := fun _ hr => hr
  freed := fun _ hx hnot => absurd hx hnot
  wellFormed := hwf
  windows := id
  aligned := id
  unpaged := id
  alive := fun _ _ => id
  copy := rfl
  pager := ⟨a, .refl, rfl⟩
  pages := fun _ _ => id
  reads := fun _ _ _ _ _ _ => Iff.rfl

theorem Kept.trans (hk : Kept outside a h h') (hk' : Kept outside a h' h'') : Kept outside a h h'' where
  frame := hk.frame.trans hk'.frame
  reaches := fun x hr => hk.reaches x (hk'.reaches x hr)
  freed := by
    intro x hx hnot
    by_cases hx' : x ∈ h'.live
    . obtain ⟨hzero, hr⟩ := hk'.freed x hx' hnot
      exact ⟨hzero, hk.reaches x hr⟩
    . exact hk.freed x hx hx'
  wellFormed := hk'.wellFormed
  windows := hk'.windows ∘ hk.windows
  aligned := hk'.aligned ∘ hk.aligned
  unpaged := hk'.unpaged ∘ hk.unpaged
  alive := fun x hx hzero => hk.alive x (hk'.frame.live hx) (hk'.alive x hx hzero)
  copy := hk'.copy.trans hk.copy
  pager := by
    obtain ⟨x, hr, hpager⟩ := hk'.pager
    by_cases hxa : x = a
    . subst hxa
      obtain ⟨y, hr, hpager'⟩ := hk.pager
      exact ⟨y, hr, hpager.trans hpager'⟩
    . have hx := hk.wellFormed.mem_of_reaches hk.frame.mem hr
      rw [hk.frame.same x hx hxa] at hpager
      exact ⟨x, hk.reaches x hr, hpager⟩
  pages := fun o p hpage => hk'.pages o p (hk.pages o p hpage)
  reads := by
    intro pagers zero p d hp hbelow
    have hp' := hk'.frame.live hp
    have hbelow' := hk.frame.below hk.wellFormed.linked hp' hbelow
    rw [← hk.frame.size] at hbelow'
    exact (hk.reads pagers zero p d hp' hbelow).trans (hk'.reads pagers zero p d hp hbelow')

-- the parent takes the window of the backing object, and the others keep theirs
structure Shifted (a b : Nat) (h h' : Objects β) : Prop where
  live : h'.live ⊆ h.live
  keep : ∀ x, (h'.object x).size = (h.object x).size ∧ (h'.object x).internal = (h.object x).internal
  parent : (h'.object a).shadow = (h.object b).shadow
    ∧ (h'.object a).shadowOffset = ((h.object a).shadowOffset + (h.object b).shadowOffset) % wordSize
  other : ∀ x ≠ a, (h'.object x).shadow = (h.object x).shadow
    ∧ (h'.object x).shadowOffset = (h.object x).shadowOffset

theorem hasCopy_eq {s : Option Nat} (hs : ∀ x ∈ s, x ∈ h.live)
    : h.hasCopy s = .ok (s.any fun x => (h.object x).copy.isSome) := by
  cases s with
  | none => rfl
  | some s =>
    rw [hasCopy, get_bind (hs s rfl)]
    rfl

namespace Candidate

variable {s : Nat}

theorem links (hc : Candidate h a b) : h.links VmObject.shadow a = some b := by
  rw [links_of_mem hc.mem, hc.shadow]

variable (hc : Candidate h a b) (hwf : WellFormed outside h)
include hc hwf

theorem mem_backing : b ∈ h.live := hwf.linked a hc.mem b hc.shadow

-- links from the backing object on do not lead back
theorem not_reaches (hs : (h.object b).shadow = some s) : ¬ Reaches (h.links VmObject.shadow) s a := by
  intro hr
  apply hwf.acyclic.not_reaches hc.links
  apply Reaches.head _ hr
  rw [Heap.links_of_mem (hc.mem_backing hwf), hs]

theorem ne : b ≠ a := by
  rintro rfl
  exact hwf.acyclic.not_reaches hc.links .refl

theorem ne_of_shadow (hs : (h.object b).shadow = some s) : s ≠ a ∧ s ≠ b := by
  refine ⟨?_, ?_⟩
  . rintro rfl
    exact hc.not_reaches hwf hs .refl
  . rintro rfl
    have hlink : h.links VmObject.shadow s = some s := by rw [links_of_mem (hc.mem_backing hwf), hs]
    exact hwf.acyclic.not_reaches hlink .refl

-- the parent is the copy of the backing object only
theorem ne_copy (hx : x ∈ h.live) (hxb : x ≠ b) (hcopy : (h.object x).copy = some c) : c ≠ a := by
  obtain ⟨-, hshadow, -⟩ := hwf.copies x hx c hcopy
  rintro rfl
  rw [hc.shadow] at hshadow
  exact hxb (Option.some.inj hshadow).symm

theorem skips_update
    : Skips (h.links VmObject.shadow) (update (h.links VmObject.shadow) a (h.object b).shadow) a b := by
  intro y z hlink
  by_cases hya : y = a
  . rw [hya, update_self] at hlink
    refine .inl ⟨hya, ?_⟩
    rw [links_of_mem (hc.mem_backing hwf)]
    exact hlink
  . rw [update_of_ne hya] at hlink
    exact .inr ⟨hya, hlink⟩

theorem acyclic_update : Acyclic (update (h.links VmObject.shadow) a (h.object b).shadow) := by
  cases hs : (h.object b).shadow with
  | none => exact hwf.acyclic.update_none a
  | some s => exact hwf.acyclic.update_some (hc.not_reaches hwf hs)

theorem hasCopy : h.hasCopy (h.object b).shadow = .ok false := by
  rw [hasCopy_eq fun s hs => hwf.linked b (hc.mem_backing hwf) s hs]
  congr 1
  rw [Option.any_eq_false]
  intro s hs
  rw [hc.noCopy s hs]
  decide

-- the window of the parent into the next object
theorem windows (hwin : Windows h)
    : ((h.object a).shadowOffset + (h.object b).shadowOffset) % wordSize + (h.object a).size ≤ wordSize
        ∧ ∀ s ∈ (h.object b).shadow, (h.object s).internal →
          ((h.object a).shadowOffset + (h.object b).shadowOffset) % wordSize + (h.object a).size
            ≤ (h.object s).size := by
  have hb := hc.mem_backing hwf
  have hinside := hwin.inside a hc.mem b hc.shadow hc.internal
  have hwrap := hwin.noWrap b hb
  have hmod := Nat.mod_le ((h.object a).shadowOffset + (h.object b).shadowOffset) wordSize
  refine ⟨by omega, ?_⟩
  intro s hs hinternal
  have := hwin.inside b hb s hs hinternal
  omega

theorem windows_of (hs : Shifted a b h h') (hwin : Windows h) : Windows h' := by
  obtain ⟨hlive, hkeep, hparent, hother⟩ := hs
  obtain ⟨hwrap, hinside⟩ := hc.windows hwf hwin
  refine ⟨?_, ?_⟩
  . intro x hx
    rw [(hkeep x).1]
    by_cases hxa : x = a
    . rw [hxa, hparent.2]
      exact hwrap
    . rw [(hother x hxa).2]
      exact hwin.noWrap x (hlive hx)
  . intro x hx y hy hinternal
    rw [(hkeep x).1, (hkeep y).1]
    rw [(hkeep y).2] at hinternal
    by_cases hxa : x = a
    . rw [hxa, hparent.1] at hy
      rw [hxa, hparent.2]
      exact hinside y hy hinternal
    . rw [(hother x hxa).1] at hy
      rw [(hother x hxa).2]
      exact hwin.inside x (hlive hx) y hy hinternal

theorem window_of (hs : Shifted a b h h') (hwin : Window h a) : Window h' a := by
  intro n x hd
  obtain ⟨m, hle, hd⟩ : ∃ m, n ≤ m ∧ h.Depth a m x := by
    induction hd with
    | shadow hx =>
      rw [hs.parent.1] at hx
      rw [hs.parent.2]
      exact ⟨_, Nat.mod_le _ _, .next (.shadow hc.shadow) hc.internal hx⟩
    | next _ hinternal hy ih =>
      obtain ⟨m, hle, hd⟩ := ih
      have hne := hd.ne hwf hc.mem hc.shadow
      rw [(hs.keep _).2] at hinternal
      rw [(hs.other _ hne).1] at hy
      rw [(hs.other _ hne).2]
      exact ⟨_, Nat.add_le_add_right hle _, .next hd hinternal hy⟩
  have := hwin m x hd
  rw [(hs.keep a).1]
  omega

end Candidate

def merged (h : Objects β) (a b : Nat) (memq : AList fun _ : Nat => Page β) : Objects β :=
  (h.set a ((h.object a).mergeWith (h.object b) memq)).free b

section Merged

variable {x : Nat} {memq : AList fun _ : Nat => Page β}

theorem mem_merged : x ∈ (h.merged a b memq).live ↔ x ≠ b ∧ x ∈ h.live := Finset.mem_erase

theorem merged_object_self
    : (h.merged a b memq).object a = (h.object a).mergeWith (h.object b) memq := Heap.object_set_self

theorem merged_object_of_ne (hx : x ≠ a) : (h.merged a b memq).object x = h.object x := object_set_of_ne hx

theorem merged_part (f : VmObject β → γ)
    (hf : f ((h.object a).mergeWith (h.object b) memq) = f (h.object a)) (x : Nat)
    : f ((h.merged a b memq).object x) = f (h.object x) := by
  by_cases hxa : x = a
  . rw [hxa, merged_object_self, hf]
  . rw [merged_object_of_ne hxa]

theorem merged_copy : ((h.merged a b memq).object x).copy = (h.object x).copy := merged_part VmObject.copy rfl x

theorem merged_shifted : Shifted a b h (h.merged a b memq) where
  live := Finset.erase_subset _ _
  keep := fun x => ⟨merged_part VmObject.size rfl x, merged_part VmObject.internal rfl x⟩
  parent := by
    rw [merged_object_self]
    exact ⟨rfl, rfl⟩
  other := by
    intro x hxa
    rw [merged_object_of_ne hxa]
    exact ⟨rfl, rfl⟩

theorem merged_refCount : ((h.merged a b memq).object x).refCount = (h.object x).refCount :=
  merged_part VmObject.refCount rfl x

variable (hc : Candidate h a b) (hwf : WellFormed outside h)
include hc hwf

-- only the parent shadows the backing object
theorem Candidate.ne_backing (href : (h.object b).refCount = 1) (hx : x ∈ h.live) (hxa : x ≠ a)
    (hy : (h.object x).shadow = some y) : y ≠ b := by
  rintro rfl
  have hcounted := hwf.counted y (hc.mem_backing hwf)
  rw [href] at hcounted
  have hone : (1 : Int16).toInt = 1 := rfl
  exact hxa (Heap.eq_of_linkers_le_one (by omega) hx hc.mem hy hc.shadow)

theorem Candidate.merged_linked (href : (h.object b).refCount = 1)
    : ∀ x ∈ (h.merged a b memq).live, ∀ y ∈ ((h.merged a b memq).object x).shadow,
        y ∈ (h.merged a b memq).live := by
  intro x hx y hy
  rw [mem_merged] at hx ⊢
  by_cases hxa : x = a
  . subst hxa
    rw [merged_object_self] at hy
    exact ⟨(hc.ne_of_shadow hwf hy).2, hwf.linked b (hc.mem_backing hwf) y hy⟩
  . rw [merged_object_of_ne hxa] at hy
    exact ⟨hc.ne_backing hwf href hx.2 hxa hy, hwf.linked x hx.2 y hy⟩

theorem Candidate.merged_acyclic : Acyclic ((h.merged a b memq).links VmObject.shadow) := by
  rw [merged, Heap.links_free, Heap.links_set hc.mem]
  exact (hc.acyclic_update hwf).update_none b

theorem Candidate.merged_linkers (hx : x ≠ b)
    : (h.merged a b memq).linkers VmObject.shadow x = h.linkers VmObject.shadow x := by
  have hset := Heap.linkers_set VmObject.shadow hc.mem ((h.object a).mergeWith (h.object b) memq) x
  have hfree := Heap.linkers_free VmObject.shadow
    (h := h.set a ((h.object a).mergeWith (h.object b) memq)) (hc.mem_backing hwf) x
  have hshadow : ((h.object a).mergeWith (h.object b) memq).shadow = (h.object b).shadow := rfl
  have hne : ¬ some b = some x := fun heq => hx (Option.some.inj heq).symm
  rw [object_set_of_ne (hc.ne hwf)] at hfree
  rw [hc.shadow, if_neg hne, hshadow] at hset
  rw [merged]
  omega

theorem Candidate.merged_aligned (haligned : Aligned h) : Aligned (h.merged a b memq) := by
  intro x hx c hcopy
  rw [merged_copy] at hcopy
  rw [mem_merged] at hx
  rw [merged_object_of_ne (hc.ne_copy hwf hx.2 hx.1 hcopy)]
  exact haligned x hx.2 c hcopy

theorem Candidate.merged_unpaged (hunpaged : Unpaged h) : Unpaged (h.merged a b memq) := by
  intro x hx
  by_cases hxa : x = a
  . subst hxa
    rw [merged_object_self]
    exact ⟨(hunpaged b (hc.mem_backing hwf)).1, (hunpaged x (mem_merged.1 hx).2).2⟩
  . rw [merged_object_of_ne hxa]
    exact hunpaged x (mem_merged.1 hx).2

theorem Candidate.merged_copies : ∀ x ∈ (h.merged a b memq).live, ∀ c ∈ ((h.merged a b memq).object x).copy,
        c ∈ (h.merged a b memq).live ∧ ((h.merged a b memq).object c).shadow = some x
        ∧ ∀ y ∈ (h.merged a b memq).live, ((h.merged a b memq).object y).shadow = some x → y = c := by
  intro x hx c hcopy
  have hcopied : c ∈ (h.object x).copy := by rwa [merged_copy] at hcopy
  rw [mem_merged] at hx ⊢
  have hca := hc.ne_copy hwf hx.2 hx.1 hcopied
  obtain ⟨hclive, hcshadow, hunique⟩ := hwf.copies x hx.2 c hcopied
  have hcb : c ≠ b := by
    rintro rfl
    have := hc.noCopy x hcshadow
    rw [this] at hcopied
    contradiction
  refine ⟨⟨hcb, hclive⟩, by rw [merged_object_of_ne hca]; exact hcshadow, ?_⟩
  intro y hy hyshadow
  rw [mem_merged] at hy
  by_cases hya : y = a
  . subst hya
    rw [merged_object_self] at hyshadow
    have := hc.noCopy x hyshadow
    rw [this] at hcopied
    contradiction
  . rw [merged_object_of_ne hya] at hyshadow
    exact hunique y hy.2 hyshadow

theorem Candidate.merged_wellFormed (href : (h.object b).refCount = 1)
    (hmemq : ∀ o, memq.lookup o = ((h.object a).memq.lookup o).or
      (if o < (h.object a).size then (h.object b).memq.lookup (o + (h.object a).shadowOffset) else none))
    : WellFormed outside (h.merged a b memq) where
  acyclic := hc.merged_acyclic hwf
  linked := hc.merged_linked hwf href
  counted := by
    intro x hx
    rw [mem_merged] at hx
    rw [hc.merged_linkers hwf hx.1, ← hwf.counted x hx.2, merged_refCount]
  copies := hc.merged_copies hwf
  noPager := by
    intro x hx
    rw [mem_merged] at hx
    by_cases hxa : x = a
    . subst hxa
      rw [merged_object_self]
      intro hpager
      obtain ⟨hnone, hexistence, habsent⟩ := hwf.noPager b (hc.mem_backing hwf) hpager
      refine ⟨hnone, hexistence, ?_⟩
      intro o busy hlookup
      have hlookup : memq.lookup o = some (.absent busy) := hlookup
      rw [hmemq, Option.or_eq_some_iff] at hlookup
      obtain hlookup | ⟨-, hlookup⟩ := hlookup
      . exact (hwf.noPager x hx.2 hc.noPager).2.2 o busy hlookup
      . split at hlookup
        . exact habsent _ busy hlookup
        . contradiction
    . rw [merged_object_of_ne hxa]
      exact hwf.noPager x hx.2

theorem Candidate.merged_frame : Frame a h (h.merged a b memq) where
  live := Finset.erase_subset _ _
  mem := mem_merged.2 ⟨Ne.symm (hc.ne hwf), hc.mem⟩
  size := by
    rw [merged_object_self]
    rfl
  same := by
    intro x _ hxa
    rw [merged_object_of_ne hxa]

theorem Candidate.merged_skips : Skips (h.links VmObject.shadow) ((h.merged a b memq).links VmObject.shadow) a b := by
  intro y z hlink
  rw [merged, Heap.links_free, Heap.links_set hc.mem] at hlink
  by_cases hyb : y = b
  . rw [hyb, update_self] at hlink
    contradiction
  . rw [update_of_ne hyb] at hlink
    exact hc.skips_update hwf y z hlink

theorem Candidate.merged_freed (href : (h.object b).refCount = 1) : ∀ x ∈ h.live, x ∉ (h.merged a b memq).live
        → outside x = 0 ∧ Reaches (h.links VmObject.shadow) a x := by
  intro x hx hnot
  have hxb : x = b := by
    by_contra hne
    exact hnot (mem_merged.2 ⟨hne, hx⟩)
  subst hxb
  have hcounted := hwf.counted x hx
  have hpos := Heap.linkers_pos hc.mem hc.shadow
  have hone : (1 : Int16).toInt = 1 := rfl
  rw [href] at hcounted
  exact ⟨by omega, .tail .refl hc.links⟩

theorem Candidate.merge_spec (hwin : Window h a) (href : (h.object b).refCount = 1)
    : ∃ memq, h.merge a b = .ok (h.merged a b memq) ∧ Kept outside a h (h.merged a b memq) := by
  have hb := hc.mem_backing hwf
  obtain ⟨-, hexistence, habsent⟩ := hwf.noPager a hc.mem hc.noPager
  obtain ⟨memq, heq, hmemq⟩ := movePages_spec (h.object a).shadowOffset (h.object a).size
    (h.object b).memq.entries (h.object b).memq.nodupKeys (h.object a).memq 
    fun o _ busy hlookup => absurd hlookup (habsent o busy)
  refine ⟨memq, ?_, ?_⟩
  . rw [merge, get_bind hc.mem, get_bind hb, heq, Stop.ok_bind, Stop.check_bind hexistence, hc.hasCopy hwf]
    rfl
  . have hframe : Frame a h (h.merged a b memq) := hc.merged_frame hwf
    have hwf' := hc.merged_wellFormed hwf href hmemq
    refine ⟨hframe, fun x hr => (hc.merged_skips hwf).reaches hc.links hr, hc.merged_freed hwf href, hwf',
      hc.windows_of hwf merged_shifted, hc.merged_aligned hwf, hc.merged_unpaged hwf,
      fun x _ hzero => merged_refCount ▸ hzero, merged_copy,
      ⟨b, .tail .refl hc.links, by rw [merged_object_self]; rfl⟩, ?_, ?_⟩
    . intro o p hpage
      rw [merged_object_self]
      have hlookup := hmemq o
      rw [hpage] at hlookup
      exact hlookup
    intro pagers zero p d hp hbelow
    apply hframe.reads_iff hwf.acyclic hwf'.acyclic hwf'.linked hb hc.shadow _ _ pagers zero _ hp hbelow d
    . rw [merged_object_self]
      rfl
    . rw [merged_object_self]
      rfl
    . intro o ho
      rw [merged_object_self]
      apply VmObject.contents_mergeWith hc.noPager (habsent o)
      . rw [hmemq, if_pos ho]
        rfl
      . have := hwin _ _ (.shadow hc.shadow)
        omega

end Merged

def bypassedParent (h : Objects β) (a b : Nat) : VmObject β :=
  {
    h.object a with
    shadow := (h.object b).shadow
    shadowOffset := ((h.object a).shadowOffset + (h.object b).shadowOffset) % wordSize
  }

def bypassedBacking (h : Objects β) (a b : Nat) : VmObject β :=
  {
    h.object b with
    copy := if (h.object b).copy = some a then none else (h.object b).copy
    refCount := (h.object b).refCount - 1
  }

def referenced (h : Objects β) (s : Nat) : VmObject β :=
  { h.object s with refCount := (h.object s).refCount + 1 }

def addReference (h : Objects β) : Option Nat → Objects β
  | none => h
  | some s => h.set s (h.referenced s)

def bypassed (h : Objects β) (a b : Nat) : Objects β :=
  ((h.addReference (h.object b).shadow).set a (h.bypassedParent a b)).set b (h.bypassedBacking a b)

section Bypassed

variable {x : Nat} {s : Option Nat}

theorem live_addReference : (h.addReference s).live = h.live := by
  cases s <;> rfl

theorem object_addReference_of_ne (hx : s ≠ some x) : (h.addReference s).object x = h.object x := by
  cases s with
  | none => rfl
  | some s =>
    apply object_set_of_ne
    rintro rfl
    exact hx rfl

theorem reference_eq (hs : ∀ x ∈ s, x ∈ h.live ∧ 0 < (h.object x).refCount)
    : h.reference s = .ok (h.addReference s) := by
  cases s with
  | none => rfl
  | some s =>
    obtain ⟨hlive, hpos⟩ := hs s rfl
    rw [reference, get_bind hlive, Stop.check_bind hpos]
    rfl

theorem bypassed_live : (h.bypassed a b).live = h.live := live_addReference

theorem bypassed_object_backing : (h.bypassed a b).object b = h.bypassedBacking a b := Heap.object_set_self

theorem bypassed_object_next (hx : (h.object b).shadow = some x) (hxa : x ≠ a) (hxb : x ≠ b)
    : (h.bypassed a b).object x = h.referenced x := by
  rw [bypassed, object_set_of_ne hxb, object_set_of_ne hxa, hx]
  exact Heap.object_set_self

theorem bypassed_object_of_ne (hxa : x ≠ a) (hxb : x ≠ b) (hxs : (h.object b).shadow ≠ some x)
    : (h.bypassed a b).object x = h.object x := by
  rw [bypassed, object_set_of_ne hxb, object_set_of_ne hxa, object_addReference_of_ne hxs]

-- the other objects keep all but the references to them
theorem bypassed_object (hxa : x ≠ a) : (h.bypassed a b).object x = { h.object x with
      refCount := ((h.bypassed a b).object x).refCount, copy := ((h.bypassed a b).object x).copy } := by
  by_cases hxb : x = b
  . subst hxb
    rw [bypassed_object_backing]
    rfl
  . by_cases hxs : (h.object b).shadow = some x
    . rw [bypassed_object_next hxs hxa hxb]
      rfl
    . rw [bypassed_object_of_ne hxa hxb hxs]

theorem bypassed_shadow (hxa : x ≠ a) : ((h.bypassed a b).object x).shadow = (h.object x).shadow := by
  have hshadow := congrArg VmObject.shadow (bypassed_object (h := h) (b := b) hxa)
  exact hshadow

theorem WellFormed.refCount_pos (hwf : WellFormed outside h) {x s : Nat} (hx : x ∈ h.live)
    (hs : (h.object x).shadow = some s) : 0 < (h.object s).refCount := by
  have hcounted := hwf.counted s (hwf.linked x hx s hs)
  have hpos := Heap.linkers_pos hx hs
  rw [Int16.lt_iff_toInt_lt]
  have hzero : (0 : Int16).toInt = 0 := rfl
  omega

variable (hc : Candidate h a b) (hwf : WellFormed outside h)
include hc hwf

theorem Candidate.bypassed_parent : (h.bypassed a b).object a = h.bypassedParent a b := by
  rw [bypassed, object_set_of_ne (Ne.symm (hc.ne hwf)), Heap.object_set_self]

theorem Candidate.bypassed_links : (h.bypassed a b).links VmObject.shadow
        = update (h.links VmObject.shadow) a (h.object b).shadow := by
  funext x
  by_cases hxa : x = a
  . subst hxa
    have hmem : x ∈ (h.bypassed x b).live := by
      rw [bypassed_live]
      exact hc.mem
    rw [update_self, links_of_mem hmem, hc.bypassed_parent hwf]
    rfl
  . rw [update_of_ne hxa, Heap.links, Heap.links, bypassed_live, bypassed_shadow hxa]

theorem Candidate.bypassed_linkers (x : Nat)
    : (h.bypassed a b).linkers VmObject.shadow x + (if some b = some x then 1 else 0)
        = h.linkers VmObject.shadow x + if (h.object b).shadow = some x then 1 else 0 := by
  have hcongr : (h.bypassed a b).linkers VmObject.shadow x
      = (h.set a (h.bypassedParent a b)).linkers VmObject.shadow x := by
    refine Heap.linkers_congr VmObject.shadow ?_ ?_ x
    . exact bypassed_live
    . intro y _
      by_cases hya : y = a
      . subst hya
        rw [hc.bypassed_parent hwf, Heap.object_set_self]
      . rw [bypassed_shadow hya, object_set_of_ne hya]
  have hset := Heap.linkers_set VmObject.shadow hc.mem (h.bypassedParent a b) x
  rw [hc.shadow] at hset
  rw [hcongr, hset]
  rfl

section

variable (hroom : ∀ s ∈ (h.object b).shadow, (h.object s).refCount.toInt < 32767)
include hroom

theorem Candidate.bypassed_counted (hx : x ∈ h.live) : ((h.bypassed a b).object x).refCount.toInt
        = outside x + (h.bypassed a b).linkers VmObject.shadow x := by
  have hlinkers := hc.bypassed_linkers hwf x
  have hcounted := hwf.counted x hx
  by_cases hxb : x = b
  . subst hxb
    have hself : (h.object x).shadow ≠ some x := fun hs => (hc.ne_of_shadow hwf hs).2 rfl
    rw [if_pos rfl, if_neg hself] at hlinkers
    rw [bypassed_object_backing, bypassedBacking, toInt_sub_one (by omega)]
    omega
  . have hxb' : ¬ some b = some x := fun heq => hxb (Option.some.inj heq).symm
    rw [if_neg hxb'] at hlinkers
    by_cases hxs : (h.object b).shadow = some x
    . rw [if_pos hxs] at hlinkers
      rw [bypassed_object_next hxs (hc.ne_of_shadow hwf hxs).1 hxb, referenced, toInt_add_one (hroom x hxs)]
      omega
    . rw [if_neg hxs] at hlinkers
      have href : ((h.bypassed a b).object x).refCount = (h.object x).refCount := by
        by_cases hxa : x = a
        . subst hxa
          rw [hc.bypassed_parent hwf]
          rfl
        . rw [bypassed_object_of_ne hxa hxb hxs]
      rw [href]
      omega

theorem Candidate.bypassed_alive (href : (h.object b).refCount ≠ 1) (hx : x ∈ (h.bypassed a b).live)
    (hzero : ((h.bypassed a b).object x).refCount = 0) : (h.object x).refCount = 0 := by
  rw [bypassed_live] at hx
  have hcounted := hc.bypassed_counted hwf hroom hx
  have hlinkers := hc.bypassed_linkers hwf x
  have hcountedBefore := hwf.counted x hx
  rw [hzero] at hcounted
  have hzero : (0 : Int16).toInt = 0 := rfl
  rw [← Int16.toInt_inj]
  by_cases hxb : x = b
  . subst hxb
    have hne : (h.object x).refCount.toInt ≠ 1 := fun heq => href (Int16.toInt_inj.1 heq)
    split at hlinkers
    . omega
    . omega
  . rw [if_neg fun heq => hxb (Option.some.inj heq).symm] at hlinkers
    omega

end

theorem Candidate.bypassed_copy (hx : x ∈ h.live) (hcopy : ((h.bypassed a b).object x).copy = some c)
    : (h.object x).copy = some c ∧ x ≠ b ∧ (h.object b).shadow ≠ some x := by
  by_cases hxb : x = b
  . subst hxb
    rw [bypassed_object_backing, bypassedBacking] at hcopy
    split at hcopy
    . contradiction
    . next hne =>
      -- the parent shadows the backing object and would be its copy
      obtain ⟨-, -, hunique⟩ := hwf.copies x hx c hcopy
      rw [hunique a hc.mem hc.shadow] at hne
      exact absurd hcopy hne
  . by_cases hxs : (h.object b).shadow = some x
    . rw [bypassed_object_next hxs (hc.ne_of_shadow hwf hxs).1 hxb] at hcopy
      have hnone := hc.noCopy x hxs
      have hcopy : (h.object x).copy = some c := hcopy
      rw [hnone] at hcopy
      contradiction
    . refine ⟨?_, hxb, hxs⟩
      by_cases hxa : x = a
      . subst hxa
        rwa [hc.bypassed_parent hwf] at hcopy
      . rwa [bypassed_object_of_ne hxa hxb hxs] at hcopy

theorem Candidate.bypassed_aligned (haligned : Aligned h) : Aligned (h.bypassed a b) := by
  intro x hx c hcopy
  rw [bypassed_live] at hx
  obtain ⟨hcopy, hxb, -⟩ := hc.bypassed_copy hwf hx hcopy
  rw [bypassed_object (hc.ne_copy hwf hx hxb hcopy)]
  exact haligned x hx c hcopy

theorem Candidate.bypassed_unpaged (hunpaged : Unpaged h) : Unpaged (h.bypassed a b) := by
  intro x hx
  rw [bypassed_live] at hx
  by_cases hxa : x = a
  . subst hxa
    rw [hc.bypassed_parent hwf]
    exact hunpaged x hx
  . rw [bypassed_object hxa]
    exact hunpaged x hx

theorem Candidate.bypassed_wellFormed (hroom : ∀ s ∈ (h.object b).shadow, (h.object s).refCount.toInt < 32767)
    : WellFormed outside (h.bypassed a b) where
  acyclic := by
    rw [hc.bypassed_links hwf]
    exact hc.acyclic_update hwf
  linked := by
    intro x hx y hy
    rw [bypassed_live] at hx ⊢
    by_cases hxa : x = a
    . subst hxa
      rw [hc.bypassed_parent hwf] at hy
      exact hwf.linked b (hc.mem_backing hwf) y hy
    . rw [bypassed_shadow hxa] at hy
      exact hwf.linked x hx y hy
  counted := by
    intro x hx
    rw [bypassed_live] at hx
    exact hc.bypassed_counted hwf hroom hx
  copies := by
    intro x hx c hcopy
    rw [bypassed_live] at hx ⊢
    obtain ⟨hcopy, hxb, hxs⟩ := hc.bypassed_copy hwf hx hcopy
    obtain ⟨hclive, hcshadow, hunique⟩ := hwf.copies x hx c hcopy
    have hca := hc.ne_copy hwf hx hxb hcopy
    refine ⟨hclive, by rw [bypassed_shadow hca]; exact hcshadow, ?_⟩
    intro y hy hyshadow
    by_cases hya : y = a
    . subst hya
      rw [hc.bypassed_parent hwf] at hyshadow
      exact absurd hyshadow hxs
    . rw [bypassed_shadow hya] at hyshadow
      exact hunique y hy hyshadow
  noPager := by
    intro x hx
    rw [bypassed_live] at hx
    by_cases hxa : x = a
    . subst hxa
      rw [hc.bypassed_parent hwf]
      exact hwf.noPager x hx
    . rw [bypassed_object hxa]
      exact hwf.noPager x hx

theorem Candidate.bypassed_frame : Frame a h (h.bypassed a b) where
  live := by rw [bypassed_live]
  mem := by
    rw [bypassed_live]
    exact hc.mem
  size := by
    rw [hc.bypassed_parent hwf]
    rfl
  same := fun x _ hxa => bypassed_object hxa

theorem Candidate.bypassed_shifted : Shifted a b h (h.bypassed a b) where
  live := bypassed_live.subset
  keep := by
    intro x
    by_cases hxa : x = a
    . rw [hxa, hc.bypassed_parent hwf]
      exact ⟨rfl, rfl⟩
    . rw [bypassed_object hxa]
      exact ⟨rfl, rfl⟩
  parent := by
    rw [hc.bypassed_parent hwf]
    exact ⟨rfl, rfl⟩
  other := by
    intro x hxa
    rw [bypassed_object hxa]
    exact ⟨rfl, rfl⟩

-- a page of the backing object that the parent does not have would be needed
theorem Candidate.bypassed_contents (hwin : Window h a) (hpager : (h.object b).pagerCreated = false)
    (hneeded : (h.object b).memq.keys.any (pageNeeded (h.object a)) = false)
    (pagers : Nat → Nat → Option β) (ho : o < (h.object a).size)
    : ((h.bypassed a b).object a).contents pagers o = ((h.object a).contents pagers o).or
        ((h.object b).contents pagers ((o + (h.object a).shadowOffset) % wordSize)) := by
  have hwrap : o + (h.object a).shadowOffset < wordSize := by
    have := hwin _ _ (.shadow hc.shadow)
    omega
  have hself : ((h.bypassed a b).object a).contents pagers o = (h.object a).contents pagers o := by
    rw [hc.bypassed_parent hwf]
    rfl
  rw [hself, Nat.mod_eq_of_lt hwrap]
  cases hpage : (h.object a).memq.lookup o with
  | some page =>
    cases page with
    | resident d =>
      rw [VmObject.contents_of_resident hpage]
      rfl
    | absent busy => exact absurd hpage ((hwf.noPager a hc.mem hc.noPager).2.2 o busy)
  | none =>
    have hnone : (h.object b).memq.lookup (o + (h.object a).shadowOffset) = none := by
      rw [AList.lookup_eq_none]
      intro hmem
      have hnot := List.any_eq_false.1 hneeded _ (AList.mem_keys.1 hmem)
      apply hnot
      have hback : o + (h.object a).shadowOffset - (h.object a).shadowOffset = o := Nat.add_sub_cancel _ _
      rw [pageNeeded, hback]
      exact decide_eq_true ⟨Nat.le_add_left _ _, by omega, hpage⟩
    rw [VmObject.contents_of_not_resident (by simp [hpage]), VmObject.contents_of_not_resident (by simp [hnone]),
      VmObject.pagerContents_of_not_pagerCreated hc.noPager,
      VmObject.pagerContents_of_not_pagerCreated hpager]
    rfl

theorem Candidate.bypass_spec (hwin : Window h a)
    (href : (h.object b).refCount ≠ 1) (hpager : (h.object b).pagerCreated = false)
    (hneeded : (h.object b).memq.keys.any (pageNeeded (h.object a)) = false)
    (hroom : ∀ s ∈ (h.object b).shadow, (h.object s).refCount.toInt < 32767)
    : h.bypass a b = .ok (h.bypassed a b) ∧ Kept outside a h (h.bypassed a b) := by
  have hb := hc.mem_backing hwf
  refine ⟨?_, ?_⟩
  . have hpos : 0 < (h.object b).refCount - 1 := by
      have hpos := hwf.refCount_pos hc.mem hc.shadow
      have hzero : (0 : Int16).toInt = 0 := rfl
      rw [Int16.lt_iff_toInt_lt] at hpos ⊢
      rw [toInt_sub_one (by omega)]
      have hne : (h.object b).refCount.toInt ≠ 1 := fun heq => href (Int16.toInt_inj.1 heq)
      omega
    have href := reference_eq (h := h) (s := (h.object b).shadow) fun x hx =>
      ⟨hwf.linked b hb x hx, hwf.refCount_pos hb hx⟩
    rw [bypass, get_bind hc.mem, get_bind hb, href]
    exact Stop.check_bind hpos _
  . have hframe := hc.bypassed_frame hwf
    have hwf' := hc.bypassed_wellFormed hwf hroom
    refine ⟨hframe, fun x hr => (hc.skips_update hwf).reaches hc.links (hc.bypassed_links hwf ▸ hr), ?_, hwf',
      hc.windows_of hwf (hc.bypassed_shifted hwf), hc.bypassed_aligned hwf, hc.bypassed_unpaged hwf,
      fun x hx => hc.bypassed_alive hwf hroom href hx, ?_,
      ⟨a, .refl, by rw [hc.bypassed_parent hwf]; rfl⟩, ?_, ?_⟩
    . intro x hx hnot
      rw [bypassed_live] at hnot
      contradiction
    . rw [hc.bypassed_parent hwf]
      rfl
    . intro o p hpage
      rw [hc.bypassed_parent hwf]
      exact hpage
    intro pagers zero p d hp hbelow
    apply hframe.reads_iff hwf.acyclic hwf'.acyclic hwf'.linked hb hc.shadow _ _ pagers zero _ hp hbelow d
    . rw [hc.bypassed_parent hwf]
      rfl
    . rw [hc.bypassed_parent hwf]
      rfl
    . exact fun o ho => hc.bypassed_contents hwf hwin hpager hneeded pagers ho

end Bypassed

end Objects

end Vm
