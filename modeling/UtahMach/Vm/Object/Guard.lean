import UtahMach.Vm.Object.Race

/-!
This module contains the proof that a write fault does not map a page before the copy object has it.
-/

open Chain

namespace Vm

open VmObject (shadow)

open Objects Heap

variable {β : Type}

namespace Race

variable (a o : Nat) (zero : β)

structure Consistent (outside : Nat → Nat) (st : Race β) : Prop where
  source : Objects.Source outside a st.objects
  apart : ∀ c ∈ (st.objects.object a).copy, ∀ pager ∈ (st.objects.object c).pager,
    ∀ x, Reaches (st.objects.links shadow) a x → (st.objects.object x).pager ≠ some pager
  known : ∀ c ∈ (st.objects.object a).copy, (st.objects.object c).externalState o = .isAbsent
    → ∀ pager ∈ (st.objects.object c).pager,
      st.pagers pager ((o + (st.objects.object c).pagingOffset) % wordSize) = none
  snapshot : ∀ c ∈ (st.objects.object a).copy, ∀ d, st.made.1.Reads st.made.2 zero (a, o) d
    → (st.objects.object c).contents st.pagers o = some d
      ∨ (st.objects.object c).contents st.pagers o = none ∧ st.objects.Reads st.pagers zero (a, o) d

def Armed (st : Race β) : Prop :=
  st.mapping = some true ∨ st.pc = .enter true ∨ st.pc = .verify (st.objects.object a).copy true

structure Guarded (outside : Nat → Nat) (st : Race β) : Prop extends Consistent a o zero outside st where
  pushed : st.Armed a → ∀ c ∈ (st.objects.object a).copy, (st.objects.object c).contents st.pagers o ≠ none
  verifying : ∀ c protWrite, st.pc = .verify (some c) protWrite → c ∈ st.objects.live
  pagingOut : ∀ c, st.pc = .pageout c
    → c ∈ st.objects.live ∧ (st.objects.object c).contents st.pagers o ≠ none
  notFound : st.pc = .below → st.objects.ownContents st.pagers (a, o) = none

variable {a o zero} {outside : Nat → Nat} {st st' : Race β} {c : Nat} {d : β} {env : FaultEnv}
  {lockTry : Bool}

theorem Guarded.safe (hg : Guarded a o zero outside st) : st.Safe a o zero := by
  intro hmapping c hc d hd
  obtain hcontents | ⟨hnone, -⟩ := hg.snapshot c hc d hd
  . exact hcontents
  . exact absurd hnone (hg.pushed (.inl hmapping) c hc)

-- the copy is above the object
theorem Consistent.not_reaches (hg : Consistent a o zero outside st)
    (hc : (st.objects.object a).copy = some c) : ¬ Reaches (st.objects.links shadow) a c := by
  obtain ⟨hlive, hshadow, -⟩ := hg.source.copies hc
  have hlink : st.objects.links shadow c = some a := by rw [Heap.links_of_mem hlive, hshadow]
  exact hg.source.wellFormed.acyclic.not_reaches hlink

namespace Guarded

theorem still (hg : Guarded a o zero outside st) {objects : Objects β}
    (hs : Objects.Still st.pagers zero st.objects objects)
    (hother : ∀ x, ¬ Reaches (st.objects.links shadow) a x → objects.object x = st.objects.object x)
    {pc : FaultPc} (hpc : pc = .start ∨ pc = .below ∧ objects.ownContents st.pagers (a, o) = none)
    : Guarded a o zero outside { st with objects, pc } := by
  have hcopy : (objects.object a).copy = (st.objects.object a).copy := hs.part VmObject.copy (fun _ _ _ _ => rfl) a
  have hobject : ∀ c ∈ (objects.object a).copy, objects.object c = st.objects.object c := by
    intro c hc
    rw [hcopy] at hc
    exact hother c (hg.not_reaches hc)
  have hlinks := hs.sameLinks.links
  refine ⟨⟨hs.source hg.source, ?_, ?_, ?_⟩, ?_, ?_, ?_, ?_⟩
  . intro c hc pager hpager x hr
    rw [hobject c hc] at hpager
    rw [hlinks] at hr
    rw [hs.part VmObject.pager fun _ _ _ _ => rfl]
    exact hg.apart c (hcopy ▸ hc) pager hpager x hr
  . intro c hc
    rw [hobject c hc]
    exact hg.known c (hcopy ▸ hc)
  . intro c hc d hd
    rw [hobject c hc, ← hs.reads]
    exact hg.snapshot c (hcopy ▸ hc) d hd
  . intro harmed c hc
    rw [hobject c hc]
    apply hg.pushed _ c (hcopy ▸ hc)
    obtain hmapping | hpc' | hpc' := harmed
    . exact .inl hmapping
    . obtain rfl | ⟨rfl, -⟩ := hpc <;> contradiction
    . obtain rfl | ⟨rfl, -⟩ := hpc <;> contradiction
  . intro c protWrite hpc'
    obtain rfl | ⟨rfl, -⟩ := hpc <;> contradiction
  . intro c hpc'
    obtain rfl | ⟨rfl, -⟩ := hpc <;> contradiction
  . intro hpc'
    obtain rfl | ⟨-, hown⟩ := hpc
    . contradiction
    . exact hown

theorem kept (hg : Guarded a o zero outside { st with pc := .start }) {objects : Objects β}
    (hkept : Objects.Kept outside a st.objects objects)
    (hpage : (st.objects.object a).memq.lookup o = some (.resident d))
    : Guarded a o zero outside { st with objects, pc := .start } := by
  have hsrc := hg.source
  have hobject : ∀ c ∈ (objects.object a).copy, (st.objects.object a).copy = some c
      ∧ objects.object c = { st.objects.object c with
          refCount := (objects.object c).refCount, copy := (objects.object c).copy } := by
    intro c hc
    have hlive := (hkept.wellFormed.copies a hkept.frame.mem c hc).1
    rw [hkept.copy] at hc
    exact ⟨hc, hkept.frame.same c hlive (hsrc.ne_of_copy hc)⟩
  refine ⟨⟨hsrc.of_kept hkept, ?_, ?_, ?_⟩, ?_, nofun, nofun, nofun⟩
  . intro c hc pager hpager x hr
    obtain ⟨hc, hsame⟩ := hobject c hc
    rw [hsame] at hpager
    by_cases hxa : x = a
    . subst hxa
      obtain ⟨y, hry, hpager'⟩ := hkept.pager
      rw [hpager']
      exact hg.apart c hc pager hpager y hry
    . have hx := hkept.wellFormed.mem_of_reaches hkept.frame.mem hr
      rw [hkept.frame.same x hx hxa]
      exact hg.apart c hc pager hpager x (hkept.reaches x hr)
  . intro c hc
    obtain ⟨hc, hsame⟩ := hobject c hc
    rw [hsame]
    exact hg.known c hc
  . intro c hc e he
    obtain ⟨hc, hsame⟩ := hobject c hc
    have hhere : objects.Reads st.pagers zero (a, o) d := by
      apply Finds.here
      rw [ownContents, if_pos hkept.frame.mem, VmObject.contents_of_resident (hkept.pages o _ hpage)]
    have hhere' : st.objects.Reads st.pagers zero (a, o) d := by
      apply Finds.here
      rw [ownContents, if_pos hsrc.mem, VmObject.contents_of_resident hpage]
    obtain hcontents | ⟨hnone, hreads⟩ := hg.snapshot c hc e he
    . left
      rw [hsame]
      exact hcontents
    . right
      rw [hsame, ← hhere'.unique hreads]
      exact ⟨hnone, hhere⟩
  . intro harmed c hc
    obtain ⟨hc, hsame⟩ := hobject c hc
    rw [hsame]
    apply hg.pushed _ c hc
    obtain hmapping | hpc | hpc := harmed
    . exact .inl hmapping
    . contradiction
    . contradiction

theorem goTo (hg : Guarded a o zero outside st) (pc : FaultPc)
    (harmed : pc = .enter true ∨ pc = .verify (st.objects.object a).copy true
      → ∀ c ∈ (st.objects.object a).copy, (st.objects.object c).contents st.pagers o ≠ none)
    (hverify : ∀ c protWrite, pc = .verify (some c) protWrite → c ∈ st.objects.live)
    (hpageout : ∀ c, pc ≠ .pageout c) (hbelow : pc ≠ .below) : Guarded a o zero outside { st with pc } := by
  refine ⟨{ hg with }, ?_, hverify, fun c hpc => absurd hpc (hpageout c), fun hpc => absurd hpc hbelow⟩
  rintro (hmapping | hpc)
  . exact hg.pushed (.inl hmapping)
  . exact harmed hpc

-- where the thread has not found the page it cannot be written unless it could before
theorem goTo_unarmed (hg : Guarded a o zero outside st) {pc : FaultPc}
    (hpc : pc = .start ∨ pc = .push ∨ pc = .enter false ∨ pc = .done) : Guarded a o zero outside { st with pc } := by
  apply hg.goTo
  . rintro (rfl | rfl) <;> simp at hpc
  . rintro c protWrite rfl
    simp at hpc
  . rintro c rfl
    simp at hpc
  . rintro rfl
    simp at hpc

end Guarded

theorem externalState_setThere (copy : VmObject β)
    : (copy.setThere ((o + copy.pagingOffset) % wordSize)).externalState o ≠ .isAbsent := by
  rw [VmObject.externalState, VmObject.setThere]
  cases copy.existenceInfo with
  | none => simp
  | some e => simp

theorem repaged_setThere {h : Objects β} (hcreated : (h.object c).pagerCreated = true)
    : Objects.Repaged h (h.set c ((h.object c).setThere offset)) where
  live := rfl
  same := by
    intro x
    by_cases hx : x = c
    . rw [hx, object_set_self]
      rfl
    . rw [object_set_of_ne hx]
  existenceInfo := by
    intro x hpager
    have hx : x ≠ c := by
      rintro rfl
      rw [hcreated] at hpager
      contradiction
    rw [object_set_of_ne hx]
  absent := by
    intro x o _ habsent
    by_cases hx : x = c
    . rw [hx, object_set_self] at habsent
      rw [hx]
      exact habsent
    . rwa [object_set_of_ne hx] at habsent

theorem contents_setThere {copy : VmObject β} (pagers : Pagers β) (d : β)
    (hpage : copy.memq.lookup o = none) (hcreated : copy.pagerCreated = true) (hpager : copy.pager = some pager)
    : (copy.setThere ((o + copy.pagingOffset) % wordSize)).contents
        (pagers.write pager ((o + copy.pagingOffset) % wordSize) d) o
        = (pagers pager ((o + copy.pagingOffset) % wordSize)).or (some d) := by
  have hlook : (copy.setThere ((o + copy.pagingOffset) % wordSize)).lookForPage o = true :=
    decide_eq_true ⟨hcreated, externalState_setThere copy⟩
  have hpage' : (copy.setThere ((o + copy.pagingOffset) % wordSize)).memq.lookup o = none := hpage
  have hpager' : (copy.setThere ((o + copy.pagingOffset) % wordSize)).pager = some pager := hpager
  rw [VmObject.contents_of_not_resident (by simp [hpage']), VmObject.pagerContents, if_pos hlook, hpager']
  simp [VmObject.setThere, Pagers.write]

-- without a page in memory the contents are what the pager has
theorem contents_of_known {copy : VmObject β} {pagers : Pagers β}
    (hpage : copy.memq.lookup o = none) (hcreated : copy.pagerCreated = true) (hpager : copy.pager = some pager)
    (hknown : copy.externalState o = .isAbsent → pagers pager ((o + copy.pagingOffset) % wordSize) = none)
    : copy.contents pagers o = pagers pager ((o + copy.pagingOffset) % wordSize) := by
  rw [VmObject.contents_of_not_resident (by simp [hpage]), VmObject.pagerContents]
  split
  . rw [hpager]
    rfl
  . next hlook =>
    rw [hknown]
    simpa [VmObject.lookForPage, hcreated] using hlook

-- the copy object has got the contents of the object, unless it had some already
theorem Consistent.push (hg : Consistent a o zero outside st) (hcopy : (st.objects.object a).copy = some c)
    (hhere : st.objects.Reads st.pagers zero (a, o) d) {objects : Objects β} (hrepaged : Repaged st.objects objects)
    {pagers : Pagers β} (hknown : (objects.object c).externalState o = .isAbsent → ∀ pager ∈ (objects.object c).pager,
      pagers pager ((o + (objects.object c).pagingOffset) % wordSize) = none)
    (hcontents : (objects.object c).contents pagers o = ((st.objects.object c).contents st.pagers o).or (some d))
    (pc : FaultPc) : (∀ c' ∈ (objects.object a).copy, c' = c) ∧ (objects.object c).contents pagers o ≠ none ∧
      Consistent a o zero outside { st with objects, pagers, mapping := none, pc } := by
  have hpager := hrepaged.part VmObject.pager fun _ _ _ _ => rfl
  have hcopy' : ∀ c' ∈ (objects.object a).copy, c' = c := by
    intro c' hc'
    rw [hrepaged.part VmObject.copy fun _ _ _ _ => rfl, hcopy] at hc'
    exact (Option.some.inj hc').symm
  refine ⟨hcopy', ?_, hrepaged.source hg.source, ?_, ?_, ?_⟩
  . rw [hcontents]
    simp
  . intro c' hc' pager hc x hr
    obtain rfl := hcopy' c' hc'
    rw [hpager] at hc ⊢
    rw [hrepaged.sameLinks.links] at hr
    exact hg.apart c' hcopy pager hc x hr
  . intro c' hc'
    obtain rfl := hcopy' c' hc'
    exact hknown
  . intro c' hc' e he
    obtain rfl := hcopy' c' hc'
    left
    rw [hcontents]
    obtain hsome | ⟨hnone, hreads⟩ := hg.snapshot c' hcopy e he
    . rw [hsome]
      rfl
    . rw [hnone, hhere.unique hreads]
      rfl

namespace Guarded

theorem pushed_page (hg : Guarded a o zero outside { st with pc := .start })
    (hcopy : (st.objects.object a).copy = some c) (hhere : st.objects.Reads st.pagers zero (a, o) d)
    (hlookup : (st.objects.object c).memq.lookup o = none)
    (hcreated : ¬ (st.objects.object c).pagerCreated = true)
    : Guarded a o zero outside
        { st with objects := st.objects.setPage c o d, mapping := none, pc := .verify (some c) true } := by
  have hcontents : ((st.objects.setPage c o d).object c).contents st.pagers o
      = ((st.objects.object c).contents st.pagers o).or (some d) := by
    rw [VmObject.contents_of_resident Objects.lookup_setPage_self,
      VmObject.contents_of_not_resident (by simp [hlookup]),
      VmObject.pagerContents_of_not_pagerCreated (by simpa using hcreated)]
    rfl
  obtain ⟨hcopy', hne, hcons⟩ := hg.toConsistent.push hcopy hhere .setPage (by
    rw [Objects.setPage_part (VmObject.externalState · o) rfl, Objects.setPage_part VmObject.pager rfl,
      Objects.setPage_part VmObject.pagingOffset rfl]
    exact hg.known c hcopy) hcontents (.verify (some c) true)
  refine ⟨hcons, ?_, ?_, nofun, nofun⟩
  . intro _ c' hc'
    obtain rfl := hcopy' c' hc'
    exact hne
  . intro c' _ hpc
    injection hpc with hpc
    cases hpc
    exact (hg.source.copies hcopy).1

-- the page has been written to the pager of the copy object
theorem pushed_pager (hg : Guarded a o zero outside { st with pc := .start }) {pager : Nat}
    (hcopy : (st.objects.object a).copy = some c) (hhere : st.objects.Reads st.pagers zero (a, o) d)
    (hlookup : (st.objects.object c).memq.lookup o = none)
    (hcreated : (st.objects.object c).pagerCreated = true)
    (hpager : (st.objects.object c).pager = some pager)
    : Guarded a o zero outside {
        st with
        objects := st.objects.set c
          ((st.objects.object c).setThere ((o + (st.objects.object c).pagingOffset) % wordSize))
        pagers := st.pagers.write pager ((o + (st.objects.object c).pagingOffset) % wordSize) d
        mapping := none
        pc := .pageout c } := by
  have hcontents := contents_of_known hlookup hcreated hpager fun hstate => hg.known c hcopy hstate pager hpager
  obtain ⟨hcopy', hne, hcons⟩ := hg.toConsistent.push hcopy hhere (repaged_setThere hcreated) (by
    intro hstate
    rw [Heap.object_set_self] at hstate
    exact absurd hstate (externalState_setThere _)) (by
    rw [Heap.object_set_self, contents_setThere st.pagers d hlookup hcreated hpager]
    exact congrArg (Option.or · (some d)) hcontents.symm) (.pageout c)
  refine ⟨hcons, ?_, nofun, ?_, nofun⟩
  . intro harmed
    obtain hmapping | hpc | hpc := harmed <;> contradiction
  . intro c' hpc
    cases hpc
    exact ⟨(hg.source.copies hcopy).1, hne⟩

theorem pushPage (hg : Guarded a o zero outside { st with pc := .start }) (ho : o < wordSize)
    (hpushable : Pushable a o st.objects)
    (hpage : (st.objects.object a).memq.lookup o = some (.resident d))
    (hstep : Race.pushPage a o env lockTry st d = .ok st') : Guarded a o zero outside st' := by
  have hsrc := hg.source
  have hhere : st.objects.Reads st.pagers zero (a, o) d := by
    apply Finds.here
    rw [ownContents, if_pos hsrc.mem, VmObject.contents_of_resident hpage]
  rw [Race.pushPage, get_bind hsrc.mem] at hstep
  cases hcopy : (st.objects.object a).copy with
  | none =>
    rw [hcopy] at hstep
    cases hstep
    apply hg.goTo (.verify none true)
    . intro _ c hc
      rw [hcopy] at hc
      contradiction
    . simp
    . simp
    . simp
  | some c =>
    obtain ⟨hlive, -, -⟩ := hsrc.copies hcopy
    have hoffset := hsrc.aligned a hsrc.mem c hcopy
    have hmod : (o + wordSize - (st.objects.object c).shadowOffset) % wordSize = o := by
      rw [hoffset, Nat.sub_zero, Nat.add_mod_right, Nat.mod_eq_of_lt ho]
    rw [hcopy] at hstep
    dsimp only at hstep
    split at hstep
    . cases hstep
      exact hg.goTo_unarmed (.inr (.inl rfl))
    rw [get_bind hlive, hmod, hsrc.pushPage_eq env st.pagers ho hcopy] at hstep
    cases hlookup : (st.objects.object c).memq.lookup o with
    | some page =>
      rw [hlookup] at hstep
      cases page with
      | absent busy =>
        cases busy with
        | false => cases hpushable c hcopy _ hlookup
        | true =>
          cases hstep
          exact hg.goTo_unarmed (.inl rfl)
      | resident e =>
        cases hstep
        apply hg.goTo (.verify (some c) true)
        . intro _ c' hc'
          rw [hcopy] at hc'
          obtain rfl := Option.some.inj hc'
          rw [VmObject.contents_of_resident hlookup]
          exact Option.some_ne_none _
        . intro c' _ hpc
          injection hpc with hpc
          cases hpc
          exact hlive
        . simp
        . simp
    | none =>
      rw [hlookup] at hstep
      by_cases hgrab : env.copyGrab = true
      . rw [if_neg (not_not_intro hgrab)] at hstep
        by_cases hcreated : (st.objects.object c).pagerCreated = true
        . rw [if_neg (not_not_intro hcreated)] at hstep
          cases hpager : (st.objects.object c).pager with
          | none =>
            rw [hpager] at hstep
            contradiction
          | some pager =>
            rw [hpager] at hstep
            rw [if_pos hcreated] at hstep
            cases hstep
            exact hg.pushed_pager hcopy hhere hlookup hcreated hpager
        . rw [if_pos hcreated] at hstep
          rw [if_neg hcreated] at hstep
          cases hstep
          exact hg.pushed_page hcopy hhere hlookup hcreated
      . rw [if_pos hgrab] at hstep
        cases hstep
        exact hg.goTo_unarmed (.inl rfl)

theorem copy (hg : Guarded a o zero outside st) (hfits : st.objects.Fits) (hpc : st.pc ≠ .enter true)
    (hstep : step a o zero st .copy = .ok st') : ∃ outside', Guarded a o zero outside' st' := by
  obtain ⟨c, objects, heq, hcopied⟩ := hg.source.copyDelayed_spec hfits
  rw [step, get_bind hg.source.mem, heq] at hstep
  injection hstep with hstep
  have hcopy : ∀ c' ∈ (objects.object a).copy, c' = c := by
    intro c' hc'
    rw [hcopied.copy] at hc'
    exact (Option.some.inj hc').symm
  have hold : ∀ x ∈ st.objects.live, (objects.object x).contents st.pagers o
      = (st.objects.object x).contents st.pagers o := by
    intro x hx
    rw [hcopied.old x hx]
    rfl
  -- the page could not be written if the old copy object is made again
  have hunarmed : (st.objects.object a).copy = some c → ¬ st.Armed a := by
    intro hc harmed
    apply hg.pushed harmed c hc
    rw [← hold c (hg.source.copies hc).1]
    exact hcopied.empty st.pagers o
  refine ⟨addOutside outside (some c), ?_⟩
  rw [← hstep]
  refine ⟨⟨hcopied.source, ?_, ?_, ?_⟩, ?_, ?_, ?_, ?_⟩
  . intro c' hc' pager hpager
    obtain rfl := hcopy c' hc'
    rw [hcopied.pager] at hpager
    contradiction
  . intro c' hc' _ pager hpager
    obtain rfl := hcopy c' hc'
    rw [hcopied.pager] at hpager
    contradiction
  . intro c' hc' d hd
    obtain rfl := hcopy c' hc'
    right
    exact ⟨hcopied.empty st.pagers o, (hcopied.reads st.pagers zero (a, o) d hg.source.mem).1 hd⟩
  . intro harmed
    exfalso
    obtain hmapping | hpc' | hpc' := harmed
    . split at hmapping
      . next hc => exact hunarmed hc (.inl hmapping)
      . rw [Option.map_eq_some_iff] at hmapping
        obtain ⟨_, -, hfalse⟩ := hmapping
        contradiction
    . exact hpc hpc'
    . rw [hcopied.copy] at hpc'
      obtain hc | hfresh := hcopied.first
      . apply hunarmed hc
        rw [← hc] at hpc'
        exact .inr (.inr hpc')
      . exact hfresh (hg.verifying c true hpc')
  . intro c' protWrite hpc'
    exact hcopied.live (hg.verifying c' protWrite hpc')
  . intro c' hpc'
    obtain ⟨hlive, hcontents⟩ := hg.pagingOut c' hpc'
    refine ⟨hcopied.live hlive, ?_⟩
    rw [hold c' hlive]
    exact hcontents
  . intro hpc'
    have hown := hg.notFound hpc'
    rw [ownContents, if_pos hg.source.mem] at hown
    rw [ownContents, if_pos (hcopied.live hg.source.mem), ← hown]
    exact hold a hg.source.mem

theorem look (hg : Guarded a o zero outside st) (ho : o < wordSize) (hord : st.Orderly a o) (hpc : st.pc = .start)
    (hstep : Race.look a o env lockTry st = .ok st') : Guarded a o zero outside st' := by
  have hsrc := hg.source
  rw [Race.look, get_bind hsrc.mem] at hstep
  by_cases hresident : ∃ d, (st.objects.object a).memq.lookup o = some (.resident d)
  . obtain ⟨d, hlookup⟩ := hresident
    rw [hlookup] at hstep
    exact (hg.goTo_unarmed (.inl rfl)).pushPage ho hord.2.2 hlookup hstep
  have hresident := not_exists.1 hresident
  split at hstep
  . next d hlookup => exact absurd hlookup (hresident d)
  have hown : st.objects.ownContents st.pagers (a, o) = (st.objects.object a).pagerContents st.pagers o := by
    rw [ownContents, if_pos hsrc.mem, VmObject.contents_of_not_resident hresident]
  rw [hord.2.1.askPager hsrc.mem] at hstep
  cases hpager : (st.objects.object a).pagerContents st.pagers o with
  | some d =>
    rw [hpager] at hstep
    cases hstep
    apply hg.still (.setPage hsrc.wellFormed hsrc.mem (.here (hown.trans hpager))) _ (.inl hpc)
    intro x hx
    apply object_setPage_of_ne
    rintro rfl
    exact hx .refl
  | none =>
    rw [hpager] at hstep
    obtain ⟨objects, heq, hstill, hlookup, hpager', hother, -⟩ := exists_dropped st.pagers zero hresident
    rw [heq] at hstep
    cases hstep
    apply hg.still hstill
    . intro x hx
      apply hother
      rintro rfl
      exact hx .refl
    . right
      refine ⟨rfl, ?_⟩
      rw [ownContents, hstill.live, if_pos hsrc.mem,
        VmObject.contents_of_not_resident (by simp [hlookup]), hpager', hpager]

-- the page is found in the shadows, or there are zeros
theorem find (hg : Guarded a o zero outside st) (hans : st.objects.Answered st.pagers) (hpc : st.pc = .below)
    : ∃ objects found, findBelow a o st = .ok (objects, found)
        ∧ Objects.Still st.pagers zero st.objects objects
        ∧ (∀ x, ¬ Reaches (st.objects.links shadow) a x → objects.object x = st.objects.object x)
        ∧ match found with
          | none => objects.Reads st.pagers zero (a, o) zero
          | some q => ∃ d, objects.pageAt q = .ok d ∧ objects.Reads st.pagers zero (a, o) d := by
  have hsrc := hg.source
  have hown := hg.notFound hpc
  rw [findBelow]
  cases hnext : st.objects.nextPlace (a, o) with
  | none => exact ⟨st.objects, none, rfl, .refl, fun _ _ => rfl, .nowhere hown hnext⟩
  | some p =>
    have hlink := Objects.links_of_nextPlace hnext
    have hnot := hsrc.wellFormed.acyclic.not_reaches hlink
    have hlive : ∀ x, Reaches (st.objects.links shadow) p.1 x → x ∈ st.objects.live :=
      fun x hr => hsrc.wellFormed.mem_of_reaches hsrc.mem (Reaches.head hlink hr)
    obtain ⟨objects, found, heq, hstill, hother, hfound⟩ := Objects.findPage_spec st.pagers zero
      st.objects.live (Nat.lt_succ_self _) hsrc.wellFormed hans (hlive p.1 .refl) hlive
    have hown' : objects.ownContents st.pagers (a, o) = none := by
      rw [Objects.ownContents, hstill.live, if_pos hsrc.mem, hother a hnot, ← hown, Objects.ownContents,
        if_pos hsrc.mem]
    have hnext' := hstill.nextPlace ▸ hnext
    refine ⟨objects, found, heq, hstill, fun x hx => hother x fun hr => hx (Reaches.head hlink hr), ?_⟩
    cases found with
    | none => exact .there hown' hnext' hfound
    | some q =>
      obtain ⟨hq, -, -, d, hpage, hd⟩ := hfound
      refine ⟨d, ?_, .there hown' hnext' hd⟩
      rw [Objects.pageAt, Heap.get_bind hq, hpage]

section

variable (hg : Guarded a o zero outside st)
include hg

theorem search (ho : o < wordSize) (hord : st.Orderly a o)
    (hpc : st.pc = .below) (hstep : Race.search a o zero env lockTry st = .ok st') : Guarded a o zero outside st' := by
  obtain ⟨hfits, hans, hpushable⟩ := hord
  obtain ⟨objects, found, heq, hstill, hother, hfound⟩ := hg.find hans hpc
  have hsrc := hstill.source hg.source
  -- the object gets the page, which changes nothing for readers
  have hfilled : ∀ d, objects.Reads st.pagers zero (a, o) d
      → Guarded a o zero outside { st with objects := objects.setPage a o d, pc := .start } := by
    intro d hd
    apply hg.still (hstill.trans (.setPage hsrc.wellFormed hsrc.mem hd)) _ (.inl rfl)
    intro x hx
    rw [object_setPage_of_ne, hother x hx]
    rintro rfl
    exact hx .refl
  have hpushable' : ∀ d, Pushable a o (objects.setPage a o d) := by
    intro d c hc
    rw [setPage_part VmObject.copy rfl, hstill.part VmObject.copy fun _ _ _ _ => rfl] at hc
    rw [object_setPage_of_ne (hg.source.ne_of_copy hc), hother c (hg.not_reaches hc)]
    exact hpushable c hc
  rw [Race.search, heq, Stop.ok_bind] at hstep
  dsimp only at hstep
  split at hstep
  . cases hstep
    exact hg.still hstill hother (.inl rfl)
  cases found with
  | none => exact (hfilled zero hfound).pushPage ho (hpushable' zero) lookup_setPage_self hstep
  | some q =>
    obtain ⟨d, hpageAt, hd⟩ := hfound
    have hg' := hfilled d hd
    obtain ⟨objects', heq', hkept⟩ := Objects.Source.collapse_spec hg'.source env.collapse (by
      intro x hx
      have hx : x ∈ objects.live := hx
      rw [hstill.live] at hx
      rw [setPage_part VmObject.refCount rfl, hstill.part VmObject.refCount fun _ _ _ _ => rfl]
      exact (hfits x hx).1)
    dsimp only at hstep
    dsimp only at heq'
    rw [hpageAt, Stop.ok_bind, heq'] at hstep
    have hpage : ((objects.setPage a o d).object a).memq.lookup o = some (.resident d) := lookup_setPage_self
    refine (hg'.kept hkept hpage).pushPage ho ?_ (hkept.pages o _ hpage) hstep
    intro c hc
    have hclive := (hkept.wellFormed.copies a hkept.frame.mem c hc).1
    rw [hkept.copy] at hc
    rw [hkept.frame.same c hclive (hg'.source.ne_of_copy hc)]
    exact hpushable' d c hc

theorem verify {outcome : MapVerify}
    {oldCopy : Option Nat} {protWrite : Bool} (hpc : st.pc = .verify oldCopy protWrite)
    (hstep : Race.verify a outcome wired st oldCopy protWrite = .ok st') : Guarded a o zero outside st' := by
  cases outcome with
  | gone =>
    cases hstep
    exact hg.goTo_unarmed (.inl rfl)
  | changed retryProtWrite =>
    cases hstep
    apply hg.goTo
    . rintro (hpc' | hpc')
      . contradiction
      . injection hpc' with hold hprot
        apply hg.pushed
        right
        right
        rw [hpc, hold, (Bool.and_eq_true_iff.1 hprot).1]
    . intro c _ hpc'
      injection hpc' with hpc'
      exact hg.verifying c protWrite (hpc' ▸ hpc)
    . nofun
    . nofun
  | same =>
    rw [Race.verify, get_bind hg.source.mem] at hstep
    dsimp only at hstep
    split at hstep
    . cases hstep
      exact hg.goTo_unarmed (.inl rfl)
    . cases hstep
      apply hg.goTo
      . rintro (hpc' | hpc')
        . injection hpc' with hprot
          apply hg.pushed
          obtain ⟨hprot, hold⟩ := Bool.and_eq_true_iff.1 hprot
          right
          right
          rw [hpc, of_decide_eq_true hold, hprot]
        . contradiction
      . nofun
      . nofun
      . nofun

theorem write (hpc : st.pc = .done) (hmapping : st.mapping = some true)
    (contents : β) : Guarded a o zero outside { st with objects := st.objects.setPage a o contents } := by
  have hsrc := hg.source
  have hrepaged : Objects.Repaged st.objects (st.objects.setPage a o contents) := .setPage
  have hobject : ∀ c ∈ ((st.objects.setPage a o contents).object a).copy,
      (st.objects.object a).copy = some c ∧ (st.objects.setPage a o contents).object c = st.objects.object c := by
    intro c hc
    rw [setPage_part VmObject.copy rfl] at hc
    exact ⟨hc, object_setPage_of_ne (hsrc.ne_of_copy hc)⟩
  refine ⟨⟨hrepaged.source hsrc, ?_, ?_, ?_⟩, ?_, ?_, ?_, ?_⟩
  . intro c hc pager hpager x hr
    obtain ⟨hc, heq⟩ := hobject c hc
    rw [heq] at hpager
    rw [hrepaged.sameLinks.links] at hr
    rw [hrepaged.part VmObject.pager fun _ _ _ _ => rfl]
    exact hg.apart c hc pager hpager x hr
  . intro c hc
    obtain ⟨hc, heq⟩ := hobject c hc
    rw [heq]
    exact hg.known c hc
  . intro c hc d hd
    obtain ⟨hc, heq⟩ := hobject c hc
    rw [heq]
    obtain hcontents | ⟨hnone, -⟩ := hg.snapshot c hc d hd
    . exact .inl hcontents
    . exact absurd hnone (hg.pushed (.inl hmapping) c hc)
  . intro _ c hc
    obtain ⟨hc, heq⟩ := hobject c hc
    rw [heq]
    exact hg.pushed (.inl hmapping) c hc
  . intro c protWrite hpc'
    exact absurd (hpc.symm.trans hpc') nofun
  . intro c hpc'
    exact absurd (hpc.symm.trans hpc') nofun
  . intro hpc'
    exact absurd (hpc.symm.trans hpc') nofun

theorem step (ho : o < wordSize) (hord : st.Orderly a o)
    {op : RaceOp β} (hop : op.isCopy → st.pc ≠ .enter true) (hstep : Race.step a o zero st op = .ok st')
    : ∃ outside', Guarded a o zero outside' st' := by
  have hidle (hstep : (.ok st : Except Stop (Race β)) = .ok st') : ∃ outside', Guarded a o zero outside' st' := by
    injection hstep with hstep
    exact ⟨outside, hstep ▸ hg⟩
  cases op with
  | copy => exact hg.copy hord.1 (hop rfl) hstep
  | fault =>
    rw [Race.step] at hstep
    split at hstep
    . cases hstep
      exact ⟨outside, hg.goTo_unarmed (.inl rfl)⟩
    . exact hidle hstep
  | look env lockTry =>
    rw [Race.step] at hstep
    split at hstep
    . next hpc => exact ⟨outside, hg.look ho hord hpc hstep⟩
    . exact hidle hstep
  | search env lockTry =>
    rw [Race.step] at hstep
    split at hstep
    . next hpc => exact ⟨outside, hg.search ho hord hpc hstep⟩
    . exact hidle hstep
  | push env lockTry =>
    rw [Race.step] at hstep
    split at hstep
    . rw [pageAt, get_bind hg.source.mem] at hstep
      cases hlookup : (st.objects.object a).memq.lookup o with
      | none =>
        rw [hlookup] at hstep
        contradiction
      | some page =>
        rw [hlookup] at hstep
        cases page with
        | absent busy => contradiction
        | resident d => exact ⟨outside, (hg.goTo_unarmed (.inl rfl)).pushPage ho hord.2.2 hlookup hstep⟩
    . exact hidle hstep
  | pagedOut =>
    rw [Race.step] at hstep
    split at hstep
    . next c hpc =>
      obtain ⟨hlive, hcontents⟩ := hg.pagingOut c hpc
      rw [get_bind hlive, get_bind hg.source.mem] at hstep
      split at hstep
      . cases hstep
        exact ⟨outside, hg.goTo_unarmed (.inr (.inl rfl))⟩
      . next hstays =>
        have hshadow : (st.objects.object c).shadow = some a := not_not.1 fun hne => hstays (.inl hne)
        have hcopy := hg.source.only c hlive hshadow
        cases hstep
        refine ⟨outside, hg.goTo _ ?_ ?_ nofun nofun⟩
        . intro _ c' hc'
          rw [hcopy] at hc'
          obtain rfl := Option.some.inj hc'
          exact hcontents
        . intro c' _ hpc'
          injection hpc' with hpc'
          exact (hg.source.copies hpc').1
    . exact hidle hstep
  | verify outcome wired =>
    rw [Race.step] at hstep
    split at hstep
    . next hpc => exact ⟨outside, hg.verify hpc hstep⟩
    . exact hidle hstep
  | enter =>
    rw [Race.step] at hstep
    split at hstep
    . next protWrite hpc =>
      cases hstep
      refine ⟨outside, { hg with }, ?_, nofun, nofun, nofun⟩
      intro harmed
      apply hg.pushed
      obtain hmapping | hpc' | hpc' := harmed
      . obtain rfl := Option.some.inj hmapping
        exact .inr (.inl hpc)
      . contradiction
      . contradiction
    . exact hidle hstep
  | write contents =>
    rw [Race.step] at hstep
    split at hstep
    . next hwrite =>
      cases hstep
      exact ⟨outside, hg.write hwrite.1 hwrite.2 contents⟩
    . exact hidle hstep

end

end Guarded

theorem Guarded.run (hg : Guarded a o zero outside st) (ho : o < wordSize)
    (hcalm : Calm a o zero st ops) (hrun : Race.run a o zero st ops = .ok st') : st'.Safe a o zero := by
  induction ops generalizing st outside with
  | nil =>
    cases hrun
    exact hg.safe
  | cons op ops ih =>
    obtain ⟨hord, hop, hrest⟩ := hcalm
    rw [Race.run] at hrun
    cases hstep : Race.step a o zero st op with
    | error stop =>
      rw [hstep] at hrun
      contradiction
    | ok st1 =>
      rw [hstep] at hrun
      obtain ⟨outside', hg'⟩ := hg.step ho hord hop hstep
      exact ih hg' (hrest st1 hstep) hrun

instance decidablePushable (a o : Nat) (h : Objects β) : Decidable (Pushable a o h) := by
  unfold Pushable
  infer_instance

instance decidableOrderly (a o : Nat) (st : Race β) : Decidable (st.Orderly a o) := by
  unfold Orderly Objects.Answered
  infer_instance

instance decidableCalm (a o : Nat) (zero : β)
    : (st : Race β) → (ops : List (RaceOp β)) → Decidable (Calm a o zero st ops)
  | _, [] => isTrue trivial
  | st, op :: ops =>
    match hstep : step a o zero st op with
    | .ok st' =>
      have := decidableCalm a o zero st' ops
      decidable_of_iff (st.Orderly a o ∧ (op.isCopy → st.pc ≠ .enter true) ∧ Calm a o zero st' ops)
        (by simp [Calm, hstep])
    | .error _ =>
      decidable_of_iff (st.Orderly a o ∧ (op.isCopy → st.pc ≠ .enter true)) (by simp [Calm, hstep])

def onePage : Race Nat where
  objects := .ofList [Objects.anonymous 4096 1 none 0 [(0, 5)]]
  pagers := fun _ _ => none
  made := (.ofList [Objects.anonymous 4096 1 none 0 [(0, 5)]], fun _ _ => none)
  pc := .done
  mapping := none

theorem onePage_consistent : Consistent 0 0 0 (fun x => if x = 0 then 1 else 0) onePage := by
  refine ⟨⟨?_, ⟨by decide, by decide⟩, ?_, by decide, by decide, ?_, by decide, by decide⟩, nofun, nofun, nofun⟩
  . apply wellFormed_ofList
    . intro x hx
      obtain rfl := List.mem_singleton.1 hx
      exact ⟨_, _, _, _, _, rfl⟩
    . decide
    . decide
  . unfold Objects.Aligned
    decide
  . intro x hx
    by_cases hx0 : x = 0
    . rw [hx0]
      decide
    . rw [if_neg hx0] at hx
      contradiction

def present : FaultEnv := ⟨Objects.always, true, true⟩

def copyFirst : List (RaceOp Nat) := [
  .fault, .look present true, .copy, .verify .same false, .enter,
  .fault, .look present true, .verify .same false, .enter, .write 9]

def copyLast : List (RaceOp Nat) := [.fault, .look present true, .verify .same false, .copy, .enter]

end Race

end Vm
