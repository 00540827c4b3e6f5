import UtahMach.DefaultPager.Map

/-!
This module contains how a page of a paging object gets its block, and calls of `pager_write_offset` that extend one
object at the same time.
-/

namespace DefaultPager

open Parts

variable {β : Type}

def allocBlock (ps : Parts β) (curPartition : Nat) : Except Halt (Parts β × Nat × Option Nat) := do
  let (ps, off) ← pagerAllocPage ps curPartition true
  match off with
  | some off => .ok (ps, curPartition, some off)
  | none =>
    let (ps, newPart) ← choosePartition ps (ptoa 1) curPartition
    if newPart = pIndexInvalid then .ok (ps, curPartition, none)
    else
      let (ps, off) ← pagerAllocPage ps newPart false
      .ok (ps, newPart, off)

def writeBlock (ps : Parts β) (pager : Dpager) (fPage : Nat) : Except Halt (Parts β × Dpager × Block) := do
  let pager ← pager.secondLevel fPage
  let block ← pager.entry fPage
  if block ≠ noBlock then .ok (ps, pager, block)
  else
    let (ps, curPartition, off) ← allocBlock ps pager.curPartition
    let pager := { pager with curPartition := curPartition }
    match off with
    | none => .ok (ps, pager, noBlock)
    | some off =>
      let block := ⟨off % 2 ^ 24, curPartition⟩
      let pager ← pager.setEntry fPage block
      .ok (ps, pager, block)

def fitPartition (ps : Parts β) (pager : Dpager) (fPage : Nat) : Except Halt (Parts β × Dpager × Bool) :=
  if pager.curPartition ≠ pIndexInvalid then .ok (ps, pager, true)
  else do
    let size := if pager.size < fPage then fPage else pager.size
    let (ps, newPart) ← choosePartition ps (ptoa size) pIndexInvalid
    let (ps, newPart) ←
      if newPart = pIndexInvalid then choosePartition ps (ptoa 1) pIndexInvalid else .ok (ps, newPart)
    if newPart = pIndexInvalid then .ok (ps, pager, false)
    else .ok (ps, { pager with curPartition := newPart }, true)

def Parts.Valid (ps : Parts β) (pindex : Nat) : Prop := pindex = pIndexInvalid ∨ pindex < ps.length

def Parts.Full (ps : Parts β) : Prop := ∀ i part, ps.partAt i = some part → part.goingAway = false → part.free = 0

inductive Allocated (ps : Parts β) (cur : Nat) : Parts β → Nat → Option Nat → Prop where
  | full (hfull : ps.Full) : Allocated ps cur ps cur none
  | taken {i off : Nat} {part : Part β} (hi : ps.partAt i = some part) (hstay : part.goingAway = false)
      (hoff : off < part.totalSize) (hclear : Bitmap.test part.bitmap off = false)
      : Allocated ps cur (ps.setPart i (part.take off)) i (some off)

theorem ptoa_eq {n : Nat} (h : n < 2 ^ 20) : ptoa n = n * 4096 := by
  show n * 4096 % 2 ^ 32 = n * 4096
  omega

theorem Part.Exact.ptoa_free {part : Part β} (h : part.Exact) : ptoa part.free = part.free * 4096 := by
  apply ptoa_eq
  exact Nat.lt_of_le_of_lt h.free_le h.bound

variable {ps ps' : Parts β} {cur i : Nat} {part : Part β} {pager pager' : Dpager} {p : Nat}

theorem Parts.Good.allocElsewhere (h : ps.Good)
    (hcur : ∀ part, ps.partAt cur = some part → part.goingAway = false → part.free = 0) (hinvalid : cur ≠ pIndexInvalid)
    : ∃ ps1 newPart, DefaultPager.choosePartition ps (ptoa 1) cur = .ok (ps1, newPart) ∧
        (newPart = pIndexInvalid ∧ ps1 = ps ∧ ps.Full ∨
          newPart ≠ pIndexInvalid ∧ ∃ ps' off, pagerAllocPage ps1 newPart false = .ok (ps', off) ∧
            Allocated ps cur ps' newPart off) := by
  obtain ⟨ps1, newPart, heq, hchosen⟩ := h.choosePartition (ptoa 1) cur
  refine ⟨ps1, newPart, heq, ?_⟩
  cases hchosen with
  | nowhere hnone =>
    refine Or.inl ⟨rfl, rfl, ?_⟩
    intro j part hj hstay
    by_cases hne : j = cur
    . subst hne
      exact hcur part hj hstay
    . have hlt := hnone j part hj ⟨by omega, hstay⟩
      rw [(h.exact j part hj).ptoa_free, ptoa_eq (by decide)] at hlt
      omega
  | @here k part hk hcand hsize =>
    have hindex := h.index k part hk
    have hexact := h.exact k part hk
    have hlen := lt_length_of_part hk
    rw [Nat.zero_add] at hcand ⊢
    have hmod : k % 256 = k := by
      rw [pIndexInvalid] at hindex
      omega
    rw [hmod, decide_eq_true hinvalid]
    refine Or.inr ⟨Nat.ne_of_lt hindex, ?_⟩
    have hlocked : (ps.setPart k { part with locked := true }).partAt k = some { part with locked := true } :=
      part_setPart_self hlen
    have hexact1 : Part.Exact { part with locked := true } :=
      { hexact with }
    have halloc := Parts.Good.pagerAllocPage_eq false hexact1 hlocked (Nat.ne_of_lt hindex) hcand.2 rfl
    obtain ⟨hfree, -⟩ | ⟨-, off, hoff, hclear, hok⟩ := halloc
    . change part.free = 0 at hfree
      rw [hexact.ptoa_free, ptoa_eq (by decide)] at hsize
      omega
    . refine ⟨_, some off, hok, ?_⟩
      rw [setPart_setPart]
      show Allocated ps cur (ps.setPart k (part.take off)) k (some off)
      exact .taken hk hcand.2 hoff hclear

theorem Parts.Good.allocBlock (h : ps.Good) (hvalid : ps.Valid cur) (hcur : cur ≠ pIndexInvalid)
    : ∃ ps' cur' off, DefaultPager.allocBlock ps cur = .ok (ps', cur', off) ∧ Allocated ps cur ps' cur' off := by
  rw [DefaultPager.allocBlock]
  -- the partition of the object has a block, or nothing has changed and another one is looked for
  suffices (∃ ps' off, pagerAllocPage ps cur true = .ok (ps', some off) ∧ Allocated ps cur ps' cur (some off)) ∨
      pagerAllocPage ps cur true = .ok (ps, none) ∧
        ∀ part, ps.partAt cur = some part → part.goingAway = false → part.free = 0 by
    obtain ⟨ps', off, heq, halloc⟩ | ⟨heq, hnone⟩ := this
    . refine ⟨ps', cur, some off, ?_, halloc⟩
      rw [heq]
      rfl
    . obtain ⟨ps1, newPart, hchoose, ⟨hinvalid, rfl, hfull⟩ | ⟨hne, ps', off, hok, halloc⟩⟩ :=
        h.allocElsewhere hnone hcur
      . refine ⟨ps1, cur, none, ?_, .full hfull⟩
        rw [heq]
        show (DefaultPager.choosePartition ps1 (ptoa 1) cur >>= _) = _
        rw [hchoose]
        exact if_pos hinvalid
      . refine ⟨ps', newPart, off, ?_, ?_⟩
        . rw [heq]
          show (DefaultPager.choosePartition ps (ptoa 1) cur >>= _) = _
          rw [hchoose]
          show (if newPart = pIndexInvalid then _ else _) = _
          rw [if_neg hne, hok]
          rfl
        . exact halloc
  have hlt : cur < ps.length := hvalid.resolve_left hcur
  cases hpart : ps.partAt cur with
  | none =>
    refine Or.inr ⟨?_, nofun⟩
    rw [pagerAllocPage, if_neg hcur, partitionOf_eq hlt, hpart]
    rfl
  | some part =>
    cases hstay : part.goingAway with
    | true =>
      refine Or.inr ⟨?_, ?_⟩
      . rw [pagerAllocPage, if_neg hcur, partitionOf_eq hlt, hpart]
        show (if part.goingAway = true then _ else _) = _
        rw [hstay]
        rfl
      . intro part' heq hstay'
        cases heq
        rw [hstay] at hstay'
        contradiction
    | false =>
      have hlocked := h.unlocked cur part hpart
      obtain ⟨hfree, hok⟩ | ⟨-, off, hoff, hclear, hok⟩ := Parts.Good.pagerAllocPage_eq true
        (h.exact cur part hpart) hpart hcur hstay hlocked
      . refine Or.inr ⟨?_, ?_⟩
        . rw [hok, Part.unlock_eq hlocked, setPart_eq hpart]
        . intro part' heq _
          cases heq
          exact hfree
      . exact Or.inl ⟨_, off, hok, .taken hpart hstay hoff hclear⟩

theorem Allocated.good (h : ps.Good) (halloc : Allocated ps cur ps' cur' off)
    (hvalid : ps.Valid cur) (hcur : cur ≠ pIndexInvalid)
    : ps'.Good ∧ ps'.length = ps.length ∧ ps'.Valid cur' ∧ cur' ≠ pIndexInvalid := by
  cases halloc with
  | full _ => exact ⟨h, rfl, hvalid, hcur⟩
  | @taken _ off part hi _ hoff hclear =>
    refine ⟨h.take hi hoff hclear, length_setPart, Or.inr ?_, ?_⟩
    . rw [length_setPart]
      exact lt_length_of_part hi
    . exact Nat.ne_of_lt (h.index cur' part hi)

inductive Wrote (ps : Parts β) (blocks : Nat → Block) (p : Nat) : Parts β → (Nat → Block) → Block → Prop where
  | kept (hfull : blocks p = noBlock → ps.Full) : Wrote ps blocks p ps blocks (blocks p)
  | fresh {i off : Nat} {part : Part β} (hnone : blocks p = noBlock) (hi : ps.partAt i = some part)
      (hstay : part.goingAway = false) (hoff : off < part.totalSize)
      (hclear : Bitmap.test part.bitmap off = false)
      : Wrote ps blocks p (ps.setPart i (part.take off)) (fun q => if p = q then ⟨off, i⟩ else blocks q) ⟨off, i⟩

structure Dpager.Usable (ps : Parts β) (pager : Dpager) : Prop where
  shaped : pager.Shaped
  valid : ps.Valid pager.curPartition

theorem Dpager.Usable.of_length (h : pager.Usable ps) (hlen : ps'.length = ps.length) : pager.Usable ps' := by
  refine ⟨h.shaped, ?_⟩
  rw [Valid, hlen]
  exact h.valid

theorem Dpager.Usable.writeBlock (h : ps.Good) (husable : pager.Usable ps)
    (hcur : pager.curPartition ≠ pIndexInvalid) (hp : p < pager.size)
    : ∃ ps' pager' block, DefaultPager.writeBlock ps pager p = .ok (ps', pager', block) ∧
        Wrote ps pager.blockAt p ps' pager'.blockAt block ∧ ps'.Good ∧ ps'.length = ps.length ∧ pager'.Usable ps' ∧
        pager'.curPartition ≠ pIndexInvalid ∧ pager'.size = pager.size := by
  obtain ⟨pager1, hsecond, hshaped1, hreach, hsize1, hcur1, hblock1⟩ := husable.shaped.secondLevel hp
  have hblocks : pager1.blockAt = pager.blockAt := funext hblock1
  have hentry : pager1.entry p = .ok (pager.blockAt p) := by
    rw [hshaped1.entry (hsize1 ▸ hp), hblock1]
  rw [DefaultPager.writeBlock, hsecond]
  show ∃ ps' pager' block, (pager1.entry p >>= _) = _ ∧ _
  rw [hentry]
  show ∃ ps' pager' block, (if pager.blockAt p ≠ noBlock then _ else _) = _ ∧ _
  by_cases hnone : pager.blockAt p = noBlock
  . rw [if_neg (not_not.2 hnone), hcur1]
    obtain ⟨ps', cur', off, halloc, hallocated⟩ := h.allocBlock husable.valid hcur
    obtain ⟨hgood', hlen', hvalid', hcur'⟩ := hallocated.good h husable.valid hcur
    rw [halloc]
    cases hallocated with
    | full hfull =>
      refine ⟨ps, _, noBlock, rfl, ?_, h, rfl, ⟨?_, hvalid'⟩, hcur', hsize1⟩
      . have hkept : Wrote ps pager.blockAt p ps pager.blockAt (pager.blockAt p) := .kept fun _ => hfull
        rw [hnone] at hkept
        show Wrote ps pager.blockAt p ps pager1.blockAt noBlock
        rw [hblocks]
        exact hkept
      . exact { hshaped1 with }
    | @taken _ off part hi hstay hoff hclear =>
      have hbound := (h.exact cur' part hi).bound
      have hshapedCur : Shaped { pager1 with curPartition := cur' } :=
        { hshaped1 with }
      obtain ⟨pager2, hset, hshaped2, hsize2, hcur2, hblock2⟩ := hshapedCur.setEntry (hsize1 ▸ hp) hreach ⟨off, cur'⟩
      refine ⟨_, pager2, ⟨off, cur'⟩, ?_, ?_, hgood', hlen', ⟨hshaped2, ?_⟩, hcur2 ▸ hcur', hsize2.trans hsize1⟩
      . show (Dpager.setEntry _ p ⟨off % 2 ^ 24, cur'⟩ >>= _) = _
        rw [Nat.mod_eq_of_lt (by omega), hset]
        rfl
      . have heq : pager2.blockAt = fun q => if p = q then ⟨off, cur'⟩ else pager.blockAt q := by
          funext q
          rw [hblock2]
          show (if p = q then _ else pager1.blockAt q) = _
          rw [hblock1]
        rw [heq]
        exact .fresh hnone hi hstay hoff hclear
      . rw [hcur2]
        exact hvalid'
  . rw [if_pos hnone]
    refine ⟨ps, pager1, _, rfl, ?_, h, rfl, ⟨hshaped1, hcur1 ▸ husable.valid⟩, hcur1 ▸ hcur, hsize1⟩
    rw [hblocks]
    exact .kept fun heq => absurd heq hnone

theorem Dpager.Usable.setCur (husable : pager.Usable ps) (hcur : ps.Valid cur)
    : Dpager.Usable ps { pager with curPartition := cur } :=
  ⟨⟨husable.shaped.pos, husable.shaped.fits, husable.shaped.outside⟩, hcur⟩

theorem Parts.Good.chooseAny (h : ps.Good) (size : Nat)
    : ∃ newPart, DefaultPager.choosePartition ps size pIndexInvalid = .ok (ps, newPart) ∧ ps.Valid newPart ∧
        (newPart = pIndexInvalid → ∀ i part, ps.partAt i = some part → part.goingAway = false →
          ptoa part.free < size) := by
  obtain ⟨ps', newPart, heq, hchosen⟩ := h.choosePartition size pIndexInvalid
  cases hchosen with
  | nowhere hnone =>
    refine ⟨pIndexInvalid, heq, Or.inl rfl, ?_⟩
    intro _ i part hi hstay
    apply hnone i part hi
    have hindex := h.index i part hi
    exact ⟨by omega, hstay⟩
  | @here k part hk hcand hsize =>
    have hindex := h.index k part hk
    have hunlocked := h.unlocked k part hk
    rw [pIndexInvalid] at hindex
    rw [Nat.zero_add, Nat.mod_eq_of_lt (by omega), decide_eq_false (not_not.2 rfl), ← hunlocked, setPart_eq hk] at heq
    refine ⟨k, heq, Or.inr (lt_length_of_part hk), ?_⟩
    intro hinvalid
    rw [pIndexInvalid] at hinvalid
    omega

theorem Dpager.Usable.fitPartition (h : ps.Good) (husable : pager.Usable ps) (p : Nat)
    : ∃ cur go, DefaultPager.fitPartition ps pager p = .ok (ps, { pager with curPartition := cur }, go) ∧
        ps.Valid cur ∧ (go = true → cur ≠ pIndexInvalid) ∧
        (go = false → cur = pager.curPartition ∧ pager.curPartition = pIndexInvalid ∧ ps.Full) := by
  rw [DefaultPager.fitPartition]
  by_cases hcur : pager.curPartition = pIndexInvalid
  . rw [if_neg (not_not.2 hcur)]
    dsimp only
    obtain ⟨newPart, heq, hvalid, -⟩ := h.chooseAny (ptoa (if pager.size < p then p else pager.size))
    obtain ⟨newPart', heq', hvalid', hnone'⟩ := h.chooseAny (ptoa 1)
    rw [heq]
    show ∃ cur go, (if newPart = pIndexInvalid then
      (DefaultPager.choosePartition ps (ptoa 1) pIndexInvalid >>= _) else _) = _ ∧ _
    by_cases hnew : newPart = pIndexInvalid
    . rw [if_pos hnew, heq']
      show ∃ cur go, (if newPart' = pIndexInvalid then _ else _) = _ ∧ _
      by_cases hnew' : newPart' = pIndexInvalid
      . rw [if_pos hnew']
        refine ⟨pager.curPartition, false, rfl, husable.valid, nofun, fun _ => ⟨rfl, hcur, ?_⟩⟩
        intro i part hi hstay
        have hlt := hnone' hnew' i part hi hstay
        rw [(h.exact i part hi).ptoa_free, ptoa_eq (by decide)] at hlt
        omega
      . rw [if_neg hnew']
        exact ⟨newPart', true, rfl, hvalid', fun _ => hnew', nofun⟩
    . rw [if_neg hnew]
      show ∃ cur go, (if newPart = pIndexInvalid then _ else _) = _ ∧ _
      rw [if_neg hnew]
      exact ⟨newPart, true, rfl, hvalid, fun _ => hnew, nofun⟩
  . rw [if_pos hcur]
    exact ⟨pager.curPartition, true, rfl, husable.valid, fun _ => hcur, nofun⟩

end DefaultPager
