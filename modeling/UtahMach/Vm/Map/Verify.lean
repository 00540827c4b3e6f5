import UtahMach.Vm.Map.Overwrite

/-!
This module contains when the pages of the destination are found before any of them is overwritten.
-/

open Segments

namespace Vm

open MapEntry

namespace OverwriteEvent

def foundSince : List OverwriteEvent → Nat → Bool
  | [], _ => false
  | .start :: _, _ => false
  | .found lo hi :: log, p => decide (lo ≤ p ∧ p < hi) || foundSince log p
  | .wrote _ _ :: log, p => foundSince log p

def Verified (lo hi : Nat) : List OverwriteEvent → Prop
  | [] => True
  | .wrote _ _ :: log => (∀ p, lo ≤ p → p < hi → foundSince log p) ∧ Verified lo hi log
  | _ :: log => Verified lo hi log

end OverwriteEvent

namespace Overwrite

open OverwriteEvent

variable {β : Type} {s s' s₀ : Overwrite β} {before seen rest copy : List MapEntry} {entry copyEntry : MapEntry}
  {start hi stop version amountDone : Nat}

def dstEnd (s : Overwrite β) : Nat := s.dstAddr + s.copySize

def Calm (s : Overwrite β) : Prop :=
  match s.pc with
  | .pass1 _ seen (entry :: _) => entry.isWritable → entry.inTransition → seen = []
  | .relock start _ _ version copySize =>
    version ≠ s.timestamp → s.dstEnd ≤ start + copySize → (s.map.entryAt (start + copySize)).isSome
  | _ => True

def CalmRun : Overwrite β → List OverwriteOp → Prop
  | _, [] => True
  | s, op :: ops => s.Calm ∧ ∀ s', s.step op = .ok s' → CalmRun s' ops

def Quiet (s : Overwrite β) : OverwriteOp → Prop
  | .run _ | .touch => True
  | .change m => ¬ s.Locked → m.1.entries.map MapEntry.unwired = s.map.entries.map MapEntry.unwired

def QuietRun : Overwrite β → List OverwriteOp → Prop
  | _, [] => True
  | s, op :: ops => s.Quiet op ∧ ∀ s', s.step op = .ok s' → QuietRun s' ops

def AllFound (s : Overwrite β) (hi : Nat) : Prop := ∀ p, s.dstAddr ≤ p → p < hi → foundSince s.log p

structure Scanning (s : Overwrite β) (before seen rest : List MapEntry) (cur : Nat) : Prop where
  wellFormed : s.map.WellFormed
  aligned : s.dstAddr % pageSize = 0
  entries : s.map.entries = before ++ seen ++ rest
  contiguous : Contiguous s.dstAddr seen cur
  start : ∀ e, rest.head? = some e → e.vmeStart = cur
  size : s.dstEnd = cur + s.size
  found : s.AllFound cur

def Inv (s : Overwrite β) : Prop :=
  Verified s.dstAddr s.dstEnd s.log ∧
  match s.pc with
  | .startPass1 => s.map.WellFormed ∧ s.dstAddr % pageSize = 0 ∧ s.size = s.copySize
  | .pass1 before seen rest => ∃ cur, s.Scanning before seen rest cur
  | .pass2 .. | .faultCopy .. | .relock .. => s.AllFound s.dstEnd
  | .done _ => True

structure Keeps (s s' : Overwrite β) : Prop where
  inv : s'.Inv
  dstAddr : s'.dstAddr = s.dstAddr
  copySize : s'.copySize = s.copySize

theorem inv_finish (h : Verified s.dstAddr s.dstEnd s.log) (ret : KernReturn) : s.Keeps (s.finish ret) :=
  ⟨⟨h, trivial⟩, rfl, rfl⟩

theorem startPass1_scanning (hwell : s.map.WellFormed) (haligned : s.dstAddr % pageSize = 0)
    (hsize : s.size = s.copySize)
    : (∃ before rest, s.startPass1.pc = .pass1 before [] rest ∧ s.startPass1.Scanning before [] rest s.dstAddr)
      ∨ s.startPass1.pc = .done .invalidAddress := by
  have hlooked := VmMap.lookupEntry_looked (.of_sorted hwell.sorted) hwell.linked.hint s.dstAddr
  unfold startPass1
  rcases hlookup : s.map.lookupEntry s.dstAddr with ⟨hdr, place⟩
  rw [hlookup] at hlooked
  dsimp only at hlooked ⊢
  split
  . rename_i entry rest hfound hafter
    left
    have hend : s.dstAddr < entry.vmeEnd := hlooked.isAt.after entry (by simp [hafter])
    have hle : entry.vmeStart ≤ s.dstAddr := by
      obtain ⟨e, he, hle⟩ := hlooked.isAt.found.1 hfound
      rw [hafter] at he
      obtain rfl : entry = e := by simpa using he
      exact hle
    have hwell' := hwell.looked hlooked
    rw [hafter] at hwell'
    refine ⟨_, _, rfl, ?_⟩
    constructor
    . exact hwell'.clipStart haligned hend
    . exact haligned
    . simp
    . rfl
    . intro e he
      obtain rfl : _ = e := by simpa using he
      exact (clipStart_spec hdr hle).1
    . change s.dstAddr + s.copySize = s.dstAddr + s.size
      rw [hsize]
    . intro p hp hp'
      change s.dstAddr ≤ p at hp
      omega
  . right
    rfl

theorem inv_startPass1 (h : s.Inv) (hpc : s.pc = .startPass1) : s.Keeps s.startPass1 := by
  obtain ⟨hlog, hinv⟩ := h
  rw [hpc] at hinv
  obtain ⟨hwell, haligned, hsize⟩ := hinv
  obtain ⟨hlog', hdst, hcopy⟩ : Verified s.startPass1.dstAddr s.startPass1.dstEnd s.startPass1.log ∧
      s.startPass1.dstAddr = s.dstAddr ∧ s.startPass1.copySize = s.copySize := by
    unfold startPass1
    dsimp only
    split <;> exact ⟨hlog, rfl, rfl⟩
  refine ⟨⟨hlog', ?_⟩, hdst, hcopy⟩
  rcases startPass1_scanning hwell haligned hsize with ⟨before, rest, hpc', hscanning⟩ | hpc'
  . rw [hpc']
    exact ⟨_, hscanning⟩
  . rw [hpc']
    trivial

theorem wellFormed_needsWakeup (h : VmMap.WellFormed ⟨hdr, before ++ entry :: rest⟩)
    : VmMap.WellFormed ⟨hdr, before ++ { entry with needsWakeup := true } :: rest⟩ :=
  h.congr (by simp [key])

theorem foundSince_entry {cur : Nat} (h : s.AllFound cur) (hstart : entry.vmeStart = cur) {p : Nat}
    (hp : s.dstAddr ≤ p) (hp' : p < entry.vmeEnd) : foundSince (.found entry.vmeStart entry.vmeEnd :: s.log) p := by
  rw [foundSince]
  by_cases hcur : p < cur
  . rw [h p hp hcur, Bool.or_true]
  . rw [decide_eq_true (by omega), Bool.true_or]

theorem Scanning.next {cur : Nat} (h : s.Scanning before seen (entry :: rest) cur) (hwritable : entry.isWritable)
    (hsize : entry.length < s.size) (hnext : rest.head?.any fun next => next.vmeStart = entry.vmeEnd)
    : Scanning { s with
        log := .found entry.vmeStart entry.vmeEnd :: s.log
        size := s.size - entry.length
        pc := .pass1 before (seen ++ [entry]) rest } before (seen ++ [entry]) rest entry.vmeEnd := by
  have hmem : entry ∈ s.map.entries := by simp [h.entries]
  have hlt := h.wellFormed.sorted.lt entry hmem
  have hstart := h.start entry rfl
  constructor
  . exact h.wellFormed
  . exact h.aligned
  . simpa using h.entries
  . exact h.contiguous.append ⟨hstart, hstart ▸ hlt, (h.wellFormed.aligned entry hmem).2, hwritable, rfl⟩
  . intro e he
    simpa [he] using hnext
  . have := h.size
    change s.dstEnd = entry.vmeEnd + (s.size - entry.length)
    unfold length at hsize ⊢
    omega
  . exact fun p hp hp' => foundSince_entry h.found hstart hp hp'

theorem inv_pass1 (h : s.Inv) (hpc : s.pc = .pass1 before seen (entry :: rest)) (hcalm : s.Calm)
    : s.Keeps (s.pass1 before seen entry rest) := by
  obtain ⟨hlog, hinv⟩ := h
  rw [hpc] at hinv
  obtain ⟨cur, hscanning⟩ := hinv
  rw [Calm, hpc] at hcalm
  unfold pass1
  split
  . exact inv_finish hlog _
  . rename_i hwritable
    rw [not_not] at hwritable
    split
    . rename_i htransition
      -- nothing has been seen, so nothing has been taken from the size
      obtain rfl : seen = [] := hcalm hwritable htransition
      obtain rfl : s.dstAddr = cur := hscanning.contiguous
      refine ⟨⟨hlog, ?_, hscanning.aligned, ?_⟩, rfl, rfl⟩
      . have hwell := hscanning.wellFormed
        rw [show s.map = ⟨s.map.hdr, before ++ [] ++ entry :: rest⟩ by rw [← hscanning.entries]] at hwell
        exact wellFormed_needsWakeup hwell
      . have := hscanning.size
        unfold dstEnd at this
        change s.size = s.copySize
        omega
    . dsimp only
      have hstart := hscanning.start entry rfl
      split
      . rename_i hsize
        refine ⟨⟨hlog, ?_⟩, rfl, rfl⟩
        intro p hp hp'
        apply foundSince_entry hscanning.found hstart hp
        have hlt := hscanning.wellFormed.sorted.lt entry (by simp [hscanning.entries])
        have := hscanning.size
        change p < s.dstEnd at hp'
        unfold length at hsize
        omega
      . rename_i hsize
        split
        . rename_i hnext
          exact ⟨⟨hlog, _, hscanning.next hwritable (by omega) hnext⟩, rfl, rfl⟩
        . exact ⟨⟨hlog, trivial⟩, rfl, rfl⟩

section

variable (hlog : Verified s.dstAddr s.dstEnd s.log)
include hlog

theorem inv_pass2 (hfound : s.AllFound s.dstEnd)
    (hstep : s.pass2 start before entry rest copyEntry copy = .ok s') : s.Keeps s' := by
  unfold pass2 at hstep
  split at hstep
  . cases hstep
    exact inv_finish hlog _
  . split at hstep
    . cases hstep
      exact inv_finish hlog _
    . obtain ⟨_, hstep⟩ := Stop.check_bind_ok.1 hstep
      split at hstep
      . cases hstep
        exact ⟨⟨⟨hfound, hlog⟩, hfound⟩, rfl, rfl⟩
      . cases hstep
        exact ⟨⟨hlog, hfound⟩, rfl, rfl⟩

theorem inv_faultCopy {outcome : PageOutcome} (hfound : s.AllFound s.dstEnd)
    (hstep : s.faultCopy start before entry rest copyEntry version amountDone outcome = .ok s') : s.Keeps s' := by
  unfold faultCopy at hstep
  split at hstep
  . cases hstep
  . cases hstep
    exact inv_finish hlog _
  . split at hstep
    . cases hstep
      exact ⟨⟨hlog, hfound⟩, rfl, rfl⟩
    . cases hstep
      refine ⟨⟨⟨hfound, hlog⟩, ?_⟩, rfl, rfl⟩
      split
      . rename_i hpc
        split at hpc <;> cases hpc
      . rename_i hpc
        split at hpc <;> cases hpc
      . exact hfound
      . exact hfound
      . exact hfound
      . trivial

theorem inv_relock {copySize : Nat} (hfound : s.AllFound s.dstEnd)
    : s.Keeps (s.relock start before entry rest copyEntry copy version copySize) := by
  unfold relock
  dsimp only
  split
  . exact ⟨⟨hlog, hfound⟩, rfl, rfl⟩
  . split
    . exact ⟨⟨hlog, hfound⟩, rfl, rfl⟩
    . exact ⟨⟨hlog, trivial⟩, rfl, rfl⟩

end

theorem inv_change (h : s.Inv) {m : VmMap} (hm : s.map.WellFormed → m.WellFormed)
    : s.Keeps (if s.Locked then s else { s with map := m, timestamp := s.timestamp + 1 }) := by
  split
  . exact ⟨h, rfl, rfl⟩
  . rename_i hlocked
    obtain ⟨hlog, hinv⟩ := h
    refine ⟨⟨hlog, ?_⟩, rfl, rfl⟩
    split
    all_goals rename_i hpc; rw [hpc] at hinv
    . exact ⟨hm hinv.1, hinv.2⟩
    . exact absurd trivial (by rwa [Locked, hpc] at hlocked)
    . exact hinv
    . exact hinv
    . exact hinv
    . trivial

theorem step_inv (h : s.Inv) (hcalm : s.Calm) (hstep : s.step op = .ok s') : s.Keeps s' := by
  cases op with
  | change m =>
    cases hstep
    exact inv_change h fun _ => m.2
  | touch =>
    cases hstep
    exact inv_change h id
  | run outcome =>
    change s.advance outcome = .ok s' at hstep
    unfold advance at hstep
    split at hstep
    . rename_i hpc
      cases hstep
      exact inv_startPass1 h hpc
    . rename_i hpc
      cases hstep
      exact inv_pass1 h hpc hcalm
    . cases hstep
    . rename_i hpc
      have hinv := h.2
      rw [hpc] at hinv
      split at hstep
      . cases hstep
        exact inv_finish h.1 _
      . obtain ⟨_, hstep⟩ := Stop.check_bind_ok.1 hstep
        cases hstep
        exact inv_finish h.1 _
      . exact inv_pass2 h.1 hinv hstep
    . rename_i hpc
      have hinv := h.2
      rw [hpc] at hinv
      split at hstep
      . exact inv_faultCopy h.1 hinv hstep
      . cases hstep
    . rename_i hpc
      have hinv := h.2
      rw [hpc] at hinv
      split at hstep
      . cases hstep
        exact inv_relock h.1 hinv
      . cases hstep
    . cases hstep
      exact ⟨h, rfl, rfl⟩

structure IsCopy (copy : List MapEntry) (n : Nat) : Prop where
  lt : ∀ c ∈ copy, c.vmeStart < c.vmeEnd
  aligned : ∀ c ∈ copy, c.length % pageSize = 0
  total : total MapEntry.vmeStart MapEntry.vmeEnd copy = n

theorem IsCopy.cons_iff : IsCopy (copyEntry :: copy) n ↔
    copyEntry.vmeStart < copyEntry.vmeEnd ∧ copyEntry.length % pageSize = 0 ∧ copyEntry.length ≤ n
      ∧ IsCopy copy (n - copyEntry.length) := by
  constructor
  . intro h
    have htotal := h.total
    rw [total_cons] at htotal
    change copyEntry.length + _ = n at htotal
    exact ⟨h.lt _ (by simp), h.aligned _ (by simp), by omega, fun c hc => h.lt c (by simp [hc]),
      fun c hc => h.aligned c (by simp [hc]), by omega⟩
  . rintro ⟨hlt, haligned, hle, h⟩
    refine ⟨List.forall_mem_cons.2 ⟨hlt, h.lt⟩, List.forall_mem_cons.2 ⟨haligned, h.aligned⟩, ?_⟩
    rw [total_cons, h.total]
    change copyEntry.length + _ = n
    omega

theorem IsCopy.clipCopy {k : Nat} (h : IsCopy (copyEntry :: copy) n) (hk : k ≤ copyEntry.length)
    (haligned : k % pageSize = 0) : k ≤ n ∧ IsCopy ((clipCopy copyEntry k).2 ++ copy) (n - k) := by
  obtain ⟨-, haligned', hle, hcopy⟩ := IsCopy.cons_iff.1 h
  refine ⟨by omega, ?_⟩
  unfold Overwrite.clipCopy
  split
  . rename_i hk'
    have hlength : (copyEntry.rear (copyEntry.vmeStart + k)).length = copyEntry.length - k := by
      unfold rear length
      dsimp only
      omega
    refine IsCopy.cons_iff.2 ⟨?_, ?_, ?_, ?_⟩
    . unfold length at hk'
      change copyEntry.vmeStart + k < copyEntry.vmeEnd
      omega
    . rw [hlength, Nat.sub_mod_eq_zero_of_mod_eq]
      rw [haligned, haligned']
    . rw [hlength]
      omega
    . rw [hlength, show n - k - (copyEntry.length - k) = n - copyEntry.length by omega]
      exact hcopy
  . obtain rfl : k = copyEntry.length := by omega
    exact hcopy

theorem IsCopy.clipped {k : Nat} (h : IsCopy (copyEntry :: copy) n) (hk : k ≤ copyEntry.length) (hpos : 0 < k)
    (haligned : k % pageSize = 0)
    : IsCopy ((Overwrite.clipCopy copyEntry k).1 :: ((Overwrite.clipCopy copyEntry k).2 ++ copy)) n := by
  obtain ⟨hle, hrear⟩ := h.clipCopy hk haligned
  have hlength : (Overwrite.clipCopy copyEntry k).1.length = k := by
    unfold Overwrite.clipCopy
    split
    . unfold front length
      dsimp only
      omega
    . dsimp only
      omega
  refine IsCopy.cons_iff.2 ⟨?_, ?_, ?_, ?_⟩
  . unfold length at hlength
    omega
  . rwa [hlength]
  . rwa [hlength]
  . rwa [hlength]

theorem clipEntry_spec (hdr : MapHeader) (copyEntry : MapEntry) (hlt : entry.vmeStart < entry.vmeEnd)
    (haligned : entry.vmeEnd % pageSize = 0) (hwritable : entry.isWritable) (hcovers : Covers stop entry.vmeEnd rest)
    : (clipEntry hdr entry copyEntry).2.1.vmeStart = entry.vmeStart
      ∧ (clipEntry hdr entry copyEntry).2.1.length = min copyEntry.length entry.length
      ∧ (clipEntry hdr entry copyEntry).2.1.isWritable
      ∧ Covers stop (clipEntry hdr entry copyEntry).2.1.vmeEnd ((clipEntry hdr entry copyEntry).2.2 ++ rest) := by
  unfold clipEntry
  split
  . rename_i hlength
    unfold MapHeader.clipEnd
    unfold length at hlength
    rw [if_pos (by unfold length; omega)]
    refine ⟨rfl, ?_, hwritable, Covers.cons rfl ?_ haligned hwritable hcovers⟩
    . unfold length front
      dsimp only
      omega
    . unfold length front rear
      dsimp only
      omega
  . exact ⟨rfl, by dsimp only; omega, hwritable, hcovers⟩

theorem Laid.clipEntry {hdr : MapHeader} (h : Laid ⟨hdr, before ++ entry :: rest⟩ entry.vmeStart)
    (hstart : entry.vmeStart % pageSize = 0) (hpos : 0 < copyEntry.length) (hlength : copyEntry.length % pageSize = 0)
    : Laid ⟨(clipEntry hdr entry copyEntry).1,
        before ++ (clipEntry hdr entry copyEntry).2.1 :: ((clipEntry hdr entry copyEntry).2.2 ++ rest)⟩
        entry.vmeStart := by
  unfold Overwrite.clipEntry
  split
  . apply h.clipEnd
    . rw [Nat.add_mod, hstart, hlength]
      rfl
    . omega
    . omega
  . exact h

theorem Laid.replaced {hdr : MapHeader} (h : Laid ⟨hdr, before ++ entry :: rest⟩ start) (copyEntry : MapEntry)
    : Laid ⟨hdr, before ++ replaced entry copyEntry :: rest⟩ start := by
  have hmem : entry ∈ before ++ entry :: rest := by simp
  have hnew := h.exchange hdr (l := [Overwrite.replaced entry copyEntry]) rfl
    ⟨by simpa [Overwrite.replaced] using h.ordered.le entry hmem, List.pairwise_singleton _ _⟩
    (by simp [Overwrite.replaced]) (by simpa [Overwrite.replaced] using h.aligned entry hmem)
    (by simpa [Overwrite.replaced] using h.lt entry hmem) ⟨_, List.mem_singleton_self _, rfl⟩
  simpa using hnew

structure Writing (s : Overwrite β) (start : Nat) (before rest : List MapEntry) : Prop where
  laid : Laid s.map start
  entries : s.map.entries = before ++ rest
  aligned : start % pageSize = 0
  covers : Covers s.dstEnd start rest
  copy : ∃ n, s.dstEnd = start + n ∧ IsCopy s.copy n

structure Copying (s : Overwrite β) (start : Nat) (before rest : List MapEntry) (version amountDone : Nat) : Prop where
  laid : Laid s.map start
  same : version = s.timestamp → s.map.entries = before ++ rest
  version : version ≤ s.timestamp
  entries : s.map.entries.map unwired = (before ++ rest).map unwired
  aligned : start % pageSize = 0
  covers : Covers s.dstEnd start rest
  copy : ∃ n, s.dstEnd = start + n ∧ IsCopy s.copy n
  amountAligned : amountDone % pageSize = 0
  amount : ∀ e c, rest.head? = some e → s.copy.head? = some c → c.length = e.length ∧ amountDone ≤ e.length

def Steady (s₀ s : Overwrite β) : Prop :=
  match s.pc with
  | .startPass1 | .pass1 .. => (∀ p, s.read p = s₀.read p) ∧ IsCopy s.copy s.copySize
  | .pass2 start before rest => s.Writing start before rest
  | .faultCopy start before rest version amountDone =>
    s.Copying start before rest version amountDone ∧ ∀ e, rest.head? = some e → amountDone < e.length
  | .relock start before rest version copySize => s.Copying start before rest version copySize
  | .done ret => ret = .invalidAddress ∨ ret = .protectionFailure → ∀ p, s.read p = s₀.read p

theorem contents_eq_elim (s : Overwrite β) (e : MapEntry) (p : Nat)
    : s.contents e p = (e.source p).elim s.zero fun place => s.mem place.1 place.2 := by
  unfold contents
  cases e.source p with
  | none => rfl
  | some place => rfl

theorem read_congr (hmem : s'.mem = s.mem) (hzero : s'.zero = s.zero)
    (hpages : ∀ p, (pages s'.map.entries p).map (·.source p) = (pages s.map.entries p).map (·.source p)) (p : Nat)
    : s'.read p = s.read p := by
  have h := hpages p
  unfold pages at h
  simp only [Option.map_map, Function.comp_def, source_page] at h
  have h' := congrArg (Option.map (Option.elim · s.zero fun place => s.mem place.1 place.2)) h
  simp only [Option.map_map, Function.comp_def] at h'
  unfold read
  simp only [contents_eq_elim, hmem, hzero]
  exact h'

theorem read_of_pages (hmem : s'.mem = s.mem) (hzero : s'.zero = s.zero)
    (hpages : ∀ p, pages s'.map.entries p = pages s.map.entries p) (p : Nat) : s'.read p = s.read p :=
  read_congr hmem hzero (fun p => by rw [hpages p]) p

theorem startPass1_read (hwell : s.map.WellFormed) (p : Nat) : s.startPass1.read p = s.read p := by
  have hlooked := VmMap.lookupEntry_looked (.of_sorted hwell.sorted) hwell.linked.hint s.dstAddr
  unfold startPass1
  rcases hlookup : s.map.lookupEntry s.dstAddr with ⟨hdr, place⟩
  rw [hlookup] at hlooked
  dsimp only at hlooked ⊢
  split
  . rename_i entry rest hfound hafter
    have hend : s.dstAddr < entry.vmeEnd := hlooked.isAt.after entry (by simp [hafter])
    apply read_of_pages
    . rfl
    . rfl
    . intro q
      rw [pages_clipStart hend.le, ← hafter, hlooked.isAt.append]
  . exact read_of_pages rfl rfl (fun _ => rfl) p

theorem steady_startPass1 (h : s.Inv) (hsteady : Steady s₀ s) (hpc : s.pc = .startPass1) : Steady s₀ s.startPass1 := by
  have hinv := h.2
  rw [hpc] at hinv
  obtain ⟨hwell, haligned, hsize⟩ := hinv
  rw [Steady, hpc] at hsteady
  obtain ⟨hread, hcopy⟩ := hsteady
  have hread' : ∀ p, s.startPass1.read p = s₀.read p := fun p => (startPass1_read hwell p).trans (hread p)
  have hcopy' : IsCopy s.startPass1.copy s.startPass1.copySize := by
    unfold startPass1
    dsimp only
    split <;> exact hcopy
  unfold Steady
  rcases startPass1_scanning hwell haligned hsize with ⟨before, rest, hpc', _⟩ | hpc'
  . rw [hpc']
    exact ⟨hread', hcopy'⟩
  . rw [hpc']
    exact fun _ => hread'

theorem steady_pass1 (h : s.Inv) (hsteady : Steady s₀ s) (hpc : s.pc = .pass1 before seen (entry :: rest))
    : Steady s₀ (s.pass1 before seen entry rest) := by
  have hinv := h.2
  rw [hpc] at hinv
  obtain ⟨cur, hscanning⟩ := hinv
  rw [Steady, hpc] at hsteady
  obtain ⟨hread, hcopy⟩ := hsteady
  unfold pass1
  split
  . exact fun _ => hread
  . rename_i hwritable
    rw [not_not] at hwritable
    split
    . refine ⟨?_, hcopy⟩
      intro p
      rw [← hread p]
      apply read_congr
      . rfl
      . rfl
      . intro q
        rw [hscanning.entries]
        apply map_pages_congr
        . rfl
        . rfl
        . rfl
    . dsimp only
      have hstart := hscanning.start entry rfl
      have hmem : entry ∈ s.map.entries := by simp [hscanning.entries]
      have hlt := hscanning.wellFormed.sorted.lt entry hmem
      have haligned := (hscanning.wellFormed.aligned entry hmem).2
      split
      . rename_i hsize
        refine ⟨.of_wellFormed hscanning.wellFormed _, ?_, hscanning.aligned, ?_, s.copySize, rfl, hcopy⟩
        . simpa using hscanning.entries
        refine ⟨seen ++ [entry], rest, entry.vmeEnd, by simp,
          hscanning.contiguous.append ⟨hstart, hstart ▸ hlt, haligned, hwritable, rfl⟩, ?_⟩
        have := hscanning.size
        change s.dstEnd ≤ _
        unfold length at hsize
        omega
      . split
        . exact ⟨hread, hcopy⟩
        . exact fun _ => hread

theorem steady_pass2 (hsteady : Steady s₀ s) (hpc : s.pc = .pass2 start before (entry :: rest))
    (hcopy : s.copy = copyEntry :: copy) (hstep : s.pass2 start before entry rest copyEntry copy = .ok s')
    : Steady s₀ s' := by
  rw [Steady, hpc] at hsteady
  obtain ⟨hlaid, hentries, haligned, hcovers, n, hend, hiscopy⟩ := hsteady
  rw [hcopy] at hiscopy
  obtain ⟨hclt, hcaligned, hcle, _⟩ := IsCopy.cons_iff.1 hiscopy
  have hlength : 0 < copyEntry.length := by
    unfold length
    omega
  obtain ⟨hstart, hlt, healigned, hwritable, hcovers'⟩ := hcovers.of_cons (by omega)
  unfold pass2 at hstep
  rw [if_neg (not_not.2 hstart), if_neg (not_not.2 hwritable)] at hstep
  obtain ⟨hstart', hlength', hwritable', hcovers''⟩ := clipEntry_spec s.map.hdr copyEntry
    (by omega) healigned hwritable hcovers'
  rw [show s.map = ⟨s.map.hdr, before ++ entry :: rest⟩ by rw [← hentries], ← hstart] at hlaid
  replace hlaid := Laid.clipEntry hlaid (hstart ▸ haligned) hlength hcaligned
  rw [hstart] at hlaid
  generalize clipEntry s.map.hdr entry copyEntry = r at hstep hstart' hlength' hwritable' hcovers'' hlaid
  obtain ⟨hdr, e, rear⟩ := r
  dsimp only at hstep hstart' hlength' hwritable' hcovers'' hlaid
  have helength : entry.length % pageSize = 0 := by
    unfold length
    rw [hstart]
    exact Nat.sub_mod_eq_zero_of_mod_eq (healigned.trans haligned.symm)
  have hkaligned : e.length % pageSize = 0 := by
    rw [hlength']
    rcases min_choice copyEntry.length entry.length with h | h <;> rwa [h]
  have hpos : 0 < e.length := by
    rw [hlength']
    unfold length at hlength ⊢
    omega
  have hk : e.length ≤ copyEntry.length := hlength' ▸ min_le_left _ _
  have hend' : e.vmeEnd = start + e.length := by
    unfold length at hpos ⊢
    omega
  obtain ⟨hcheck, hstep⟩ := Stop.check_bind_ok.1 hstep
  split at hstep
  . cases hstep
    obtain ⟨-, hcopy'⟩ := hiscopy.clipCopy hk hkaligned
    refine ⟨(Laid.replaced hlaid _).mono ?_, ?_, ?_, hcovers'', n - e.length, ?_, hcopy'⟩
    . change start ≤ e.vmeEnd
      omega
    . simp
    . change e.vmeEnd % pageSize = 0
      rw [hend', Nat.add_mod, haligned, hkaligned]
      rfl
    . change s.dstEnd = e.vmeEnd + (n - e.length)
      omega
  . cases hstep
    refine ⟨⟨hlaid, fun _ => rfl, le_rfl, rfl, haligned, ?_, ⟨n, hend, hiscopy.clipped hk hpos hkaligned⟩, rfl, ?_⟩, ?_⟩
    . apply Covers.cons (hstart'.trans hstart) (by omega) _ hwritable' hcovers''
      rw [hend', Nat.add_mod, haligned, hkaligned]
      rfl
    . intro e' c' he' hc'
      obtain rfl : e = e' := by simpa using he'
      obtain rfl : _ = c' := by simpa using hc'
      exact ⟨hcheck, Nat.zero_le _⟩
    . intro e' he'
      obtain rfl : e = e' := by simpa using he'
      exact hpos

theorem Copying.next (h : s.Copying start before (entry :: rest) version amountDone) (hmap : s'.map = s.map)
    (htimestamp : s'.timestamp = s.timestamp) (hdstEnd : s'.dstEnd = s.dstEnd) (hcopy : s'.copy = s.copy) {amount : Nat}
    (haligned : amount % pageSize = 0) (hle : amount ≤ entry.length)
    : s'.Copying start before (entry :: rest) version amount where
  laid := hmap ▸ h.laid
  version := htimestamp ▸ h.version
  same := hmap ▸ htimestamp ▸ h.same
  entries := hmap ▸ h.entries
  aligned := h.aligned
  covers := hdstEnd ▸ h.covers
  copy := hdstEnd ▸ hcopy ▸ h.copy
  amountAligned := haligned
  amount := by
    intro e c he hc
    refine ⟨(h.amount e c he (hcopy ▸ hc)).1, ?_⟩
    obtain rfl : entry = e := by simpa using he
    exact hle

theorem steady_faultCopy {outcome : PageOutcome} (hsteady : Steady s₀ s)
    (hpc : s.pc = .faultCopy start before (entry :: rest) version amountDone) (hcopy : s.copy = copyEntry :: copy)
    (hstep : s.faultCopy start before entry rest copyEntry version amountDone outcome = .ok s') : Steady s₀ s' := by
  rw [Steady, hpc] at hsteady
  obtain ⟨hcopying, hlt⟩ := hsteady
  replace hlt := hlt entry rfl
  unfold faultCopy at hstep
  split at hstep
  . cases hstep
  . cases hstep
    exact fun h => by rcases h with h | h <;> cases h
  . split at hstep
    . cases hstep
      exact hcopying.next (by rfl) (by rfl) (by rfl) (by rfl) hcopying.amountAligned hlt.le
    . cases hstep
      have hnext : (amountDone + pageSize) % pageSize = 0 := by
        rw [Nat.add_mod_right]
        exact hcopying.amountAligned
      have hle : amountDone + pageSize ≤ entry.length := by
        obtain ⟨n, _, hiscopy⟩ := hcopying.copy
        have hlength := (hcopying.amount entry copyEntry rfl (by rw [hcopy]; rfl)).1
        have haligned := hiscopy.aligned copyEntry (by simp [hcopy])
        have haligned' := hcopying.amountAligned
        rw [hlength] at haligned
        change entry.length % 4096 = 0 at haligned
        change amountDone % 4096 = 0 at haligned'
        change amountDone + 4096 ≤ _
        omega
      unfold Steady
      by_cases hdone : amountDone + pageSize = entry.length
      . rw [if_pos hdone]
        exact hcopying.next (by rfl) (by rfl) (by rfl) (by rfl) hnext hle
      . rw [if_neg hdone]
        refine ⟨hcopying.next (by rfl) (by rfl) (by rfl) (by rfl) hnext hle, ?_⟩
        intro e he
        obtain rfl : entry = e := by simpa using he
        omega

theorem Copying.mapped (h : s.Copying start before rest version amountDone) : Mapped start s.dstEnd s.map.entries := by
  refine Mapped.of_unwired ?_ h.entries
  intro p hp hp'
  obtain ⟨e, he, hep⟩ := h.covers.mapped p hp hp'
  exact ⟨e, List.mem_append_right _ he, hep⟩

theorem Copying.entryAt (h : s.Copying start before rest version amountDone) (hcalm : s.Calm)
    (hpc : s.pc = .relock start before rest version amountDone) (hversion : version ≠ s.timestamp)
    : ∃ e ∈ s.map.entries, e.vmeStart ≤ start + amountDone ∧ start + amountDone < e.vmeEnd := by
  by_cases hlt : start + amountDone < s.dstEnd
  . obtain ⟨e, he, hstart, hend, -⟩ := h.mapped _ (Nat.le_add_right _ _) hlt
    exact ⟨e, he, hstart, hend⟩
  . rw [Calm, hpc] at hcalm
    obtain ⟨e, he⟩ := Option.isSome_iff_exists.1 (hcalm hversion (by omega))
    exact ⟨e, List.mem_of_find?_eq_some he, by simpa using List.find?_some he⟩

theorem steady_relock {copySize : Nat} (hsteady : Steady s₀ s) (hcalm : s.Calm)
    (hpc : s.pc = .relock start before (entry :: rest) version copySize) (hcopy : s.copy = copyEntry :: copy)
    : Steady s₀ (s.relock start before entry rest copyEntry copy version copySize) := by
  rw [Steady, hpc] at hsteady
  have hcopying : s.Copying start before (entry :: rest) version copySize := hsteady
  obtain ⟨hlaid, hsame, -, -, haligned, hcovers, ⟨n, hend, hiscopy⟩, hamountAligned, hamount⟩ := hsteady
  obtain ⟨hlength, hle⟩ := hamount entry copyEntry rfl (by rw [hcopy]; rfl)
  rw [hcopy] at hiscopy
  obtain ⟨hclt, -, hcle, _⟩ := IsCopy.cons_iff.1 hiscopy
  have hpos : 0 < copyEntry.length := by
    unfold length
    omega
  obtain ⟨hstart, hlt, healigned, hwritable, hcovers'⟩ := hcovers.of_cons (by omega)
  have hcopy' : ∃ n, s.dstEnd = start + copySize + n
      ∧ IsCopy (if copySize ≠ 0 then (clipCopy copyEntry copySize).2 ++ copy else copyEntry :: copy) n := by
    obtain ⟨-, hiscopy'⟩ := hiscopy.clipCopy (k := copySize) (by omega) hamountAligned
    refine ⟨n - copySize, by omega, ?_⟩
    split
    . exact hiscopy'
    . rename_i hzero
      obtain rfl : copySize = 0 := by omega
      exact hiscopy
  have haligned' : (start + copySize) % pageSize = 0 := by
    rw [Nat.add_mod, haligned, hamountAligned]
    rfl
  replace hlaid := hlaid.mono (Nat.le_add_right start copySize)
  unfold relock
  dsimp only
  split
  . rename_i hversion
    rw [show s.map = ⟨s.map.hdr, before ++ entry :: rest⟩ by rw [← hsame (by omega)]] at hlaid
    refine ⟨hlaid.clipEnd haligned' (by omega) (by omega), by simp, haligned', ?_, hcopy'⟩
    unfold MapHeader.clipEnd
    split
    . rename_i hclip
      exact Covers.cons rfl hclip healigned hwritable hcovers'
    . have : start + copySize = entry.vmeEnd := by
        unfold length at hle
        omega
      rw [this]
      exact hcovers'
  . rename_i hversion
    have hlooked := VmMap.lookupEntry_looked hlaid.ordered hlaid.hint (start + copySize)
    obtain ⟨hfound, e, rest', hafter, hestart, heend⟩ := hlaid.found hlooked
      (hcopying.entryAt hcalm hpc (by omega))
    have hlaid' := hlaid.looked hlooked
    rw [hafter] at hlaid'
    rw [hfound, hafter]
    refine ⟨hlaid'.clipStart haligned' heend, by simp, haligned', ?_, hcopy'⟩
    obtain ⟨hstart', hend', -⟩ := clipStart_spec (s.map.lookupEntry (start + copySize)).1 hestart
    apply (hlaid'.clipStart haligned' heend).covers hstart' (hend' ▸ heend)
    exact hcopying.mapped.clipStart hlooked.isAt hafter (Nat.le_add_right _ _) hestart

theorem source_of_unwired (h : entries'.map unwired = entries.map unwired) (p : Nat)
    : (pages entries' p).map (·.source p) = (pages entries p).map (·.source p) := by
  have hpages : ∀ l, pages (l.map unwired) p = (pages l p).map unwired :=
    fun l => pages_map (f := unwired) (fun _ => rfl) (fun _ => rfl) (fun _ _ => rfl) l p
  have h' := congrArg (fun l => (pages l p).map (·.source p)) h
  simp only [hpages, Option.map_map] at h'
  exact h'

theorem steady_change (hsteady : Steady s₀ s) {m : VmMap}
    (hunwired : ¬ s.Locked → m.entries.map unwired = s.map.entries.map unwired)
    (hlaid : ∀ start, Laid s.map start → Laid m start)
    : Steady s₀ (if s.Locked then s else { s with map := m, timestamp := s.timestamp + 1 }) := by
  split
  . exact hsteady
  . rename_i hlocked
    replace hunwired := hunwired hlocked
    have hread : ∀ p, Overwrite.read { s with map := m, timestamp := s.timestamp + 1 } p = s.read p :=
      read_congr rfl rfl fun q => source_of_unwired hunwired q
    have hcopying : ∀ {start before rest version amountDone}, s.Copying start before rest version amountDone →
        Copying { s with map := m, timestamp := s.timestamp + 1 } start before rest version amountDone := by
      intro start before rest version amountDone h
      have hversion := h.version
      refine { h with
        laid := hlaid _ h.laid
        version := Nat.le_succ_of_le hversion
        same := ?_
        entries := hunwired.trans h.entries }
      rintro rfl
      change s.timestamp + 1 ≤ s.timestamp at hversion
      omega
    unfold Steady at hsteady ⊢
    unfold Locked at hlocked
    dsimp only
    split
    all_goals rename_i hpc; rw [hpc] at hsteady hlocked
    . exact ⟨fun p => (hread p).trans (hsteady.1 p), hsteady.2⟩
    . exact absurd trivial hlocked
    . exact absurd trivial hlocked
    . exact ⟨hcopying hsteady.1, hsteady.2⟩
    . exact hcopying hsteady
    . exact fun hret p => (hread p).trans (hsteady hret p)

theorem step_steady (h : s.Inv) (hsteady : Steady s₀ s) (hcalm : s.Calm) (hquiet : s.Quiet op)
    (hstep : s.step op = .ok s') : Steady s₀ s' := by
  cases op with
  | change m =>
    cases hstep
    exact steady_change hsteady hquiet fun start _ => .of_wellFormed m.2 start
  | touch =>
    cases hstep
    exact steady_change hsteady (fun _ => rfl) fun _ => id
  | run outcome =>
    change s.advance outcome = .ok s' at hstep
    unfold advance at hstep
    split at hstep
    . rename_i hpc
      cases hstep
      exact steady_startPass1 h hsteady hpc
    . rename_i hpc
      cases hstep
      exact steady_pass1 h hsteady hpc
    . cases hstep
    . rename_i start before rest hpc
      split at hstep
      . cases hstep
        exact fun h => by rcases h with h | h <;> cases h
      . -- the copy is not at its end, so there is an entry
        rename_i c copy hcopy
        rw [Steady, hpc] at hsteady
        obtain ⟨-, -, -, hcovers, n, hend, hiscopy⟩ := hsteady
        rw [hcopy] at hiscopy
        obtain ⟨hclt, _, hcle, _⟩ := IsCopy.cons_iff.1 hiscopy
        unfold length at hcle
        exact absurd hcovers (not_covers_nil (by omega))
      . rename_i hcopy
        exact steady_pass2 hsteady hpc hcopy hstep
    . rename_i hpc
      split at hstep
      . rename_i hcopy
        exact steady_faultCopy hsteady hpc hcopy hstep
      . cases hstep
    . rename_i hpc
      split at hstep
      . rename_i hcopy
        cases hstep
        exact steady_relock hsteady hcalm hpc hcopy
      . cases hstep
    . cases hstep
      exact hsteady

theorem run_inv (h : s.Inv) (hcalm : s.CalmRun ops) (hrun : s.run ops = .ok s') : s.Keeps s' := by
  induction ops generalizing s with
  | nil =>
    cases hrun
    exact ⟨h, rfl, rfl⟩
  | cons op ops ih =>
    obtain ⟨t, hstep, hrest⟩ := Stop.bind_ok.1 hrun
    have hkeeps := step_inv h hcalm.1 hstep
    obtain ⟨hinv, hdst, hsize⟩ := ih hkeeps.inv (hcalm.2 t hstep) hrest
    exact ⟨hinv, hdst.trans hkeeps.dstAddr, hsize.trans hkeeps.copySize⟩

theorem run_steady (h : s.Inv) (hsteady : Steady s₀ s) (hcalm : s.CalmRun ops)
    (hquiet : s.QuietRun ops) (hrun : s.run ops = .ok s') : Steady s₀ s' := by
  induction ops generalizing s with
  | nil =>
    cases hrun
    exact hsteady
  | cons op ops ih =>
    obtain ⟨t, hstep, hrest⟩ := Stop.bind_ok.1 hrun
    exact ih (step_inv h hcalm.1 hstep).inv (step_steady h hsteady hcalm.1 hquiet.1 hstep) (hcalm.2 t hstep)
      (hquiet.2 t hstep) hrest

variable {m : VmMap} {temporary : Nat → Bool} {mem : Nat → Nat → β} {zero : β} {dstAddr copyOffset copySize : Nat}

theorem copyOverwrite_inv (hm : m.WellFormed)
    : (copyOverwrite m temporary mem zero dstAddr copyOffset copySize copy).Inv := by
  refine ⟨trivial, ?_⟩
  unfold copyOverwrite
  dsimp only
  by_cases haligned : copyOffset % pageSize ≠ 0 ∨ copySize % pageSize ≠ 0 ∨ dstAddr % pageSize ≠ 0
  . rw [if_pos haligned]
    trivial
  . rw [if_neg haligned]
    by_cases hsize : copySize = 0
    . rw [if_pos hsize]
      trivial
    . rw [if_neg hsize]
      exact ⟨hm, by omega, rfl⟩

theorem copyOverwrite_steady (hcopy : IsCopy copy copySize)
    : Steady (copyOverwrite m temporary mem zero dstAddr copyOffset copySize copy)
        (copyOverwrite m temporary mem zero dstAddr copyOffset copySize copy) := by
  unfold Steady
  split
  . exact ⟨fun _ => rfl, hcopy⟩
  . exact ⟨fun _ => rfl, hcopy⟩
  -- the call starts before its passes
  iterate 3
    . rename_i hpc
      change (if _ then _ else if _ then _ else _) = _ at hpc
      repeat' split at hpc
      all_goals cases hpc
  . exact fun _ _ => rfl

theorem run_verified (hm : m.WellFormed) (hcopy : IsCopy copy copySize) {ops : List OverwriteOp}
    (hcalm : (copyOverwrite m temporary mem zero dstAddr copyOffset copySize copy).CalmRun ops)
    (hrun : (copyOverwrite m temporary mem zero dstAddr copyOffset copySize copy).run ops = .ok s)
    : Verified dstAddr (dstAddr + copySize) s.log
      ∧ (s.pc = .done .invalidAddress ∨ s.pc = .done .protectionFailure →
          (copyOverwrite m temporary mem zero dstAddr copyOffset copySize copy).QuietRun ops →
          ∀ p, s.read p = (copyOverwrite m temporary mem zero dstAddr copyOffset copySize copy).read p) := by
  have hinv : (copyOverwrite m temporary mem zero dstAddr copyOffset copySize copy).Inv := copyOverwrite_inv hm
  constructor
  . obtain ⟨⟨hlog, -⟩, hdst, hsize⟩ := run_inv hinv hcalm hrun
    rw [dstEnd, hdst, hsize] at hlog
    exact hlog
  . intro hpc hquiet
    have hsteady := run_steady hinv (copyOverwrite_steady hcopy) hcalm hquiet hrun
    unfold Steady at hsteady
    rcases hpc with hpc | hpc
    . rw [hpc] at hsteady
      exact hsteady (Or.inl rfl)
    . rw [hpc] at hsteady
      exact hsteady (Or.inr rfl)

instance decidableCalm (s : Overwrite β) : Decidable s.Calm :=
  match hpc : s.pc with
  | .pass1 _ seen (entry :: _) =>
    decidable_of_iff (entry.isWritable → entry.inTransition → seen = []) (by rw [Calm, hpc])
  | .relock start _ _ version copySize =>
    decidable_of_iff
      (version ≠ s.timestamp → s.dstEnd ≤ start + copySize → (s.map.entryAt (start + copySize)).isSome)
      (by rw [Calm, hpc])
  | .pass1 _ _ [] | .startPass1 | .pass2 .. | .faultCopy .. | .done _ =>
    isTrue (by rw [Calm, hpc]; trivial)

instance decidableQuiet (s : Overwrite β) : (op : OverwriteOp) → Decidable (s.Quiet op)
  | .run _ | .touch => isTrue trivial
  | .change m => inferInstanceAs (Decidable (¬ s.Locked →
      m.1.entries.map MapEntry.unwired = s.map.entries.map MapEntry.unwired))

instance decidableCalmRun : (s : Overwrite β) → (ops : List OverwriteOp) → Decidable (s.CalmRun ops)
  | _, [] => isTrue trivial
  | s, op :: ops =>
    match hstep : s.step op with
    | .ok t =>
      have := decidableCalmRun t ops
      decidable_of_iff (s.Calm ∧ t.CalmRun ops) (by simp [CalmRun, hstep])
    | .error _ => decidable_of_iff s.Calm (by simp [CalmRun, hstep])

instance decidableQuietRun : (s : Overwrite β) → (ops : List OverwriteOp) → Decidable (s.QuietRun ops)
  | _, [] => isTrue trivial
  | s, op :: ops =>
    match hstep : s.step op with
    | .ok t =>
      have := decidableQuietRun t ops
      decidable_of_iff (s.Quiet op ∧ t.QuietRun ops) (by simp [QuietRun, hstep])
    | .error _ => decidable_of_iff (s.Quiet op) (by simp [QuietRun, hstep])

def writablePage (id page object : Nat) (inTransition : Bool) : MapEntry where
  id := id
  vmeStart := page * 4096
  vmeEnd := (page + 1) * 4096
  object := some object
  offset := 0
  isShared := false
  isSubMap := false
  inTransition := inTransition
  needsWakeup := false
  needsCopy := false
  protection := .default
  maxProtection := .all
  inheritance := .copy
  wiredCount := 0
  userWiredCount := 0
  projectedOn := .none

def twoPages (first second : Bool) : VmMap where
  hdr := ⟨4096, 65536, 2, 8192, none, none, false, 2⟩
  entries := [writablePage 0 1 0 first, writablePage 1 2 1 second]

def threePages (first second : Bool) : Overwrite Nat :=
  copyOverwrite (twoPages first second) (fun _ => true) (fun object _ => object) 7 4096 0 12288
    [{ writablePage 0 0 2 false with vmeEnd := 12288 }]

def ready : { m : VmMap // m.WellFormed } := ⟨twoPages false false, by decide⟩

theorem run_verified_firstPage : ∃ s, (threePages true false).run ([.run .copied, .run .copied, .change ready] ++
          List.replicate 3 (.run .copied)) = .ok s
        ∧ s.pc = .done .invalidAddress ∧ Verified 4096 16384 s.log ∧ s.read 4096 = some 0 := by
  obtain ⟨s, heq, hpc⟩ : ∃ s, (threePages true false).run ([.run .copied, .run .copied, .change ready] ++
      List.replicate 3 (.run .copied)) = .ok s ∧ s.pc = .done .invalidAddress := by
    decide +kernel
  have hcopy : IsCopy [{ writablePage 0 0 2 false with vmeEnd := 12288 }] 12288 := ⟨by decide, by decide, by decide⟩
  obtain ⟨hlog, hread⟩ := run_verified (m := twoPages true false) (by decide) hcopy (by decide +kernel) heq
  exact ⟨s, heq, hpc, hlog, hread (Or.inl hpc) (by decide +kernel) 4096⟩

theorem run_secondPage : ∃ s, (threePages false true).run ([.run .copied, .run .copied, .run .copied, .change ready] ++
          List.replicate 6 (.run .copied)) = .ok s
        ∧ (threePages false true).QuietRun ([.run .copied, .run .copied, .run .copied, .change ready] ++
          List.replicate 6 (.run .copied))
        ∧ s.pc = .done .invalidAddress ∧ ¬ Verified 4096 16384 s.log
        ∧ (threePages false true).read 4096 = some 0 ∧ s.read 4096 = some 2 := by
  obtain ⟨s, heq, hpc, hhead, hfound, hread⟩ : ∃ s, (threePages false true).run ([.run .copied, .run .copied,
      .run .copied, .change ready] ++ List.replicate 6 (.run .copied)) = .ok s ∧ s.pc = .done .invalidAddress
      ∧ s.log.head? = some (.wrote 8192 12288) ∧ foundSince s.log.tail 12288 = false ∧ s.read 4096 = some 2 := by
    decide +kernel
  refine ⟨s, heq, by decide +kernel, hpc, ?_, by decide, hread⟩
  obtain ⟨log, hlog⟩ := List.head?_eq_some_iff.1 hhead
  rw [hlog] at hfound ⊢
  intro hverified
  have := hverified.1 12288 (by decide) (by decide)
  rw [show foundSince log 12288 = false from hfound] at this
  contradiction

end Overwrite

end Vm
