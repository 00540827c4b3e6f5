import UtahMach.Ipc.Kmsg.CopyinItem

/-!
This module contains the loop of `ipc_kmsg_copyin_body`.
-/

namespace Ipc

open List (append_nil flatMap_cons nil_append)

open KmsgM

/-- What a part of the log gives back. -/
structure Releases (rights : List (Nat × Nat)) (memory : List Memo) (log : List KmsgEvent) : Prop where
  copied : copiedIn log = []
  destroyed : destroyed log = rights
  acquired : acquired log = []
  freed : freed log = memory

namespace Releases

theorem append (h : Releases rights memory log) (h' : Releases rights' memory' log')
    : Releases (rights ++ rights') (memory ++ memory') (log ++ log') := by
  constructor <;> simp [h.copied, h'.copied, h.destroyed, h'.destroyed, h.acquired, h'.acquired, h.freed, h'.freed]

theorem ofRights (rights : List (Nat × Nat)) : Releases rights [] (rights.map (fun r => .destroy r.1 r.2)) := by
  constructor <;> simp [copiedIn, Ipc.destroyed, Ipc.acquired, Ipc.freed]

theorem ofMemory (ms : List Memo) : Releases [] ms (ms.map Memo.free) := by
  induction ms with
  | nil => exact ⟨rfl, rfl, rfl, rfl⟩
  | cons m ms ih => cases m <;> exact { ih with freed := congrArg _ ih.freed }

theorem ofItems (ds : List Done)
    : Releases (ds.flatMap Done.rights) (ds.flatMap Done.memory) (ds.flatMap Done.cleanEvents) := by
  induction ds with
  | nil => exact ⟨rfl, rfl, rfl, rfl⟩
  | cons d ds ih =>
    have hfreed := (ofRights d.rights).append (ofMemory d.memory)
    rw [append_nil, nil_append] at hfreed
    have hd : Releases d.rights d.memory d.cleanEvents := { hfreed with }
    exact hd.append ih

end Releases

section Body

theorem CopyinInv.word_eq (hinv : CopyinInv b s ds pos) : s.body.word pos = b.word pos := hinv.rest pos (Nat.le_refl _)

variable {it : Item} {header : KmsgHeader}

theorem items_valid {fuel : Nat} (h : it ∈ items b fuel pos) : invalidType it.type = false := by
  induction fuel generalizing pos with
  | zero => simp [items] at h
  | succ fuel ih =>
    rw [items] at h
    split at h
    . cases hit : itemAt b pos with
      | none => simp [hit] at h
      | some it' =>
        rw [hit] at h
        rcases List.mem_cons.mp h with rfl | hin
        . exact (itemAt_eq_some hit).2.2.1
        . exact ih hin
    . contradiction

section

variable (env : Env) (hinv : CopyinInv b s ds pos)
include env hinv

theorem run_copyinItem_none (hlt : pos < b.size) (hit : itemAt b pos = none)
    : ∃ e, (copyinItem env pos).run s = .ok (.error e, s) ∧ e.mr ≠ .success ∧ e.dolast = false ∧ e.number = 0 := by
  have hsize := hinv.size
  have htype := hinv.typeAt_eq
  have hlong := longform_typeAt b pos
  rw [copyinItem, run_get, if_neg (by omega), run_readWord (by omega)]
  by_cases hshort : msgtLongform (s.body.word pos) = true ∧ s.body.size - pos < 3
  . rw [if_pos hshort]
    exact ⟨⟨.sendMsgTooSmall, false, 0⟩, rfl, by simp⟩
  . have hdata : pos + (typeAt b pos).words ≤ b.size := by
      rw [hinv.word_eq, ← hlong] at hshort
      unfold MsgType.words
      split
      . next h =>
        have hleft : ¬ s.body.size - pos < 3 := fun hleft => hshort ⟨h, hleft⟩
        omega
      . omega
    rw [if_neg hshort, run_bind_ok (run_readType (by rw [htype, hsize]; exact hdata)), htype]
    cases hvalid : invalidType (typeAt b pos) with
    | true =>
      exact ⟨⟨.sendInvalidType, false, 0⟩, rfl, by simp⟩
    | false =>
      have hover : b.size < pos + (typeAt b pos).words + (typeAt b pos).dataWords := by
        simp only [itemAt] at hit
        split at hit
        . contradiction
        . next h =>
          have hnot : ¬ pos + (typeAt b pos).words + (typeAt b pos).dataWords ≤ b.size :=
            fun hle => h ⟨hdata, hvalid, hle⟩
          omega
      simp only [Bool.false_eq_true, if_false]
      rw [run_get, if_pos (by omega)]
      exact ⟨⟨.sendMsgTooSmall, false, 0⟩, rfl, by simp⟩

theorem run_copyinItem_some (hit : itemAt b pos = some it) : ∃ s0, Visited s it s0 ∧ (copyinItem env pos).run s =
        if it.type.inline then (copyinInline env it.pos it.data it.type).run s0
        else (copyinOol env it.pos it.data it.type).run s0 := by
  obtain ⟨hpos, htype, hvalid, hfits⟩ := itemAt_eq_some hit
  obtain ⟨hdata, hnext⟩ := it.ends
  have hwords := words_pos it.type
  have htypeS : typeAt s.body pos = it.type := by rw [hinv.typeAt_eq, htype]
  have hsize := hinv.size
  refine ⟨{ s with log := s.log ++ [.visit .copyin it.visit] }, ⟨rfl, rfl, rfl, rfl⟩, ?_⟩
  have hread : (readType pos).run s = .ok (it.type, s) := by
    rw [run_readType (by rw [htypeS]; omega), htypeS]
  have hshort : ¬ (msgtLongform (s.body.word pos) ∧ s.body.size - pos < 3) := by
    rintro ⟨hlong, hleft⟩
    rw [← longform_typeAt, htypeS] at hlong
    have : it.type.words = 3 := by simp [MsgType.words, hlong]
    omega
  rw [copyinItem, run_get]
  rw [if_neg (by omega), run_readWord (by omega), if_neg hshort, run_bind_ok hread]
  simp only [hvalid, Bool.false_eq_true, if_false]
  rw [run_get, if_neg (by omega), run_emit _, ← hpos]
  cases hinline : it.type.inline <;> rfl

theorem run_copyinItem (hit : itemAt b pos = some it) (hwrap : it.type.isPort = true → it.type.number < 2 ^ 27)
    : ∃ r s', (copyinItem env pos).run s = .ok (r, s') ∧ ItemResult b s ds it r s' ∧
        (env.Succeeds → s.Below → s'.Below ∧ ∃ c, r = .ok (c, it.next)) := by
  obtain ⟨s0, hvisited, hrun⟩ := run_copyinItem_some env hinv hit
  rw [hrun]
  cases hinline : it.type.inline with
  | true => exact run_copyinInline env hinv hit hwrap hvisited hinline
  | false => exact run_copyinOol env hinv hit hwrap hvisited hinline

end

structure GivenBack (header : KmsgHeader) (log : List KmsgEvent) : Prop where
  rights : destroyed log = header.rights ++ copiedIn log
  memory : (acquired log).Perm (freed log)

theorem CopyinInv.clean (hinv : CopyinInv b s ds pos)
    (hremote : ioValid header.remote = true) (hbody : s'.body = s.body)
    (hheap : s'.heap = s.heap) (hlog : s'.log = s.log ++ evs)
    (hcopied : copiedIn evs = []) (hdestroyed : Ipc.destroyed evs = []) (hmemory : Ipc.acquired evs = Ipc.freed evs)
    : ∃ s'', (ipcKmsgCleanPartial header pos false 0).run s' = .ok ((), s'') ∧ GivenBack header s''.log := by
  have hholds : ∀ d ∈ ds, d.Holds s' := by
    intro d hd
    apply (hinv.holds d hd).congr
    . rw [hbody]
    . intro p _ _
      rw [hbody]
    . intro a _
      rw [hheap]
  have hr := Releases.ofRights header.rights
  have hd := Releases.ofItems ds
  refine ⟨_, run_cleanPartial hremote hinv.chain hinv.apart hholds, ?_, ?_⟩
  . simp only [Done.cleaned, hlog, destroyed_append, copiedIn_append, hinv.destroyed, hinv.copied,
      hcopied, hdestroyed, hr.destroyed, hr.copied, hd.destroyed, hd.copied, nil_append, append_nil]
  . simp only [Done.cleaned, hlog, acquired_append, freed_append, hinv.acquired, hinv.freed, hmemory,
      hr.acquired, hr.freed, hd.acquired, hd.freed, nil_append, append_nil]
    exact List.perm_append_comm

theorem CopyinInv.clean_last (hinv : CopyinInv b s ds pos) (hremote : ioValid header.remote = true)
    {i : Nat} (h : Entered s ds d s') (hpos : d.pos = pos) (hport : d.type.isPort = true)
    (hi : i ≤ d.type.number) (hlog : s'.log = s.log ++ evs)
    (hcopied : copiedIn evs = ((d.objs.take i).filter ioValid).map (·, d.type.name))
    (hdestroyed : Ipc.destroyed evs = []) (hacquired : Ipc.acquired evs = d.memory) (hfreed : Ipc.freed evs = [])
    : ∃ s'', (ipcKmsgCleanPartial header pos true i).run s' = .ok ((), s'') ∧ GivenBack header s''.log := by
  obtain ⟨s'', hrun, hlog'⟩ := run_cleanPartial_last hremote hinv.chain (h.holds_before hinv hpos)
    (h.pairwise hinv) hpos h.holds hport hi
  have hmap : ((d.objs.take i).filter ioValid).map (KmsgEvent.destroy · d.type.name) =
      (((d.objs.take i).filter ioValid).map (·, d.type.name)).map (fun r => .destroy r.1 r.2) := by
    rw [List.map_map]
    rfl
  rw [hmap] at hlog'
  have hr := Releases.ofRights
  have hd := Releases.ofItems ds
  have hm := Releases.ofMemory d.memory
  refine ⟨s'', hrun, ?_, ?_⟩
  . simp only [hlog', hlog, destroyed_append, copiedIn_append, hinv.destroyed, hinv.copied, hcopied, hdestroyed,
      (hr _).destroyed, (hr _).copied, hd.destroyed, hd.copied, hm.destroyed, hm.copied, nil_append, append_nil]
  . simp only [hlog', hlog, acquired_append, freed_append, hinv.acquired, hinv.freed, hacquired, hfreed,
      (hr _).acquired, (hr _).freed, hd.acquired, hd.freed, hm.acquired, hm.freed, nil_append, append_nil]
    exact List.Perm.refl _

inductive BodyResult (b : Block) (header : KmsgHeader)
    : MachMsgReturn × Bool × Nat → KmsgState → Prop
  | accepted {ds : List Done} {s' : KmsgState} {c : Bool} (hinv : CopyinInv b s' ds b.size)
    (hsimple : c = false → ∀ d ∈ ds, d.rights = [] ∧ d.memory = []) : BodyResult b header (.success, c, b.size) s'
  | refused {s' : KmsgState} {mr : MachMsgReturn} {c : Bool} {q : Nat} (hmr : mr ≠ .success)
    (hback : GivenBack header s'.log) : BodyResult b header (mr, c, q) s'

theorem run_copyinItems (env : Env) (hremote : ioValid header.remote = true)
    (fuel : Nat) (c : Bool) (hinv : CopyinInv b s ds pos)
    (hsimple : c = false → ∀ d ∈ ds, d.rights = [] ∧ d.memory = []) (hle : pos ≤ b.size) (hfuel : b.size - pos < fuel)
    (hwrap : ∀ it ∈ items b fuel pos, it.type.isPort = true → it.type.number < 2 ^ 27)
    : ∃ r s', (copyinItems env header fuel c pos).run s = .ok (r, s') ∧ BodyResult b header r s' := by
  induction fuel generalizing s ds pos c with
  | zero => omega
  | succ fuel ih =>
    rw [copyinItems, run_get, hinv.size]
    by_cases hlt : pos < b.size
    . rw [if_pos hlt]
      rw [items, if_pos hlt] at hwrap
      cases hit : itemAt b pos with
      | none =>
        obtain ⟨e, hrun, hmr, hlast, hnumber⟩ := run_copyinItem_none env hinv hlt hit
        obtain ⟨s', hclean, hback⟩ := hinv.clean hremote rfl rfl (append_nil _).symm rfl rfl rfl
        rw [run_bind_ok hrun]
        simp only [hlast, hnumber]
        rw [run_bind_ok hclean]
        exact ⟨_, s', rfl, .refused hmr hback⟩
      | some it =>
        rw [hit] at hwrap
        obtain ⟨hpos, -, -, hfits⟩ := itemAt_eq_some hit
        obtain ⟨r, s1, hrun, hres, -⟩ := run_copyinItem env hinv hit (hwrap it List.mem_cons_self)
        rw [run_bind_ok hrun]
        cases hres with
        | @done d _ c' hinv' hsimple' =>
          have hnext := it.pos_lt_next
          refine ih (c || c') hinv' (fun hc => ?_) hfits (by omega)
            fun it' hit' => hwrap it' (List.mem_cons_of_mem _ hit')
          obtain ⟨hc, hc'⟩ := Bool.or_eq_false_iff.1 hc
          exact List.forall_mem_append.2 ⟨hsimple hc, List.forall_mem_singleton.2 (hsimple' hc')⟩
        | memory hbody hheap hlog hcopied hdestroyed hmemory =>
          obtain ⟨s', hclean, hback⟩ := hinv.clean hremote hbody hheap hlog hcopied hdestroyed hmemory
          rw [run_bind_ok hclean]
          exact ⟨_, s', rfl, .refused (by simp) hback⟩
        | right h hdpos hport hi hlog hcopied hdestroyed hacquired hfreed =>
          obtain ⟨s', hclean, hback⟩ := hinv.clean_last hremote h (hdpos.trans hpos) hport hi hlog
            hcopied hdestroyed hacquired hfreed
          rw [run_bind_ok hclean]
          exact ⟨_, s', rfl, .refused (by simp) hback⟩
    . rw [if_neg hlt]
      have hend : pos = b.size := by omega
      subst hend
      exact ⟨_, s, rfl, .accepted hinv hsimple⟩

def KmsgState.received (b : Block) : KmsgState where
  body := b
  heap := fun _ => none
  calls := 0
  circular := false
  log := []

theorem copyinInv_received (b : Block) : CopyinInv b (.received b) [] 0 where
  size := rfl
  rest := fun _ _ => rfl
  chain := rfl
  apart := .nil
  holds := by simp
  null := rfl
  copied := rfl
  destroyed := rfl
  acquired := rfl
  freed := rfl
  visits := rfl

theorem run_copyinBody (env : Env) (hremote : ioValid header.remote = true)
    (hwrap : ∀ it ∈ items b (b.size + 1) 0, it.type.isPort = true → it.type.number < 2 ^ 27)
    : ∃ r s', (ipcKmsgCopyinBody env header).run (.received b) = .ok (r, s') ∧ BodyResult b header r s' := by
  exact run_copyinItems env hremote _ false (copyinInv_received b) (by simp) (Nat.zero_le _) (Nat.lt_succ_self _) hwrap

theorem copyinBody_all_or_nothing (env : Env) (b : Block) (header : KmsgHeader) (hremote : ioValid header.remote = true)
    (hover : ∀ it ∈ items b (b.size + 1) 0, it.type.number * it.type.size < 2 ^ 32)
    : ∃ mr c q s', (ipcKmsgCopyinBody env header).run (.received b) = .ok ((mr, c, q), s') ∧
        (mr ≠ .success → destroyed s'.log = header.rights ++ copiedIn s'.log ∧
          (acquired s'.log).Perm (freed s'.log)) := by
  have hwrap : ∀ it ∈ items b (b.size + 1) 0, it.type.isPort = true → it.type.number < 2 ^ 27 := by
    intro it hit hport
    have hlt := hover it hit
    rw [size_of_port (items_valid hit) hport, portTSizeInBits] at hlt
    omega
  obtain ⟨⟨mr, c, q⟩, s', hrun, hres⟩ := run_copyinBody env hremote hwrap
  refine ⟨mr, c, q, s', hrun, ?_⟩
  intro hmr
  cases hres with
  | accepted => exact absurd rfl hmr
  | refused _ hback => exact ⟨hback.rights, hback.memory⟩

def twoRights : Block where
  size := 3
  word := fun p => if p = 0 then 19 + 32 * 2 ^ 8 + 2 * 2 ^ 16 + 2 ^ 28 else p + 4

def Env.once : Env where
  kalloc := fun _ => 0
  copyinmap := fun _ => none
  vmDeallocate := fun _ => false
  vmMapCopyin := fun _ => none
  objectCopyin := fun c => if c = 0 then some 7 else none
  checkCircularity := fun _ => false
  vmAllocate := fun _ => .ok 0
  vmMapCopyout := fun _ => .ok 0
  copyoutObject := fun _ => (0, 0)

theorem copyinBody_twoRights : (items twoRights 4 0).length = 1 ∧
      ∃ mr c q s', (ipcKmsgCopyinBody Env.once ⟨1, 17, 0, 0⟩).run (.received twoRights) = .ok ((mr, c, q), s') ∧
        (mr ≠ .success → destroyed s'.log = KmsgHeader.rights ⟨1, 17, 0, 0⟩ ++ copiedIn s'.log ∧
          (acquired s'.log).Perm (freed s'.log)) :=
  ⟨by decide, copyinBody_all_or_nothing Env.once twoRights ⟨1, 17, 0, 0⟩ (by decide) (by decide)⟩

end Body

end Ipc
