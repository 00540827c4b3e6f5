import UtahMach.Ipc.Kmsg.Overflow

/-!
This module contains the walk of `ipc_kmsg_copyout_body` over a message that has been copied in.
-/

namespace Ipc

open KmsgM

theorem run_copyoutSlots (env : Env) (objects : Objects) {s : KmsgState} (n k i mr : Nat)
    (hn : i + k ≤ n) (hin : ∀ j, i ≤ j → j < i + k → (s.slot? objects j).isSome)
    : ∃ mr' s', (copyoutSlots env objects k i mr).run s = .ok (mr', s') ∧
        SlotFrame objects n s s' ∧ s'.log = s.log := by
  induction k generalizing s i mr with
  | zero => exact ⟨mr, s, rfl, .refl _ _ _, rfl⟩
  | succ k ih =>
    obtain ⟨w, hw⟩ := Option.isSome_iff_exists.mp (hin i (by omega) (by omega))
    have hstep : ∀ (calls v mr : Nat), ∃ mr' s',
        (do
          writeSlot objects i v
          copyoutSlots env objects k (i + 1) mr : KmsgM Nat).run { s with calls := calls } =
            .ok (mr', s') ∧ SlotFrame objects n s s' ∧ s'.log = s.log := by
      intro calls v mr
      have hslot : ∀ j, ({ s with calls := calls } : KmsgState).slot? objects j = s.slot? objects j :=
        slot?_calls s calls s.log s.circular objects
      rw [run_bind_ok (run_writeSlot ((hslot i).trans hw) v)]
      obtain ⟨mr', s', hrun, hframe, hlog⟩ := ih (i + 1) mr (by omega)
        (s := ({ s with calls := calls } : KmsgState).setSlot objects i v) (by
        intro j hj hj'
        rw [slot?_setSlot_of_ne (by omega), hslot]
        exact hin j (by omega) (by omega))
      refine ⟨mr', s', hrun, ?_, ?_⟩
      . have hcalls : SlotFrame objects n s { s with calls := calls } :=
          ⟨rfl, fun _ _ => rfl, fun _ _ => rfl, fun _ => rfl⟩
        exact (hcalls.trans (.setSlot (by omega))).trans hframe
      . rw [hlog]
        cases objects <;> rfl
    rw [copyoutSlots, run_readSlot hw]
    cases hvalid : ioValid w with
    | true =>
      exact hstep (s.calls + 1) _ _
    | false =>
      exact hstep s.calls _ _

structure CopiedOut (d : Done) (vs : List Visit) (s s' : KmsgState) : Prop where
  size : s'.body.size = s.body.size
  word : ∀ p, p < d.pos ∨ d.next ≤ p → s'.body.word p = s.body.word p
  heap : ∀ a, Memo.kernel a ∉ d.memory → s'.heap a = s.heap a
  log : ∃ evs, s'.log = s.log ++ evs ∧ visits .copyout evs = vs

namespace CopiedOut

theorem refl (d : Done) (s : KmsgState) : CopiedOut d [] s s :=
  ⟨rfl, fun _ _ => rfl, fun _ _ => rfl, [], by rw [List.append_nil], rfl⟩

theorem trans (h : CopiedOut d vs s s') (h' : CopiedOut d vs' s' s'') : CopiedOut d (vs ++ vs') s s'' where
  size := h'.size.trans h.size
  word := fun p hp => (h'.word p hp).trans (h.word p hp)
  heap := fun a ha => (h'.heap a ha).trans (h.heap a ha)
  log := by
    obtain ⟨evs, hevs, hvs⟩ := h.log
    obtain ⟨evs', hevs', hvs'⟩ := h'.log
    refine ⟨evs ++ evs', ?_, ?_⟩
    . rw [hevs', hevs, List.append_assoc]
    . rw [visits_append, hvs, hvs']

theorem emit (ev : KmsgEvent) (calls : Nat) (hv : visits .copyout [ev] = vs)
    : CopiedOut d vs s { s with calls := calls, log := s.log ++ [ev] } :=
  ⟨rfl, fun _ _ => rfl, fun _ _ => rfl, [ev], rfl, hv⟩

theorem calls (d : Done) (s : KmsgState) (calls : Nat) : CopiedOut d [] s { s with calls := calls } :=
  ⟨rfl, fun _ _ => rfl, fun _ _ => rfl, [], (List.append_nil _).symm, rfl⟩

theorem writeWord {p : Nat} (w : Nat) (hp : d.pos ≤ p) (hlt : p < d.next)
    : CopiedOut d [] s { s with body := s.body.set p w } where
  size := rfl
  word := by
    intro p' hp'
    have hne : p' ≠ p := by omega
    exact Function.update_of_ne hne _ _
  heap := fun _ _ => rfl
  log := ⟨[], (List.append_nil _).symm, rfl⟩

theorem slots (hd : d.Holds s) (hport : d.type.isPort = true) (hnull : s.heap 0 = none)
    (h : SlotFrame d.objects d.type.number s s') (hlog : s'.log = s.log) : CopiedOut d [] s s' where
  size := h.size
  word := by
    intro p hp
    apply h.word p
    intro q hq
    cases hinline : d.type.inline with
    | true =>
      have hdw := hd.dataWords_eq hinline hport
      obtain ⟨hdata, hnext⟩ := d.ends
      simp only [Done.objects, hinline, if_true, Objects.inline.injEq] at hq
      omega
    | false => simp [Done.objects, hinline] at hq
  heap := by
    intro a ha
    by_cases heq : d.objects = .ool a
    . -- An item without memory has its elements nowhere.
      cases hinline : d.type.inline with
      | true => simp [Done.objects, hinline] at heq
      | false =>
        simp only [Done.objects, hinline, Bool.false_eq_true, if_false, Objects.ool.injEq] at heq
        have hlen : d.type.length = 0 := by
          by_contra hne
          rw [Done.kernel_mem_memory hinline hport hne, heq] at ha
          exact ha List.mem_cons_self
        have hz : a = 0 := by rw [← heq, (hd.pointer hinline).2 hlen]
        have hsize := h.heap_size a
        rw [hz, hnull] at hsize ⊢
        simpa using hsize
    . exact h.heap a heq
  log := ⟨[], by rw [hlog, List.append_nil], rfl⟩

end CopiedOut

section Item

variable {d : Done} {s : KmsgState}

theorem Done.Holds.calls (h : d.Holds s) (calls : Nat) : d.Holds { s with calls := calls } :=
  h.congr rfl (fun _ _ _ => rfl) (fun _ _ => rfl)

theorem run_copyoutRights (env : Env) (h : d.Holds s) (hport : d.type.isPort = true)
    (hnull : s.heap 0 = none) (mr : Nat)
    : ∃ mr' s', (copyoutSlots env d.objects d.type.number 0 mr).run s = .ok (mr', s') ∧
        CopiedOut d [] s s' ∧ SlotFrame d.objects d.type.number s s' := by
  obtain ⟨mr', s', hrun, hframe, hlog⟩ := run_copyoutSlots env d.objects d.type.number d.type.number
    0 mr (by omega) (by
      intro j _ hj
      have hlen := h.objs_length hport
      rw [h.slots hport j (by omega)]
      simp
      omega)
  exact ⟨mr', s', hrun, .slots h hport hnull hframe hlog, hframe⟩

theorem run_vmCopyoutFailure (hfits : d.next ≤ s.body.size) (kr : KernReturn)
    : ∃ bits s', (vmCopyoutFailure d.pos d.type kr).run s = .ok (bits, s') ∧ CopiedOut d [] s s' := by
  have hwords := words_pos d.type
  have hnext : d.next = d.pos + d.type.words + d.type.dataWords := rfl
  unfold vmCopyoutFailure
  cases hlong : d.type.longform with
  | true =>
    have hthree : d.type.words = 3 := by simp [MsgType.words, hlong]
    simp only [if_true]
    rw [run_readWord (by omega), run_writeWord (by omega) _]
    exact ⟨_, _, rfl, .writeWord _ (by omega) (by omega)⟩
  | false =>
    simp only [Bool.false_eq_true, if_false]
    rw [run_readWord (by omega), run_writeWord (by omega) _]
    exact ⟨_, _, rfl, .writeWord _ (by omega) (by omega)⟩

-- rights and memory are given back without a visit
theorem visits_freed (walker : Walker) (rights : List (Nat × Nat)) (ms : List Memo)
    : visits walker (rights.map (fun r => .destroy r.1 r.2) ++ ms.map Memo.free) = [] := by
  have hrights : visits walker (rights.map fun r => .destroy r.1 r.2) = [] := by simp [visits]
  rw [visits_append, hrights, List.nil_append]
  induction ms with
  | nil => rfl
  | cons m ms ih => cases m <;> exact ih

theorem visits_copyout_cleanEvents (d : Done) : visits .copyout d.cleanEvents = [] := visits_freed ..

theorem CopiedOut.cleaned (d : Done) (s : KmsgState) : CopiedOut d [] s (Done.cleaned [d] s) where
  size := rfl
  word := fun _ _ => rfl
  heap := by
    intro a ha
    simp [Done.cleaned, freeHeap, ha]
  log := ⟨d.cleanEvents, by simp [Done.cleaned], visits_copyout_cleanEvents d⟩

theorem run_cleanOne (h : d.Holds s) (hinline : d.type.inline = false)
    : (ipcKmsgCleanBody d.data (d.data - d.pos + 1) d.pos).run s = .ok (d.next, Done.cleaned [d] s) := by
  have hwords := words_pos d.type
  obtain ⟨hdata, hnext⟩ := d.ends
  rw [Done.run_cleanItem h (by omega) (by simp [hinline])]
  match hfuel : d.data - d.pos with
  | 0 => omega
  | fuel + 1 =>
    rw [ipcKmsgCleanBody, if_neg (by omega)]
    rfl

theorem run_copyoutOol (env : Env) (h : d.Holds s) (hinline : d.type.inline = false)
    (hnull : s.heap 0 = none) (mr : Nat)
    : ∃ r s', (copyoutOol env d.pos d.data d.type mr).run s = .ok (r, s') ∧ CopiedOut d [] s s' := by
  have hfits := h.fits
  have hnext : d.next = d.data + d.type.dataWords := rfl
  have hdw : d.type.dataWords = 1 := by simp [MsgType.dataWords, hinline]
  have hlt : d.data < s.body.size := by omega
  have hptr := (h.pointer hinline).1
  have hobjects : d.objects = .ool d.addr := by simp [Done.objects, hinline]
  unfold copyoutOol
  cases hport : d.type.isPort with
  | true =>
    simp only [if_true]
    by_cases hlen : d.type.length = 0
    . rw [if_neg (by omega), run_readWord hlt, hptr, ← hobjects]
      obtain ⟨mr', s1, hrun, hout, hframe⟩ := run_copyoutRights env h hport hnull mr
      have hlt1 : d.data < s1.body.size := by
        rw [hframe.size]
        exact hlt
      have hptr1 : s1.body.word d.data = 0 := by
        rw [hframe.word d.data (by simp [hobjects]), hptr, (h.pointer hinline).2 hlen]
      rw [run_bind_ok hrun, run_readWord hlt1, run_assert hptr1]
      exact ⟨_, s1, rfl, hout⟩
    . rw [if_pos hlen, run_call]
      generalize hs1 : ({ s with calls := s.calls + 1 } : KmsgState) = s1
      have hout1 : CopiedOut d [] s s1 := by
        rw [← hs1]
        exact .calls d s _
      have h1 : d.Holds s1 := by
        rw [← hs1]
        exact h.calls _
      cases hvm : env.vmAllocate s.calls with
      | error kr =>
        obtain ⟨bits, s2, hfail, hout2⟩ := run_vmCopyoutFailure (s := Done.cleaned [d] s1) h1.fits kr
        rw [run_bind_ok (run_cleanOne h1 hinline), run_bind_ok hfail]
        exact ⟨_, s2, rfl, (hout1.trans (.cleaned d s1)).trans hout2⟩
      | ok addr =>
        have hlt1 : d.data < s1.body.size := by
          rw [hout1.size]
          exact hlt
        have hnull1 : s1.heap 0 = none := by
          rw [← hs1]
          exact hnull
        rw [run_readWord hlt1, (h1.pointer hinline).1, ← hobjects]
        obtain ⟨mr', s2, hrun, hout2, hframe⟩ := run_copyoutRights env h1 hport hnull1 mr
        have hlt2 : d.data < s2.body.size := by
          rw [hframe.size]
          exact hlt1
        have hptr2 : s2.body.word d.data = d.addr := by
          rw [hframe.word d.data (by simp [hobjects]), (h1.pointer hinline).1]
        obtain ⟨blk, hblk, hsize⟩ := h1.block hinline hport hlen
        have hmap := hframe.heap_size d.addr
        rw [hblk] at hmap
        obtain ⟨blk', hblk', hsize'⟩ := Option.map_eq_some_iff.mp hmap
        have hwords : blk'.size = d.type.length / 4 := by
          have := h.length_eq hport
          omega
        rw [run_bind_ok hrun, run_readWord hlt2, hptr2, run_bind_ok (run_kfree hblk' hwords)]
        refine ⟨_, _, rfl, (hout1.trans hout2).trans ⟨rfl, fun _ _ => rfl, ?_, [.kfree d.addr], rfl, rfl⟩⟩
        intro a ha
        have hne : a ≠ d.addr := by
          rintro rfl
          rw [Done.kernel_mem_memory hinline hport hlen] at ha
          exact ha List.mem_cons_self
        exact Function.update_of_ne hne _ _
  | false =>
    simp only [Bool.false_eq_true, if_false]
    rw [run_readWord hlt]
    by_cases hlen : d.type.length = 0
    . have hzero : s.body.word d.data = 0 := by rw [hptr, (h.pointer hinline).2 hlen]
      rw [if_pos hlen, run_assert hzero]
      exact ⟨_, s, rfl, .refl d s⟩
    . rw [if_neg hlen, run_call]
      cases hvm : env.vmMapCopyout s.calls with
      | error kr =>
        rw [run_emit _]
        obtain ⟨bits, s2, hfail, hout2⟩ := run_vmCopyoutFailure
          (s := { s with calls := s.calls + 1, log := s.log ++ [.mapDiscard (s.body.word d.data)] })
          hfits kr
        rw [run_bind_ok hfail]
        have hout : CopiedOut d ([] ++ []) s s2 := (CopiedOut.emit _ _ rfl).trans hout2
        exact ⟨_, s2, rfl, hout⟩
      | ok addr =>
        exact ⟨_, _, rfl, .emit (.mapCopyout (s.body.word d.data)) _ rfl⟩

theorem run_copyoutItem (env : Env) (eaddr : Nat) (h : d.Holds s) (hnull : s.heap 0 = none)
    (hlt : d.pos < eaddr) (fuel mr : Nat) : ∃ mr' s', (ipcKmsgCopyoutBody env eaddr (fuel + 1) d.pos mr).run s =
          (ipcKmsgCopyoutBody env eaddr fuel d.next mr').run s' ∧ CopiedOut d [d.visit] s s' := by
  have hfits := h.fits
  have hwords := words_pos d.type
  obtain ⟨hdata, hnext⟩ := d.ends
  have hread : (readType d.pos).run s = .ok (d.type, s) := by
    rw [run_readType (by rw [h.type_eq]; omega), h.type_eq]
  rw [ipcKmsgCopyoutBody, if_pos hlt, run_bind_ok hread, run_emit _]
  generalize hs1 : ({ s with log := s.log ++ [.visit .copyout
    ⟨d.pos, d.pos + d.type.words, d.pos + d.type.words + d.type.dataWords⟩] } : KmsgState) = s1
  have hout1 : CopiedOut d [d.visit] s s1 := by
    rw [← hs1]
    exact .emit (.visit .copyout d.visit) _ rfl
  have h1 : d.Holds s1 := by
    rw [← hs1]
    exact h.log _
  have hnull1 : s1.heap 0 = none := by
    rw [← hs1]
    exact hnull
  cases hinline : d.type.inline with
  | true =>
    have hrights : ∃ mr' s2, (copyoutInline env (d.pos + d.type.words) d.type mr).run s1 =
        .ok (mr', s2) ∧ CopiedOut d [] s1 s2 := by
      unfold copyoutInline
      cases hport : d.type.isPort with
      | true =>
        have hobjects : d.objects = .inline (d.pos + d.type.words) := by
          simp [Done.objects, hinline, hdata]
        obtain ⟨mr', s2, hrun, hout, -⟩ := run_copyoutRights env h1 hport hnull1 mr
        rw [hobjects] at hrun
        exact ⟨mr', s2, hrun, hout⟩
      | false => exact ⟨mr, s1, rfl, .refl d s1⟩
    obtain ⟨mr', s2, hrun, hout2⟩ := hrights
    have hsize2 : d.pos < s2.body.size := by
      rw [hout2.size, hout1.size]
      omega
    simp only [if_true]
    rw [run_bind_ok hrun, run_readWord hsize2, run_writeWord hsize2 _]
    exact ⟨mr', _, rfl, (hout1.trans hout2).trans (.writeWord _ (by omega) (by omega))⟩
  | false =>
    have hdw : d.type.dataWords = 1 := by simp [MsgType.dataWords, hinline]
    obtain ⟨⟨addr, mr'⟩, s2, hrun, hout2⟩ := run_copyoutOol env h1 hinline hnull1 mr
    have hsize2 : d.pos < s2.body.size := by
      rw [hout2.size, hout1.size]
      omega
    have hlt2 : d.data < s2.body.size := by
      rw [hout2.size, hout1.size]
      omega
    simp only [Bool.false_eq_true, if_false]
    rw [hdata] at hrun hlt2
    rw [run_bind_ok hrun]
    rw [run_readWord hsize2, run_writeWord hsize2 _,
      run_writeWord (by exact hlt2) _]
    exact ⟨mr', _, rfl, ((hout1.trans hout2).trans (.writeWord _ (by omega) (by omega))).trans
      (.writeWord _ (by omega) (by omega))⟩

theorem run_copyoutBody (env : Env) (ds : List Done) {p q : Nat}
    (hchain : Chain p q (ds.map Done.toItem)) (hapart : ds.Pairwise Done.Apart)
    (hholds : ∀ d ∈ ds, d.Holds s) (hnull : s.heap 0 = none) (fuel mr : Nat) (hfuel : ds.length < fuel)
    : ∃ mr' s' evs, (ipcKmsgCopyoutBody env q fuel p mr).run s = .ok ((mr', q), s') ∧
        s'.log = s.log ++ evs ∧ visits .copyout evs = ds.map (fun d => d.visit) := by
  induction ds generalizing p s fuel mr with
  | nil =>
    match fuel, hfuel with
    | fuel + 1, _ =>
      cases hchain
      rw [ipcKmsgCopyoutBody, if_neg (Nat.lt_irrefl _)]
      exact ⟨mr, s, [], rfl, (List.append_nil _).symm, rfl⟩
  | cons d ds ih =>
    match fuel, hfuel with
    | fuel + 1, hfuel =>
      obtain ⟨hpos, hrest⟩ := hchain
      have hle := hrest.le
      have hlt := d.toItem.pos_lt_next
      have hd := hholds d List.mem_cons_self
      obtain ⟨mr1, s1, hrun, hout⟩ := run_copyoutItem env q hd hnull (by omega) fuel mr
      rw [List.pairwise_cons] at hapart
      have hholds1 : ∀ d' ∈ ds, d'.Holds s1 := by
        intro d' hd'
        apply (hholds d' (List.mem_cons_of_mem _ hd')).congr hout.size
        . intro p' hp' _
          have hge := hrest.pos_le (List.mem_map_of_mem hd')
          exact hout.word p' (Or.inr (by omega))
        . intro a ha
          exact hout.heap a fun hin => hapart.1 d' hd' a hin ha
      have hnull1 : s1.heap 0 = none := by
        rw [hout.heap 0 (hd.not_mem_memory hnull), hnull]
      obtain ⟨mr', s', evs', hrun', hlog', hvisits'⟩ := ih hrest hapart.2 hholds1 hnull1 fuel mr1 (by simpa using hfuel)
      obtain ⟨evs, hlog, hvisits⟩ := hout.log
      rw [← hpos, hrun]
      refine ⟨mr', s', evs ++ evs', hrun', ?_, ?_⟩
      . rw [hlog', hlog, List.append_assoc]
      . rw [visits_append, hvisits, hvisits']
        rfl

end Item

theorem visits_clean_cleanEvents (ds : List Done)
    : visits .clean (ds.flatMap Done.cleanEvents) = ds.map (fun d => d.visit) := by
  induction ds with
  | nil => rfl
  | cons d ds ih =>
    have hone : visits .clean d.cleanEvents = [d.visit] := congrArg (d.visit :: ·) (visits_freed ..)
    rw [List.flatMap_cons, visits_append, hone, ih]
    rfl

theorem walkers_agree (env env' : Env) (b : Block) (header : KmsgHeader) (hsize : b.size < 2 ^ 27)
    (hremote : ioValid header.remote = true) (c : Bool) (q : Nat) (s : KmsgState)
    (h : (ipcKmsgCopyinBody env header).run (.received b) = .ok ((.success, c, q), s)) : q = b.size ∧
      (∃ t, (ipcKmsgCleanBody b.size (b.size + 1) 0).run { s with log := [] } = .ok (b.size, t) ∧
        visits .clean t.log = visits .copyin s.log) ∧
      (∃ mr t, (ipcKmsgCopyoutBody env' b.size (b.size + 1) 0 0).run { s with log := [] } = .ok ((mr, b.size), t) ∧
        visits .copyout t.log = visits .copyin s.log) := by
  have hitems : ∀ it ∈ items b (b.size + 1) 0, ¬ it.Overflows := by
    exact not_overflows_of_accepted env header hsize _ false (copyinInv_received b) h
  obtain ⟨r, s', hrun, hres⟩ := run_copyinBody env hremote fun it hit => Item.number_lt (hitems it hit)
  rw [h] at hrun
  cases hrun
  cases hres with
  | refused hmr _ => exact absurd rfl hmr
  | @accepted ds _ _ hinv =>
    have hfuel : ds.length < b.size + 1 := by
      have hle := hinv.chain.le
      rw [List.length_map] at hle
      omega
    have hholds : ∀ d ∈ ds, d.Holds { s with log := [] } := fun d hd => (hinv.holds d hd).log []
    refine ⟨rfl, ⟨_, Done.run_cleanBody ds hinv.chain hinv.apart hholds _ hfuel, ?_⟩, ?_⟩
    . rw [hinv.visits, ← visits_clean_cleanEvents]
      rfl
    . obtain ⟨mr, t, evs, hout, hlog, hvisits⟩ := run_copyoutBody env' ds hinv.chain hinv.apart hholds
        hinv.null (b.size + 1) 0 hfuel
      refine ⟨mr, t, hout, ?_⟩
      rw [hlog, hinv.visits, ← hvisits]
      rfl

def inlineAndOol : Block where
  size := 4
  word := fun p =>
    if p = 0 then 19 + 32 * 2 ^ 8 + 2 ^ 16 + 2 ^ 28
    else if p = 2 then 17 + 32 * 2 ^ 8 + 2 * 2 ^ 16
    else 5

theorem walkers_agree_inlineAndOol
    : ∃ c q s, (ipcKmsgCopyinBody Env.generous ⟨1, 17, 0, 0⟩).run (.received inlineAndOol) =
        .ok ((.success, c, q), s) ∧ q = 4 ∧ (∃ t, (ipcKmsgCleanBody 4 5 0).run { s with log := [] } = .ok (4, t) ∧
        visits .clean t.log = visits .copyin s.log) ∧
      (∃ mr t, (ipcKmsgCopyoutBody Env.once 4 5 0 0).run { s with log := [] } = .ok ((mr, 4), t) ∧
        visits .copyout t.log = visits .copyin s.log) := by
  have haccepted : ((ipcKmsgCopyinBody Env.generous ⟨1, 17, 0, 0⟩).run
      (.received inlineAndOol)).toOption.map (fun r => r.1.1) = some .success := by
    decide +kernel
  cases h : (ipcKmsgCopyinBody Env.generous ⟨1, 17, 0, 0⟩).run (.received inlineAndOol) with
  | error e =>
    rw [h] at haccepted
    contradiction
  | ok r =>
    obtain ⟨⟨mr, c, q⟩, s⟩ := r
    rw [h] at haccepted
    cases haccepted
    exact ⟨c, q, s, rfl, walkers_agree Env.generous Env.once inlineAndOol ⟨1, 17, 0, 0⟩ (by decide)
      (by decide) c q s h⟩

def ipcKmsgClean (header : KmsgHeader) (complex : Bool) (eaddr : Nat) : KmsgM Unit := do
  if ioValid header.remote then emit (.destroy header.remote header.remoteType)
  if ioValid header.localPort then emit (.destroy header.localPort header.localType)
  if complex then
    let _ ← ipcKmsgCleanBody eaddr (eaddr + 1) 0

theorem run_ipcKmsgClean {header : KmsgHeader} {s : KmsgState} {ds : List Done} {q : Nat} (c : Bool)
    (hremote : ioValid header.remote = true) (hchain : Chain 0 q (ds.map Done.toItem))
    (hapart : ds.Pairwise Done.Apart) (hholds : ∀ d ∈ ds, d.Holds s)
    : (ipcKmsgClean header c q).run { s with log := [] } = .ok ((), Done.cleaned (if c then ds else [])
        { s with log := header.rights.map fun r => .destroy r.1 r.2 }) := by
  rw [ipcKmsgClean, hremote]
  cases c with
  | true =>
    have hle := hchain.le
    rw [List.length_map] at hle
    have hclean := Done.run_cleanBody ds hchain hapart (fun d hd => (hholds d hd).log
      (header.rights.map fun r => .destroy r.1 r.2)) (q + 1) (by omega)
    revert hclean
    unfold KmsgHeader.rights
    cases ioValid header.localPort <;> exact run_bind_ok (f := fun _ => pure ())
  | false =>
    show _ = Except.ok ((), Done.cleaned [] _)
    rw [Done.cleaned_nil]
    unfold KmsgHeader.rights
    cases ioValid header.localPort <;> rfl

theorem ipcKmsgClean_releases (env : Env) (b : Block) (header : KmsgHeader) (hsize : b.size < 2 ^ 27)
    (hremote : ioValid header.remote = true) {s : KmsgState}
    (h : (ipcKmsgCopyinBody env header).run (.received b) = .ok ((.success, c, q), s))
    : ∃ t, (ipcKmsgClean header c q).run { s with log := [] } = .ok ((), t) ∧
        destroyed t.log = header.rights ++ copiedIn s.log ∧ freed t.log = acquired s.log := by
  have hitems : ∀ it ∈ items b (b.size + 1) 0, ¬ it.Overflows := by
    exact not_overflows_of_accepted env header hsize _ false (copyinInv_received b) h
  obtain ⟨r, s', hrun, hres⟩ := run_copyinBody env hremote fun it hit => Item.number_lt (hitems it hit)
  rw [h] at hrun
  cases hrun
  cases hres with
  | refused hmr _ => exact absurd rfl hmr
  | @accepted ds _ _ hinv hsimple =>
    refine ⟨_, run_ipcKmsgClean c hremote hinv.chain hinv.apart hinv.holds, ?_⟩
    rw [hinv.copied, hinv.acquired]
    cases c with
    | true =>
      have hreleases := (Releases.ofRights header.rights).append (Releases.ofItems ds)
      exact ⟨hreleases.destroyed, hreleases.freed⟩
    | false =>
      -- the walk is left out, and the items hold nothing
      have hreleases := (Releases.ofRights header.rights).append (Releases.ofItems [])
      have hrights : ds.flatMap Done.rights = [] := List.flatMap_eq_nil_iff.2 fun d hd => (hsimple rfl d hd).1
      have hmemory : ds.flatMap Done.memory = [] := List.flatMap_eq_nil_iff.2 fun d hd => (hsimple rfl d hd).2
      rw [hrights, hmemory]
      exact ⟨hreleases.destroyed, hreleases.freed⟩

def Env.seven : Env := { Env.once with objectCopyin := fun _ => some 7 }

theorem ipcKmsgClean_releases_twoRights : ∃ s t, (ipcKmsgClean ⟨1, 17, 0, 0⟩ true 3).run s = .ok ((), t) ∧
      destroyed t.log = [(1, 17), (7, 17), (7, 17)] := by
  obtain ⟨s, hs, hcopied⟩ : ∃ s, (ipcKmsgCopyinBody .seven ⟨1, 17, 0, 0⟩).run (.received twoRights) =
      .ok ((.success, true, 3), s) ∧ copiedIn s.log = [(7, 17), (7, 17)] := ⟨_, rfl, rfl⟩
  obtain ⟨t, ht, hlog, -⟩ := ipcKmsgClean_releases .seven twoRights ⟨1, 17, 0, 0⟩ (by decide) rfl hs
  rw [hcopied] at hlog
  exact ⟨_, t, ht, hlog⟩

end Ipc
