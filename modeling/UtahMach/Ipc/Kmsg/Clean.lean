import UtahMach.Ipc.Kmsg.Items

/-!
This module contains what the functions that clean a message destroy.
-/

namespace Ipc

open MsgType

open KmsgM

@[simp]
theorem slot?_log (s : KmsgState) (log : List KmsgEvent) (objects : Objects) (i : Nat)
    : ({ s with log := log } : KmsgState).slot? objects i = s.slot? objects i := by
  cases objects <;> rfl

theorem run_destroySlots {s : KmsgState} {objects : Objects} {i : Nat} (name : Nat)
    (objs : List Nat) (h : ∀ j, j < objs.length → s.slot? objects (i + j) = objs[j]?)
    : (destroySlots objects name objs.length i).run s = .ok ((),
        { s with log := s.log ++ (objs.filter ioValid).map (.destroy · name) }) := by
  induction objs generalizing s i with
  | nil =>
    simp only [List.filter_nil, List.map_nil, List.append_nil]
    rfl
  | cons w objs ih =>
    have hw : s.slot? objects i = some w := h 0 (by simp)
    have hrest : ∀ (log : List KmsgEvent) j, j < objs.length →
        ({ s with log := log } : KmsgState).slot? objects (i + 1 + j) = objs[j]? := by
      intro log j hj
      rw [slot?_log, Nat.add_right_comm, Nat.add_assoc]
      exact h (j + 1) (by simpa using hj)
    rw [List.length_cons, destroySlots, run_readSlot hw]
    cases hv : ioValid w with
    | true =>
      simp only [if_true]
      rw [run_emit _]
      rw [ih (hrest _)]
      simp [hv]
    | false =>
      simp only [Bool.false_eq_true, if_false]
      rw [ih (hrest s.log)]
      simp [hv]

namespace Memo

def free : Memo → KmsgEvent
  | kernel addr => .kfree addr
  | copy c => .mapDiscard c

end Memo

def freeHeap (heap : Nat → Option Block) (ms : List Memo) : Nat → Option Block :=
  fun a => if Memo.kernel a ∈ ms then none else heap a

theorem freeHeap_nil (heap : Nat → Option Block) : freeHeap heap [] = heap := by
  funext a
  simp [freeHeap]

theorem freeHeap_append (heap : Nat → Option Block) (ms ms' : List Memo)
    : freeHeap (freeHeap heap ms) ms' = freeHeap heap (ms ++ ms') := by
  funext a
  by_cases h : Memo.kernel a ∈ ms <;> by_cases h' : Memo.kernel a ∈ ms' <;> simp [freeHeap, h, h']

namespace Done

variable {d : Done} {s s' : KmsgState}

def cleanEvents (d : Done) : List KmsgEvent :=
  .visit .clean d.visit :: (d.rights.map (fun r => .destroy r.1 r.2) ++ d.memory.map Memo.free)

def cleaned (ds : List Done) (s : KmsgState) : KmsgState :=
  { s with
    heap := freeHeap s.heap (ds.flatMap memory)
    log := s.log ++ ds.flatMap cleanEvents }

theorem Holds.dataWords_eq (h : d.Holds s) (hinline : d.type.inline = true)
    (hport : d.type.isPort = true) : d.type.dataWords = d.type.number := by
  have hlen := h.length_eq hport
  simp only [dataWords, hinline, if_true, hlen]
  omega

theorem kernel_mem_memory (hinline : d.type.inline = false) (hport : d.type.isPort = true)
    (hlen : d.type.length ≠ 0) : d.memory = [.kernel d.addr] := by
  simp [memory, hinline, hport, hlen]

theorem of_kernel_mem_memory (h : Memo.kernel a ∈ d.memory)
    : d.type.inline = false ∧ d.type.isPort = true ∧ d.type.length ≠ 0 ∧ a = d.addr := by
  unfold memory at h
  cases hinline : d.type.inline <;> cases hport : d.type.isPort <;>
    by_cases hlen : d.type.length = 0 <;> simp_all

theorem Holds.not_mem_memory (h : d.Holds s) (ha : s.heap a = none) : Memo.kernel a ∉ d.memory := by
  intro hin
  obtain ⟨hinline, hport, hlen, rfl⟩ := of_kernel_mem_memory hin
  obtain ⟨blk, hblk, -⟩ := h.block hinline hport hlen
  rw [ha] at hblk
  contradiction

theorem Holds.congr (h : d.Holds s) (hsize : s'.body.size = s.body.size)
    (hword : ∀ p, d.pos ≤ p → p < d.next → s'.body.word p = s.body.word p)
    (hheap : ∀ a, Memo.kernel a ∈ d.memory → s'.heap a = s.heap a) : d.Holds s' := by
  obtain ⟨hdata, hnext⟩ := d.ends
  exact { h with
    fits := by
      rw [hsize]
      exact h.fits
    type_eq := by
      rw [← h.type_eq]
      apply typeAt_congr
      intro p hp hlt
      rw [h.type_eq] at hlt
      apply hword p hp
      omega
    pointer := by
      intro hinline
      have hone : d.type.dataWords = 1 := by simp [dataWords, hinline]
      rw [hword d.data (by omega) (by omega)]
      exact h.pointer hinline
    slots := by
      intro hport i hi
      rw [← h.slots hport i hi]
      cases hinline : d.type.inline with
      | true =>
        have hdw := h.dataWords_eq hinline hport
        simp only [objects, hinline, if_true, KmsgState.slot?, hsize]
        rw [hword (d.data + i) (by omega) (by omega)]
      | false =>
        have hlen : d.type.length ≠ 0 := by
          rw [h.length_eq hport]
          omega
        have hmem := kernel_mem_memory hinline hport hlen
        simp only [objects, hinline, Bool.false_eq_true, if_false, KmsgState.slot?]
        rw [hheap d.addr (by simp [hmem])]
    block := by
      intro hinline hport hlen
      have hmem := kernel_mem_memory hinline hport hlen
      rw [hheap d.addr (by simp [hmem])]
      exact h.block hinline hport hlen
  }

theorem run_destroyRights (h : d.Holds s) (hport : d.type.isPort = true) (log : List KmsgEvent)
    : (destroySlots d.objects d.type.name d.type.number 0).run { s with log := log } = .ok ((),
        { s with log := log ++ d.rights.map (fun r => .destroy r.1 r.2) }) := by
  have hslots : ∀ j, j < d.objs.length →
      ({ s with log := log } : KmsgState).slot? d.objects (0 + j) = d.objs[j]? := by
    intro j hj
    rw [slot?_log, Nat.zero_add]
    apply h.slots hport
    rwa [← h.objs_length hport]
  rw [← h.objs_length hport, run_destroySlots _ _ hslots]
  simp only [rights, hport, if_true, List.map_map]
  rfl

theorem run_destroyMemory (h : d.Holds s) (hinline : d.type.inline = false) (log : List KmsgEvent)
    : (destroyMemory d.type d.addr).run { s with log := log } = .ok ((),
        { s with heap := freeHeap s.heap d.memory, log := log ++ d.memory.map Memo.free }) := by
  unfold destroyMemory
  by_cases hlen : d.type.length = 0
  . have haddr := (h.pointer hinline).2 hlen
    have hmem : d.memory = [] := by simp [memory, hlen]
    rw [if_pos hlen, KmsgM.assert, if_pos haddr, run_pure, hmem, freeHeap_nil]
    simp
  . rw [if_neg hlen]
    cases hport : d.type.isPort with
    | true =>
      obtain ⟨b, hb, hsize⟩ := h.block hinline hport hlen
      have hmem := kernel_mem_memory hinline hport hlen
      have hwords : b.size = d.type.length / 4 := by
        rw [hsize, h.length_eq hport]
        omega
      have hheap : freeHeap s.heap [.kernel d.addr] = Function.update s.heap d.addr none := by
        funext a
        simp [freeHeap, Function.update_apply]
      simp only [if_true]
      rw [run_kfree (s := { s with log := log }) hb hwords, hmem, hheap]
      rfl
    | false =>
      have hmem : d.memory = [.copy d.addr] := by simp [memory, hinline, hlen, hport]
      have hheap : freeHeap s.heap [.copy d.addr] = s.heap := by
        funext a
        simp [freeHeap]
      rw [hmem, hheap]
      rfl

theorem run_cleanItem (h : d.Holds s) (hlt : d.pos < eaddr)
    (hle : d.type.inline = true → d.next ≤ eaddr) (fuel : Nat) : (ipcKmsgCleanBody eaddr (fuel + 1) d.pos).run s =
        (ipcKmsgCleanBody eaddr fuel d.next).run (cleaned [d] s) := by
  have hfits := h.fits
  have hnext : d.next = d.pos + d.type.words + d.type.dataWords := rfl
  have hvisit : d.visit = ⟨d.pos, d.pos + d.type.words, d.pos + d.type.words + d.type.dataWords⟩ := rfl
  have hread : (readType d.pos).run s = .ok (d.type, s) := by
    rw [run_readType, h.type_eq]
    rw [h.type_eq]
    omega
  rw [ipcKmsgCleanBody, if_pos hlt, run_bind_ok hread, run_emit _]
  cases hinline : d.type.inline with
  | true =>
    have hmem : d.memory = [] := by simp [memory, hinline]
    have hobjects : d.objects = .inline (d.pos + d.type.words) := by
      simp only [objects, hinline, if_true]
      rfl
    cases hport : d.type.isPort with
    | true =>
      have hdw := h.dataWords_eq hinline hport
      have hle' := hle hinline
      have hmin : min d.type.number (eaddr - (d.pos + d.type.words)) = d.type.number := by omega
      have hdestroy := run_destroyRights h hport (s.log ++ [.visit .clean d.visit])
      rw [hobjects, hvisit] at hdestroy
      simp only [if_true]
      rw [run_assert (by omega), hmin, run_bind_ok hdestroy]
      simp [cleaned, cleanEvents, hmem, freeHeap_nil, hnext, hvisit]
    | false =>
      have hrights : d.rights = [] := by simp [rights, hport]
      simp [cleaned, cleanEvents, hmem, freeHeap_nil, hrights, hnext, hvisit]
  | false =>
    have hone : d.type.dataWords = 1 := by simp [dataWords, hinline]
    have hobjects : d.objects = .ool d.addr := by simp [objects, hinline]
    have hword : s.body.word (d.pos + d.type.words) = d.addr := (h.pointer hinline).1
    simp only [Bool.false_eq_true, if_false]
    rw [run_readWord (by show _ < s.body.size; omega)]
    simp only [hword]
    cases hport : d.type.isPort with
    | true =>
      have hdestroy := run_destroyRights h hport (s.log ++ [.visit .clean d.visit])
      rw [hobjects, hvisit] at hdestroy
      simp only [if_true]
      rw [run_bind_ok hdestroy, run_bind_ok (run_destroyMemory h hinline _)]
      simp [cleaned, cleanEvents, hnext, hvisit]
    | false =>
      have hrights : d.rights = [] := by simp [rights, hport]
      simp only [Bool.false_eq_true, if_false]
      rw [run_bind_ok (run_destroyMemory h hinline _)]
      simp [cleaned, cleanEvents, hrights, hnext, hvisit]

theorem cleaned_nil (s : KmsgState) : cleaned [] s = s := by
  simp [cleaned, freeHeap_nil]

def Apart (d d' : Done) : Prop := ∀ a, Memo.kernel a ∈ d.memory → Memo.kernel a ∉ d'.memory

theorem Holds.cleaned (h : d'.Holds s) (hapart : Apart d d') : d'.Holds (cleaned [d] s) := by
  have hheap : ∀ a, Memo.kernel a ∈ d'.memory → (Done.cleaned [d] s).heap a = s.heap a := by
    intro a ha
    have hnot : Memo.kernel a ∉ d.memory := fun hin => hapart a hin ha
    simp [Done.cleaned, freeHeap, hnot]
  exact h.congr rfl (fun _ _ _ => rfl) hheap

theorem cleaned_cons (d : Done) (ds : List Done) (s : KmsgState)
    : cleaned ds (cleaned [d] s) = cleaned (d :: ds) s := by
  simp [cleaned, freeHeap_append, List.flatMap_cons]

theorem run_cleanBody (ds : List Done) {p q : Nat} (hchain : Chain p q (ds.map Done.toItem))
    (hapart : ds.Pairwise Apart) (hholds : ∀ d ∈ ds, d.Holds s) (fuel : Nat) (hfuel : ds.length < fuel)
    : (ipcKmsgCleanBody q fuel p).run s = .ok (q, cleaned ds s) := by
  induction ds generalizing p s fuel with
  | nil =>
    match fuel, hfuel with
    | fuel + 1, _ =>
      have hpq : p = q := hchain
      rw [ipcKmsgCleanBody, if_neg (by omega), hpq, cleaned_nil]
      rfl
  | cons d ds ih =>
    match fuel, hfuel with
    | fuel + 1, hfuel =>
      obtain ⟨hpos, hrest⟩ := hchain
      rw [List.pairwise_cons] at hapart
      have hle := hrest.le
      have hlt := d.toItem.pos_lt_next
      have hd := hholds d List.mem_cons_self
      rw [← hpos, run_cleanItem hd (by omega) (by omega)]
      rw [ih hrest hapart.2 ?_ fuel (by simpa using hfuel), cleaned_cons]
      intro d' hd'
      exact (hholds d' (List.mem_cons_of_mem _ hd')).cleaned (hapart.1 d' hd')

end Done

def KmsgHeader.rights (header : KmsgHeader) : List (Nat × Nat) :=
  (header.remote, header.remoteType) ::
    if ioValid header.localPort then [(header.localPort, header.localType)] else []

theorem run_destroyHeader {s : KmsgState} {header : KmsgHeader} (hremote : ioValid header.remote = true)
    : (destroyHeader header).run s = .ok ((),
        { s with log := s.log ++ header.rights.map (fun r => .destroy r.1 r.2) }) := by
  rw [destroyHeader, run_assert hremote, run_emit _]
  cases hl : ioValid header.localPort with
  | true =>
    simp only [if_true]
    rw [emit, run_modify]
    simp [KmsgHeader.rights, hl]
  | false =>
    simp only [Bool.false_eq_true, if_false]
    rw [run_pure]
    simp [KmsgHeader.rights, hl]

section Partial

variable {s : KmsgState} {header : KmsgHeader} {ds : List Done} {q : Nat}

theorem Done.Holds.log {d : Done} (h : d.Holds s) (log : List KmsgEvent) : d.Holds { s with log := log } :=
  h.congr rfl (fun _ _ _ => rfl) (fun _ _ => rfl)

section

variable (hremote : ioValid header.remote = true) (hchain : Chain 0 q (ds.map Done.toItem))
include hremote hchain

theorem run_cleanPartial (hapart : ds.Pairwise Done.Apart) (hholds : ∀ d ∈ ds, d.Holds s)
    : (ipcKmsgCleanPartial header q false 0).run s = .ok ((), Done.cleaned ds
        { s with log := s.log ++ header.rights.map (fun r => .destroy r.1 r.2) }) := by
  have hle := hchain.le
  rw [List.length_map] at hle
  rw [ipcKmsgCleanPartial, run_bind_ok (run_destroyHeader hremote)]
  rw [run_bind_ok (Done.run_cleanBody ds hchain hapart (fun d hd => (hholds d hd).log _) (q + 1)
    (by omega))]
  rfl

theorem run_cleanPartial_last (hholds : ∀ d ∈ ds, d.Holds s) {last : Done}
    (hapart : (ds ++ [last]).Pairwise Done.Apart) (hpos : last.pos = q) (hlast : last.Holds s)
    (hport : last.type.isPort = true) {i : Nat} (hi : i ≤ last.type.number)
    : ∃ s', (ipcKmsgCleanPartial header q true i).run s = .ok ((), s') ∧
        s'.log = s.log ++ (header.rights.map (fun r => .destroy r.1 r.2) ++ (ds.flatMap Done.cleanEvents ++
            (((last.objs.take i).filter ioValid).map (.destroy · last.type.name) ++
              last.memory.map Memo.free))) := by
  have hle := hchain.le
  rw [List.length_map] at hle
  rw [List.pairwise_append] at hapart
  obtain ⟨hapart, -, hlastApart⟩ := hapart
  have hnext : last.next = last.pos + last.type.words + last.type.dataWords := rfl
  have hholds' : ∀ d ∈ ds, d.Holds
      { s with log := s.log ++ header.rights.map (fun r => .destroy r.1 r.2) } := fun d hd =>
    (hholds d hd).log _
  generalize hs1 : Done.cleaned ds { s with log := s.log ++ header.rights.map (fun r => .destroy r.1 r.2) } = s1
  have hlast1 : last.Holds s1 := by
    apply hlast.congr (by rw [← hs1]; rfl) (fun _ _ _ => by rw [← hs1]; rfl)
    intro a ha
    have hnot : Memo.kernel a ∉ ds.flatMap Done.memory := by
      intro hin
      obtain ⟨d, hd, hda⟩ := List.mem_flatMap.mp hin
      exact hlastApart d hd last List.mem_cons_self a hda ha
    rw [← hs1]
    simp [Done.cleaned, freeHeap, hnot]
  have hlog1 : s1.log = s.log ++ (header.rights.map (fun r => .destroy r.1 r.2) ++
      ds.flatMap Done.cleanEvents) := by
    rw [← hs1]
    simp [Done.cleaned]
  have hclean : (ipcKmsgCleanBody q (q + 1) 0).run
      { s with log := s.log ++ header.rights.map (fun r => .destroy r.1 r.2) } = .ok (q, s1) := by
    rw [Done.run_cleanBody ds hchain hapart hholds' (q + 1) (by omega), hs1]
  have hfits1 := hlast1.fits
  have hread : (readType q).run s1 = .ok (last.type, s1) := by
    rw [← hpos, run_readType, hlast1.type_eq]
    rw [hlast1.type_eq]
    omega
  have hlen : (last.objs.take i).length = i := by
    rw [List.length_take, hlast1.objs_length hport]
    omega
  have hdestroy : (destroySlots last.objects last.type.name i 0).run s1 = .ok ((), { s1 with
      log := s1.log ++ ((last.objs.take i).filter ioValid).map (.destroy · last.type.name) }) := by
    have hslots : ∀ j, j < (last.objs.take i).length →
        s1.slot? last.objects (0 + j) = (last.objs.take i)[j]? := by
      intro j hj
      rw [hlen] at hj
      rw [Nat.zero_add, List.getElem?_take_of_lt hj]
      exact hlast1.slots hport j (by omega)
    have hrun := run_destroySlots last.type.name (last.objs.take i) hslots
    rwa [hlen] at hrun
  rw [ipcKmsgCleanPartial, run_bind_ok (run_destroyHeader hremote), run_bind_ok hclean]
  simp only [if_true]
  rw [run_bind_ok hread]
  cases hinline : last.type.inline with
  | true =>
    have hmem : last.memory = [] := by simp [Done.memory, hinline]
    have hobjects : last.objects = .inline (q + last.type.words) := by
      rw [← hpos]
      simp only [Done.objects, hinline, if_true]
      rfl
    rw [hobjects] at hdestroy
    refine ⟨{ s1 with
      log := s1.log ++ ((last.objs.take i).filter ioValid).map (.destroy · last.type.name) }, ?_, ?_⟩
    . simp only [hport, if_true, Bool.not_true, Bool.false_eq_true, if_false]
      rw [run_bind_ok (run_pure _), run_bind_ok hdestroy]
      rfl
    . simp [hlog1, hmem]
  | false =>
    have hone : last.type.dataWords = 1 := by simp [dataWords, hinline]
    have hobjects : last.objects = .ool last.addr := by simp [Done.objects, hinline]
    have haddr : s1.body.word (q + last.type.words) = last.addr := hpos ▸ (hlast1.pointer hinline).1
    rw [hobjects] at hdestroy
    refine ⟨{ s1 with
      heap := freeHeap s1.heap last.memory
      log := s1.log ++ ((last.objs.take i).filter ioValid).map (.destroy · last.type.name) ++
        last.memory.map Memo.free }, ?_, ?_⟩
    . simp only [hport, if_true, Bool.not_false, Bool.false_eq_true, if_false]
      rw [run_readWord (by omega), haddr, run_bind_ok hdestroy]
      exact Done.run_destroyMemory hlast1 hinline _
    . simp [hlog1]

end

end Partial

end Ipc
