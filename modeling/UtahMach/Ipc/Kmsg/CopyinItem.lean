import UtahMach.Ipc.Kmsg.Copyin

/-!
This module contains what one round of `ipc_kmsg_copyin_body` does to the message.
-/

namespace Ipc

open Function MsgType KmsgState

open KmsgM

section Port

theorem length_of_port {t : MsgType} (h : t.size = portTSizeInBits) : t.length = 4 * (t.number % 2 ^ 27) := by
  simp only [length, h, portTSizeInBits]
  omega

theorem ipcObjectCopyinType_of_port {name : Nat} (h : MachMsgType.portAny name = true)
    : ∃ newname, ipcObjectCopyinType name = some newname ∧ MachMsgType.portAny newname = true ∧ newname < 256 := by
  simp only [MachMsgType.portAny, Bool.and_eq_true, decide_eq_true_eq] at h
  simp only [MachMsgType.moveReceive, MachMsgType.makeSendOnce] at h
  have hcases : name = 16 ∨ name = 17 ∨ name = 18 ∨ name = 19 ∨ name = 20 ∨ name = 21 := by omega
  rcases hcases with rfl | rfl | rfl | rfl | rfl | rfl
  . exact ⟨16, by decide⟩
  . exact ⟨17, by decide⟩
  . exact ⟨18, by decide⟩
  . exact ⟨17, by decide⟩
  . exact ⟨17, by decide⟩
  . exact ⟨18, by decide⟩

theorem nameWord_lt (t : MsgType) (pos : Nat) : pos ≤ nameWord t pos ∧ nameWord t pos < pos + t.words := by
  unfold nameWord words
  split <;> omega

variable {s : KmsgState} {pos : Nat}

theorem run_copyinPorts_eq (env : Env) (objects : Objects) (hport : (typeAt s.body pos).isPort = true)
    (hfits : pos + (typeAt s.body pos).words ≤ s.body.size)
    : ∃ newname, ipcObjectCopyinType (typeAt s.body pos).name = some newname ∧
        MachMsgType.portAny newname = true ∧ newname < 256 ∧ (copyinPorts env pos (typeAt s.body pos) objects).run s =
          (copyinSlots env (typeAt s.body pos).name newname objects (typeAt s.body pos).number 0).run
            { s with body := s.body.setName pos newname } := by
  obtain ⟨newname, hname, hport', hlt⟩ := ipcObjectCopyinType_of_port hport
  have hnw := nameWord_lt (typeAt s.body pos) pos
  refine ⟨newname, hname, hport', hlt, ?_⟩
  rw [copyinPorts, hname]
  cases hlong : (typeAt s.body pos).longform with
  | true =>
    simp only [Block.setName, nameWord, hlong, if_true] at hnw ⊢
    rw [run_readWord (by omega), run_writeWord (by omega) _]
  | false =>
    simp only [Block.setName, nameWord, hlong, Bool.false_eq_true, if_false] at hnw ⊢
    rw [run_readWord (by omega), run_writeWord (by omega) _]

theorem word_setName {p : Nat} (newname : Nat) (hp : p < pos ∨ pos + (typeAt s.body pos).words ≤ p)
    : (s.body.setName pos newname).word p = s.body.word p := by
  have hnw := nameWord_lt (typeAt s.body pos) pos
  have hne : p ≠ nameWord (typeAt s.body pos) pos := by omega
  exact update_of_ne hne _ _

theorem slot?_setName {objects : Objects} (newname j : Nat)
    (hdata : ∀ p, objects = .inline p → pos + (typeAt s.body pos).words ≤ p)
    : ({ s with body := s.body.setName pos newname } : KmsgState).slot? objects j =
        s.slot? objects j := by
  cases objects with
  | inline p =>
    have hle := hdata p rfl
    have hout : p + j < pos ∨ pos + (typeAt s.body pos).words ≤ p + j := Or.inr (by omega)
    simp only [slot?, word_setName newname hout]
    rfl
  | ool a => rfl

theorem run_copyinPorts (env : Env) (objects : Objects) (hport : (typeAt s.body pos).isPort = true)
    (hfits : pos + (typeAt s.body pos).words ≤ s.body.size)
    (hin : ∀ j, j < (typeAt s.body pos).number → (s.slot? objects j).isSome)
    (hdata : ∀ p, objects = .inline p → pos + (typeAt s.body pos).words ≤ p)
    : ∃ r s' objs newname s1, (copyinPorts env pos (typeAt s.body pos) objects).run s = .ok (r, s') ∧
        ((∀ c, (env.objectCopyin c).isSome) → r = none) ∧ ipcObjectCopyinType (typeAt s.body pos).name = some newname ∧
        MachMsgType.portAny newname = true ∧ s1.heap = s.heap ∧ s1.log = s.log ∧ s1.calls = s.calls ∧
        s1.body.size = s.body.size ∧
        (∀ p, p < pos ∨ pos + (typeAt s.body pos).words ≤ p → s1.body.word p = s.body.word p) ∧
        typeAt s1.body pos = { typeAt s.body pos with name := newname } ∧
        CopiedSlots newname objects (typeAt s.body pos).number (typeAt s.body pos).number 0 s1 s' r
          objs := by
  obtain ⟨newname, hname, hport', hlt, heq⟩ := run_copyinPorts_eq env objects hport hfits
  obtain ⟨r, s', objs, hrun, hcopied, hsuccess⟩ := run_copyinSlots
    (s := { s with body := s.body.setName pos newname }) env objects hname
    (typeAt s.body pos).number (typeAt s.body pos).number 0 (by omega) (by
      intro j _ hj
      rw [slot?_setName newname j hdata]
      exact hin j (by omega))
  exact ⟨r, s', objs, newname, { s with body := s.body.setName pos newname }, heq.trans hrun,
    hsuccess, hname, hport', rfl, rfl, rfl, rfl, fun p hp => word_setName newname hp, typeAt_setName hlt, hcopied⟩

end Port

structure Entered (s : KmsgState) (ds : List Done) (d : Done) (s' : KmsgState) : Prop where
  size : s'.body.size = s.body.size
  word : ∀ p, p < d.pos ∨ d.next ≤ p → s'.body.word p = s.body.word p
  heap : ∀ a, Memo.kernel a ∈ ds.flatMap Done.memory → s'.heap a = s.heap a
  null : s'.heap 0 = none
  holds : d.Holds s'
  apart : ∀ d' ∈ ds, Done.Apart d' d

structure CopyinInv (b : Block) (s : KmsgState) (ds : List Done) (pos : Nat) : Prop where
  size : s.body.size = b.size
  rest : ∀ p, pos ≤ p → s.body.word p = b.word p
  chain : Chain 0 pos (ds.map Done.toItem)
  apart : ds.Pairwise Done.Apart
  holds : ∀ d ∈ ds, d.Holds s
  null : s.heap 0 = none
  copied : copiedIn s.log = ds.flatMap Done.rights
  destroyed : destroyed s.log = []
  acquired : acquired s.log = ds.flatMap Done.memory
  freed : freed s.log = []
  visits : visits .copyin s.log = ds.map (fun d => d.visit)

section Step

theorem Entered.holds_before (h : Entered s ds d s') (hinv : CopyinInv b s ds pos)
    (hpos : d.pos = pos) : ∀ d' ∈ ds, d'.Holds s' := by
  intro d' hd'
  apply (hinv.holds d' hd').congr h.size
  . intro p _ hlt
    have hle := hinv.chain.next_le (List.mem_map_of_mem hd')
    apply h.word p
    omega
  . intro a ha
    exact h.heap a (List.mem_flatMap.mpr ⟨d', hd', ha⟩)

theorem Entered.pairwise (h : Entered s ds d s') (hinv : CopyinInv b s ds pos) : (ds ++ [d]).Pairwise Done.Apart := by
  rw [List.pairwise_append]
  refine ⟨hinv.apart, List.pairwise_singleton _ _, ?_⟩
  intro d' hd' d'' hd''
  rw [List.mem_singleton] at hd''
  rw [hd'']
  exact h.apart d' hd'

theorem CopyinInv.snoc (hinv : CopyinInv b s ds pos) (h : Entered s ds d s') (hpos : d.pos = pos)
    (hlog : s'.log = s.log ++ evs) (hcopied : copiedIn evs = d.rights)
    (hdestroyed : Ipc.destroyed evs = []) (hacquired : Ipc.acquired evs = d.memory)
    (hfreed : Ipc.freed evs = []) (hvisits : Ipc.visits .copyin evs = [d.visit])
    : CopyinInv b s' (ds ++ [d]) d.next where
  size := h.size.trans hinv.size
  rest := by
    intro p hp
    have hlt := d.toItem.pos_lt_next
    rw [h.word p (Or.inr hp)]
    apply hinv.rest
    omega
  chain := by
    rw [List.map_append]
    exact hinv.chain.append ⟨hpos, rfl⟩
  apart := h.pairwise hinv
  holds := List.forall_mem_append.2 ⟨h.holds_before hinv hpos, List.forall_mem_singleton.2 h.holds⟩
  null := h.null
  copied := by simp [hlog, hinv.copied, hcopied]
  destroyed := by simp [hlog, hinv.destroyed, hdestroyed]
  acquired := by simp [hlog, hinv.acquired, hacquired]
  freed := by simp [hlog, hinv.freed, hfreed]
  visits := by simp [hlog, hinv.visits, hvisits]

inductive ItemResult (b : Block) (s : KmsgState) (ds : List Done) (it : Item)
    : Except CopyinFailure (Bool × Nat) → KmsgState → Prop
  | done {d : Done} {s' : KmsgState} (c : Bool) (hinv : CopyinInv b s' (ds ++ [d]) it.next)
    (hsimple : c = false → d.rights = [] ∧ d.memory = []) : ItemResult b s ds it (.ok (c, it.next)) s'
  | memory {s' : KmsgState} {evs : List KmsgEvent} (hbody : s'.body = s.body)
    (hheap : s'.heap = s.heap) (hlog : s'.log = s.log ++ evs) (hcopied : copiedIn evs = [])
    (hdestroyed : destroyed evs = []) (hmemory : acquired evs = freed evs)
    : ItemResult b s ds it (.error ⟨.sendInvalidMemory, false, 0⟩) s'
  | right {d : Done} {s' : KmsgState} {evs : List KmsgEvent} {i : Nat} (h : Entered s ds d s')
    (hpos : d.pos = it.pos) (hport : d.type.isPort = true) (hi : i ≤ d.type.number)
    (hlog : s'.log = s.log ++ evs)
    (hcopied : copiedIn evs = ((d.objs.take i).filter ioValid).map (·, d.type.name))
    (hdestroyed : destroyed evs = []) (hacquired : acquired evs = d.memory)
    (hfreed : freed evs = [])
    : ItemResult b s ds it (.error ⟨.sendInvalidRight, true, i⟩) s'

theorem CopyinInv.typeAt_eq (hinv : CopyinInv b s ds pos) : typeAt s.body pos = typeAt b pos := by
  apply typeAt_congr
  intro p hp _
  exact hinv.rest p hp

def slotResult (next : Nat) : Option Nat → Except CopyinFailure (Bool × Nat)
  | some i => .error ⟨.sendInvalidRight, true, i⟩
  | none => .ok (true, next)

theorem ItemResult.ofSlots (hinv : CopyinInv b s ds pos) {it : Item} (hpos : it.pos = pos)
    (h : Entered s ds d s') (hdpos : d.pos = it.pos) (hdnext : d.next = it.next)
    (hport : d.type.isPort = true) (hr : ∀ j, r = some j → j < d.type.number) (hlog : s'.log = s.log ++ evs)
    (hcopied : copiedIn evs =
      ((d.objs.take (r.getD d.type.number)).filter ioValid).map (·, d.type.name))
    (hdestroyed : destroyed evs = []) (hacquired : acquired evs = d.memory)
    (hfreed : freed evs = []) (hvisits : visits .copyin evs = [d.visit])
    : ItemResult b s ds it (slotResult it.next r) s' := by
  cases r with
  | some i => exact .right h hdpos hport (Nat.le_of_lt (hr i rfl)) hlog hcopied hdestroyed hacquired hfreed
  | none =>
    rw [Option.getD_none, List.take_of_length_le (Nat.le_of_eq (h.holds.objs_length hport))] at hcopied
    have hrights : copiedIn evs = d.rights := by
      rw [hcopied]
      simp [Done.rights, hport]
    have hnew := hinv.snoc h (hdpos.trans hpos) hlog hrights hdestroyed hacquired hfreed hvisits
    rw [hdnext] at hnew
    exact .done true hnew (by simp)

section Data

variable {it : Item}

theorem itemAt_eq_some (h : itemAt b pos = some it)
    : it.pos = pos ∧ it.type = typeAt b pos ∧ invalidType it.type = false ∧ it.next ≤ b.size := by
  simp only [itemAt] at h
  split at h
  . next hc =>
    cases h
    exact ⟨rfl, rfl, hc.2⟩
  . contradiction

theorem size_of_port {t : MsgType} (hvalid : invalidType t = false) (hport : t.isPort = true)
    : t.size = portTSizeInBits := by
  simp only [invalidType, hport, Bool.true_and, Bool.or_eq_false_iff, bne_eq_false_iff_eq] at hvalid
  exact hvalid.1.1.1

def Item.objects (it : Item) (addr : Nat) : Objects := if it.type.inline then .inline it.data else .ool addr

def Item.translated (it : Item) (newname addr : Nat) (objs : List Nat) : Done :=
  ⟨⟨it.pos, { it.type with name := newname }⟩, addr, objs⟩

structure Ready (s : KmsgState) (ds : List Done) (it : Item) (addr : Nat) (s0 : KmsgState)
    : Prop where
  size : s0.body.size = s.body.size
  word : ∀ p, p < it.pos ∨ it.next ≤ p → s0.body.word p = s.body.word p
  heap : ∀ a, Memo.kernel a ∈ ds.flatMap Done.memory → s0.heap a = s.heap a
  null : s0.heap 0 = none
  pointer : it.type.inline = false →
    s0.body.word it.data = addr ∧ (it.type.length = 0 → addr = 0)
  block : it.type.inline = false → it.type.length ≠ 0 →
    ∃ blk, s0.heap addr = some blk ∧ blk.size = it.type.number
  apart : it.type.inline = false → ∀ d ∈ ds, Memo.kernel addr ∉ d.memory

variable {addr : Nat} {s0 : KmsgState}

section

variable (h : Ready s ds it addr s0) (hfits : it.next ≤ s.body.size) (hlen : it.type.length = 4 * it.type.number)
include h hfits hlen

theorem Ready.entered (hheap1 : s1.heap = s0.heap) (hsize1 : s1.body.size = s0.body.size)
    (hword1 : ∀ p, p < it.pos ∨ it.pos + it.type.words ≤ p → s1.body.word p = s0.body.word p)
    (htype1 : typeAt s1.body it.pos = { it.type with name := newname })
    (hcopied : CopiedSlots newname (it.objects addr) it.type.number it.type.number 0 s1 s' r objs)
    : Entered s ds (it.translated newname addr objs) s' := by
  obtain ⟨hdata, hnext⟩ := it.ends
  have hdw : it.type.inline = true → it.type.dataWords = it.type.number := by
    intro hinline
    simp only [dataWords, hinline, if_true, hlen]
    omega
  have hinl : ∀ p, it.objects addr = .inline p → it.type.inline = true ∧ p = it.data := by
    intro p hp
    unfold Item.objects at hp
    split at hp
    . next hinline =>
      cases hp
      exact ⟨hinline, rfl⟩
    . contradiction
  have hword : ∀ p, p < it.pos ∨ it.next ≤ p → s'.body.word p = s.body.word p := by
    intro p hp
    rw [hcopied.frame.word p, hword1 p (by omega), h.word p hp]
    intro q hq
    obtain ⟨hinline, rfl⟩ := hinl q hq
    have := hdw hinline
    omega
  have hblockSize : ∀ a, (s'.heap a).map Block.size = (s0.heap a).map Block.size := by
    intro a
    rw [hcopied.frame.heap_size, hheap1]
  exact {
    size := by rw [hcopied.frame.size, hsize1, h.size]
    word := hword
    heap := by
      intro a ha
      rw [hcopied.frame.heap a, hheap1, h.heap a ha]
      intro hc
      unfold Item.objects at hc
      split at hc
      . contradiction
      . next hinline =>
        cases hc
        obtain ⟨d', hd', hin⟩ := List.mem_flatMap.mp ha
        exact h.apart (by simpa using hinline) d' hd' hin
    null := by
      have hz := hblockSize 0
      rw [h.null] at hz
      simpa using hz
    holds := {
      fits := by
        rw [hcopied.frame.size, hsize1, h.size]
        exact hfits
      type_eq := by
        have hsame : typeAt s'.body it.pos = typeAt s1.body it.pos := by
          apply typeAt_congr
          intro p hp hlt
          apply hcopied.frame.word p
          intro q hq
          obtain ⟨-, rfl⟩ := hinl q hq
          rw [htype1] at hlt
          have hlt' : p < it.pos + it.type.words := hlt
          omega
        exact hsame.trans htype1
      pointer := by
        intro hinline
        have hptr := h.pointer hinline
        have hw : s'.body.word it.data = addr := by
          rw [hcopied.frame.word, hword1 it.data (by omega), hptr.1]
          intro q hq
          have hinline' : it.type.inline = false := hinline
          rw [(hinl q hq).1] at hinline'
          contradiction
        exact ⟨hw, hptr.2⟩
      length_eq := fun _ => hlen
      objs_length := fun _ => hcopied.length
      slots := by
        intro _ i hi
        have hslot := hcopied.slots i hi
        rw [Nat.zero_add] at hslot
        exact hslot
      block := by
        intro hinline _ hne
        obtain ⟨blk, hblk, hsize⟩ := h.block hinline hne
        have hb := hblockSize addr
        rw [hblk] at hb
        obtain ⟨blk', hblk', hsize'⟩ := Option.map_eq_some_iff.mp hb
        exact ⟨blk', hblk', hsize'.trans hsize⟩
    }
    apart := by
      intro d' hd' a ha hin
      obtain ⟨hinline, -, -, rfl⟩ := Done.of_kernel_mem_memory hin
      exact h.apart hinline d' hd' ha
  }

theorem Ready.slots (j : Nat) (hj : j < it.type.number) : (s0.slot? (it.objects addr) j).isSome := by
  have hnext : it.next = it.data + it.type.dataWords := rfl
  cases hinline : it.type.inline with
  | true =>
    have hdw : it.type.dataWords = it.type.number := by
      simp only [dataWords, hinline, if_true, hlen]
      omega
    have hlt : it.data + j < s0.body.size := by
      rw [h.size]
      omega
    simp [Item.objects, hinline, slot?, hlt]
  | false =>
    obtain ⟨blk, hblk, hsize⟩ := h.block hinline (by omega)
    simp [Item.objects, hinline, slot?, hblk, hsize, hj]

end

theorem Ready.run_copyinPorts (env : Env) (hinv : CopyinInv b s ds pos)
    (hit : itemAt b pos = some it) (h : Ready s ds it addr s0)
    (hport : it.type.isPort = true) (hlen : it.type.length = 4 * it.type.number)
    (htype0 : typeAt s0.body it.pos = it.type)
    (hlog0 : s0.log = s.log ++ evs0) (hcopied0 : copiedIn evs0 = []) (hdestroyed0 : destroyed evs0 = [])
    (hacquired0 : acquired evs0 = if it.type.inline || it.type.length = 0 then [] else [.kernel addr])
    (hfreed0 : freed evs0 = []) (hvisits0 : visits .copyin evs0 = [it.visit])
    : ∃ r s', (copyinPorts env it.pos it.type (it.objects addr)).run s0 = .ok (r, s') ∧
        ItemResult b s ds it (slotResult it.next r) s' ∧ (env.Succeeds → s0.Below → s'.Below ∧ r = none) := by
  obtain ⟨hpos, -, -, hfits⟩ := itemAt_eq_some hit
  rw [← hinv.size] at hfits
  obtain ⟨hdata, hnext⟩ := it.ends
  obtain ⟨r, s', objs, newname, s1, hrun, hsuccess, hname, hport', hheap1, hlog1, hcalls1, hsize1,
    hword1, htype1, hcopied⟩ := Ipc.run_copyinPorts (s := s0) env (it.objects addr)
      (by rw [htype0]; exact hport) (by rw [htype0, h.size]; omega)
      (by rw [htype0]; exact h.slots hfits hlen)
      (by
        intro p hp
        unfold Item.objects at hp
        split at hp
        . cases hp
          rw [htype0, hdata]
        . contradiction)
  rw [htype0] at hrun hname htype1 hword1 hcopied
  have hentered := h.entered hfits hlen hheap1 hsize1 hword1 htype1 hcopied
  obtain ⟨evs, hevs, honly, hrights⟩ := hcopied.log
  refine ⟨r, s', hrun, ?_, ?_⟩
  . have hlog : s'.log = s.log ++ (evs0 ++ evs) := by
      rw [hevs, hlog1, hlog0, List.append_assoc]
    have hstop : ∀ j, r = some j → j < it.type.number := by
      intro j hj
      have := hcopied.stop j hj
      omega
    apply ItemResult.ofSlots hinv hpos hentered rfl rfl hport' hstop hlog
    . rw [copiedIn_append, hcopied0, hrights, Nat.zero_add, Nat.sub_zero]
      rfl
    . rw [destroyed_append, hdestroyed0, honly.destroyed]
      rfl
    . rw [acquired_append, hacquired0, honly.acquired, List.append_nil]
      have hport'' : ({ it.type with name := newname } : MsgType).isPort = true := hport'
      simp only [Done.memory, Item.translated, hport'', if_true]
      rfl
    . rw [freed_append, hfreed0, honly.freed]
      rfl
    . rw [visits_append, hvisits0, honly.visits]
      rfl
  . intro henv hb
    refine ⟨?_, hsuccess henv.objectCopyin⟩
    intro a ha
    have hsome : s0.heap a ≠ none := by
      intro hnone
      have hsz := hcopied.frame.heap_size a
      rw [hheap1, hnone] at hsz
      exact ha (by simpa using hsz)
    have hle := hb a hsome
    have hcalls := hcopied.calls
    omega

theorem CopyinInv.not_mem_memory (hinv : CopyinInv b s ds pos) (ha : s.heap a = none)
    : ∀ d ∈ ds, Memo.kernel a ∉ d.memory :=
  fun d hd => (hinv.holds d hd).not_mem_memory ha

theorem dataWords_of_ool (hinline : it.type.inline = false) : it.type.dataWords = 1 := by
  simp [dataWords, hinline]

theorem CopiedMemory.ready (hinv : CopyinInv b s ds pos) {data : Nat}
    (h : CopiedMemory it.type s0 s1 (some data)) (hbody0 : s0.body = s.body)
    (hheap0 : s0.heap = s.heap) (hinline : it.type.inline = false) (hport : it.type.isPort = true)
    (hlen : it.type.length = 4 * it.type.number) : Ready s ds it data { s1 with body := s1.body.set it.data data } := by
  obtain ⟨hdata, hnext⟩ := it.ends
  have hdw := dataWords_of_ool hinline
  have hbody : s1.body = s.body := h.body.trans hbody0
  obtain ⟨evs, -, -, -, -, -, hmem⟩ := h.log
  simp only [hport, if_true] at hmem
  have hfresh : s.heap data = none := by
    split at hmem
    . rw [hmem.1]
      exact hinv.null
    . rw [← hheap0]
      exact hmem.2.1
  have hheap : ∀ a, a ≠ data → s1.heap a = s.heap a := by
    intro a ha
    split at hmem
    . rw [hmem.2.1, hheap0]
    . obtain ⟨-, -, -, word, hupd⟩ := hmem
      rw [hupd, update_of_ne ha, hheap0]
  exact {
    size := by
      show s1.body.size = s.body.size
      rw [hbody]
    word := by
      intro p hp
      have hne : p ≠ it.data := by omega
      show update s1.body.word it.data data p = s.body.word p
      rw [update_of_ne hne, hbody]
    heap := by
      intro a ha
      apply hheap a
      rintro rfl
      obtain ⟨d, hd, hin⟩ := List.mem_flatMap.mp ha
      exact hinv.not_mem_memory hfresh d hd hin
    null := by
      show s1.heap 0 = none
      by_cases hzero : 0 = data
      . split at hmem
        . rw [hmem.2.1, hheap0]
          exact hinv.null
        . exact absurd hzero.symm hmem.1
      . rw [hheap 0 hzero]
        exact hinv.null
    pointer := by
      intro _
      refine ⟨update_self _ _ _, ?_⟩
      intro hz
      rw [if_pos hz] at hmem
      exact hmem.1
    block := by
      intro _ hne
      rw [if_neg hne] at hmem
      obtain ⟨-, -, -, word, hupd⟩ := hmem
      refine ⟨⟨it.type.length / 4, word⟩, ?_, ?_⟩
      . show s1.heap data = _
        rw [hupd, update_self]
      . show it.type.length / 4 = it.type.number
        omega
    apart := fun _ => hinv.not_mem_memory hfresh
  }

theorem entered_of_data (hinv : CopyinInv b s ds pos) (hfits : it.next ≤ b.size)
    (hport : it.type.isPort = false) {data : Nat} (hsize : s'.body.size = s.body.size)
    (hword : ∀ p, p < it.pos ∨ it.next ≤ p → s'.body.word p = s.body.word p)
    (hheap : s'.heap = s.heap) (htype : typeAt s'.body it.pos = it.type)
    (hptr : it.type.inline = false → s'.body.word it.data = data ∧ (it.type.length = 0 → data = 0))
    : Entered s ds ⟨it, data, []⟩ s' where
  size := hsize
  word := hword
  heap := fun a _ => by rw [hheap]
  null := by
    rw [hheap]
    exact hinv.null
  holds := {
    fits := by
      rw [hsize, hinv.size]
      exact hfits
    type_eq := htype
    pointer := hptr
    length_eq := by simp [hport]
    objs_length := by simp [hport]
    slots := by simp [hport]
    block := by simp [hport]
  }
  apart := by
    intro d' _ a _ hin
    have hport' := (Done.of_kernel_mem_memory hin).2.1
    rw [hport] at hport'
    contradiction

structure Visited (s : KmsgState) (it : Item) (s0 : KmsgState) : Prop where
  body : s0.body = s.body
  heap : s0.heap = s.heap
  calls : s0.calls = s.calls
  log : s0.log = s.log ++ [.visit .copyin it.visit]

theorem Visited.below (h : Visited s it s0) (hb : s.Below) : s0.Below := by
  intro a ha
  rw [h.heap] at ha
  rw [h.calls]
  exact hb a ha

theorem Visited.typeAt_eq (h : Visited s it s0) (hinv : CopyinInv b s ds pos)
    (hit : itemAt b pos = some it) : typeAt s0.body it.pos = it.type := by
  obtain ⟨hpos, htype, -, -⟩ := itemAt_eq_some hit
  rw [h.body, hpos, hinv.typeAt_eq, htype]

theorem length_of_item (hit : itemAt b pos = some it)
    (hwrap : it.type.isPort = true → it.type.number < 2 ^ 27) (hport : it.type.isPort = true)
    : it.type.length = 4 * it.type.number := by
  obtain ⟨-, -, hvalid, -⟩ := itemAt_eq_some hit
  rw [length_of_port (size_of_port hvalid hport), Nat.mod_eq_of_lt (hwrap hport)]

section

variable (env : Env) (hinv : CopyinInv b s ds pos) (hit : itemAt b pos = some it)
  (hwrap : it.type.isPort = true → it.type.number < 2 ^ 27) (hvisited : Visited s it s0)
include env hinv hit hwrap hvisited

theorem run_copyinInline (hinline : it.type.inline = true)
    : ∃ r s', (copyinInline env it.pos it.data it.type).run s0 = .ok (r, s') ∧ ItemResult b s ds it r s' ∧
        (env.Succeeds → s.Below → s'.Below ∧ ∃ c, r = .ok (c, it.next)) := by
  obtain ⟨hpos, -, -, hfits⟩ := itemAt_eq_some hit
  have htype0 := hvisited.typeAt_eq hinv hit
  unfold copyinInline
  cases hport : it.type.isPort with
  | true =>
    have hready : Ready s ds it 0 s0 := {
      size := by rw [hvisited.body]
      word := fun p _ => by rw [hvisited.body]
      heap := fun a _ => by rw [hvisited.heap]
      null := by
        rw [hvisited.heap]
        exact hinv.null
      pointer := by simp [hinline]
      block := by simp [hinline]
      apart := by simp [hinline]
    }
    obtain ⟨r, s', hrun, hres, hsuccess⟩ := hready.run_copyinPorts env hinv hit hport
      (length_of_item hit hwrap hport) htype0 hvisited.log rfl rfl (by simp [hinline]; rfl) rfl rfl
    have hobjects : it.objects 0 = .inline it.data := by simp [Item.objects, hinline]
    rw [hobjects] at hrun
    rw [if_pos rfl, run_bind_ok hrun]
    refine ⟨_, s', ?_, hres, ?_⟩
    . cases r <;> rfl
    . intro henv hb
      obtain ⟨hb', rfl⟩ := hsuccess henv (hvisited.below hb)
      exact ⟨hb', true, rfl⟩
  | false =>
    refine ⟨_, _, run_pure _, ?_, fun _ hb => ⟨hvisited.below hb, false, rfl⟩⟩
    have hentered : Entered s ds ⟨it, 0, []⟩ s0 := by
      apply entered_of_data hinv hfits hport (by rw [hvisited.body]) _ hvisited.heap htype0
      . simp [hinline]
      . intro p _
        rw [hvisited.body]
    refine .done false (hinv.snoc hentered hpos hvisited.log ?_ ?_ ?_ ?_ ?_) fun _ => ?_
    . simp [Done.rights, hport, copiedIn]
    . rfl
    . simp [Done.memory, hinline, acquired]
    . rfl
    . rfl
    . simp [Done.rights, Done.memory, hport, hinline]

theorem run_copyinOol (hinline : it.type.inline = false)
    : ∃ r s', (copyinOol env it.pos it.data it.type).run s0 = .ok (r, s') ∧ ItemResult b s ds it r s' ∧
        (env.Succeeds → s.Below → s'.Below ∧ ∃ c, r = .ok (c, it.next)) := by
  obtain ⟨hpos, -, -, hfits⟩ := itemAt_eq_some hit
  obtain ⟨hdata, hnext⟩ := it.ends
  have hdw := dataWords_of_ool hinline
  have htype0 := hvisited.typeAt_eq hinv hit
  obtain ⟨rm, s1, hmem, hcopied, hsuccess⟩ := run_copyinMemory env it.type s0
  obtain ⟨evs, hevs, hcopiedIn, hdestroyed, hvisits, hrm⟩ := hcopied.log
  have hbody1 : s1.body = s.body := hcopied.body.trans hvisited.body
  have hlog1 : s1.log = s.log ++ ([.visit .copyin it.visit] ++ evs) := by
    rw [hevs, hvisited.log, List.append_assoc]
  rw [copyinOol, run_bind_ok hmem]
  cases rm with
  | none =>
    refine ⟨_, s1, rfl, ?_, ?_⟩
    . apply ItemResult.memory hbody1 (hrm.1.trans hvisited.heap) hlog1 hcopiedIn hdestroyed
      exact hrm.2
    . intro henv hb
      exact absurd rfl (hsuccess henv (hvisited.below hb)).1
  | some data =>
    obtain ⟨hfreed, hmemory⟩ := hrm
    have hvisits' : visits .copyin ([.visit .copyin it.visit] ++ evs) = [it.visit] :=
      congrArg (it.visit :: ·) (hvisits _)
    have hlt : it.data < s1.body.size := by
      rw [hbody1, hinv.size]
      omega
    rw [run_writeWord hlt data]
    generalize hs2 : ({ s1 with body := s1.body.set it.data data } : KmsgState) = s2
    have hlog2 : s2.log = s.log ++ ([.visit .copyin it.visit] ++ evs) := by
      rw [← hs2]
      exact hlog1
    have hbelow2 : env.Succeeds → s.Below → s2.Below := by
      intro henv hb
      have hb1 := (hsuccess henv (hvisited.below hb)).2
      rw [← hs2]
      exact hb1
    have hword2 : ∀ p, p ≠ it.data → s2.body.word p = s.body.word p := by
      intro p hne
      rw [← hs2, ← hbody1]
      exact update_of_ne hne _ _
    have htype2 : typeAt s2.body it.pos = it.type := by
      rw [← htype0, hvisited.body]
      apply typeAt_congr
      intro p hp hlt'
      rw [← hvisited.body, htype0] at hlt'
      exact hword2 p (by omega)
    cases hport : it.type.isPort with
    | true =>
      have hready := hcopied.ready hinv hvisited.body hvisited.heap hinline hport (length_of_item hit hwrap hport)
      rw [hs2] at hready
      have hacquired : acquired ([.visit .copyin it.visit] ++ evs) =
          if it.type.inline || it.type.length = 0 then [] else [.kernel data] := by
        simp only [hinline, Bool.false_or, decide_eq_true_eq]
        split at hmemory
        . next hz =>
          rw [if_pos hz]
          exact hmemory.2.2
        . next hz =>
          rw [if_neg hz]
          exact hmemory.2.2.1
      obtain ⟨r, s', hrun, hres, hports⟩ := hready.run_copyinPorts env hinv hit hport
        (length_of_item hit hwrap hport) htype2 hlog2 hcopiedIn hdestroyed hacquired hfreed
        hvisits'
      have hobjects : it.objects data = .ool data := by simp [Item.objects, hinline]
      rw [hobjects] at hrun
      simp only [if_true]
      rw [run_bind_ok hrun]
      refine ⟨_, s', ?_, hres, ?_⟩
      . cases r <;> rfl
      . intro henv hb
        obtain ⟨hb', rfl⟩ := hports henv (hbelow2 henv hb)
        exact ⟨hb', true, rfl⟩
    | false =>
      simp only [hport, Bool.false_eq_true, if_false] at hmemory
      refine ⟨_, s2, rfl, ?_, fun henv hb => ⟨hbelow2 henv hb, true, rfl⟩⟩
      have hentered : Entered s ds ⟨it, data, []⟩ s2 := by
        apply entered_of_data hinv hfits hport _ _ _ htype2
        . intro _
          refine ⟨?_, ?_⟩
          . rw [← hs2]
            exact update_self _ _ _
          . intro hz
            rw [if_pos hz] at hmemory
            exact hmemory.1
        . rw [← hs2, ← hbody1]
          rfl
        . intro p hp
          exact hword2 p (by omega)
        . rw [← hs2, ← hvisited.heap]
          show s1.heap = s0.heap
          split at hmemory
          . exact hmemory.2.1
          . exact hmemory.1
      refine .done true (hinv.snoc hentered hpos hlog2 ?_ hdestroyed ?_ hfreed hvisits') (by simp)
      . refine Eq.trans hcopiedIn ?_
        simp [Done.rights, hport]
      . simp only [Done.memory, hinline, hport, Bool.false_or, decide_eq_true_eq, Bool.false_eq_true, if_false]
        split at hmemory
        . next hz =>
          rw [if_pos hz]
          exact hmemory.2.2
        . next hz =>
          rw [if_neg hz]
          exact hmemory.2

end

end Data

end Step

end Ipc
