import UtahMach.Ipc.Right.Run

/-!
This module contains what holds of rights, of message-accepted requests and of the reverse hash
tables in every state that operations on rights reach.
-/

namespace Ipc

open KProg Prog

namespace Kernel

section Space

variable {s : Space} {requested : Nat → Prop} {m : Nat → Option Right} {hashed : Nat → Bool}
  (h : SpaceWF s requested m hashed)
include h

theorem SpaceWF.right_of_entry {loc : Loc} {e : Entry} (he : s.entry loc = some e) (ht : e.ieBits.type ≠ .none)
    : ∃ n, m n = some e.right := by
  obtain ⟨free, hrep⟩ := h.rep
  cases loc with
  | tree n => exact ⟨n, (hrep.layout.tree_entry n e he).1⟩
  | table i =>
    simp only [Space.entry, Option.ite_none_right_eq_some, Option.some.injEq] at he
    obtain ⟨hlt, rfl⟩ := he
    have hpos : 0 < i := by
      refine Nat.pos_of_ne_zero fun hzero => ht ?_
      rw [hzero, hrep.head_bits.1]
    have hfree : i ∉ free := by
      intro hin
      rw [(hrep.layout.free_slot i hin).1] at ht
      exact ht rfl
    exact ⟨_, hrep.layout.used_name hpos hlt hfree id⟩

-- a free slot has no record, a slot in use has one if its type is SEND
theorem SpaceWF.hashedSlot_iff (i : Nat)
    : s.hashedSlot hashed i ↔ 0 < i ∧ i < s.isTableSize ∧ (s.isTable i).ieBits.type = .send := by
  obtain ⟨free, hrep⟩ := h.rep
  refine and_congr_right fun hpos => and_congr_right fun hlt => ?_
  by_cases hfree : i ∈ free
  . obtain ⟨hbits, hgen, -⟩ := hrep.layout.free_slot i hfree
    have hnone := hrep.layout.free_names (machPortMake i (s.isTable i).ieBits.gen) (by rwa [machPortIndex_make hgen])
    constructor
    . intro hin
      obtain ⟨r, hr, -⟩ := hrep.hashed_object _ hin
      rw [hnone] at hr
      contradiction
    . intro ht
      rw [hbits] at ht
      contradiction
  . exact h.agree _ _ (hrep.layout.used_name hpos hlt hfree id)

theorem SpaceWF.rightOf (n : Nat) : s.rightOf n = m n := by
  obtain ⟨free, hrep⟩ := h.rep
  exact rightOf_eq hrep h.head (fun n r hr => (h.right n r hr).1.type_ne) n

end Space

def livePort : Port where
  ipActive := true
  ipReferences := 3
  ipReceiverName := machPortNull
  data := .destination ipNull
  ipMscount := 0
  ipSrights := 2
  ipSorights := 2
  ipNsrequest := ipNull
  ipPdrequest := ipNull
  ipDnrequests := none

def noRequests : Marequests := ⟨0, fun _ => [], fun _ => none⟩

theorem noRequests_wf : noRequests.WF := by
  refine ⟨fun b i hi => ?_, fun b => List.nodup_nil, fun i r hi => ?_, fun i j r r' hi => ?_⟩
  . exact absurd hi List.not_mem_nil
  . contradiction
  . contradiction

-- the size of the first table is written out for the runs below
def firstSpace (addr : Nat) : Space :=
  { ipcSpaceCreate addr 15 0 with
    isTable := fun index => ⟨.ofGen genMask, ioNull, if index + 1 = 4 then 0 else index + 1⟩
    isTableSize := 4 }

theorem firstSpace_eq (addr : Nat) : firstSpace addr = ipcSpaceCreate addr 15 0 := by
  unfold firstSpace ipcSpaceCreate
  rw [itsSize_zero]

def created : Kernel where
  spaces := firstSpace
  held := fun _ _ => .table 0
  world :=
    { ports := fun p => { livePort with ipActive := p ≠ 5 }, portCount := 9, isNotify := fun _ => ipNull,
      ipcPortTimestampData := 0, schedule := [], lockTries := [], memory := [true],
      marequests := noRequests, log := [] }

theorem created_wf : WF created := by
  refine ⟨noRequests_wf, fun space _ => ⟨fun _ => none, fun _ => false, ?_⟩⟩
  refine ⟨⟨_, firstSpace_eq space ▸ ipcSpaceCreate_rep space 15 (by decide)⟩, rfl,
    by simp, fun n hn => ?_, fun n r hr => by contradiction⟩
  obtain ⟨-, i, r, hi, -⟩ := hn
  contradiction

def giveRight (space : Nat) (r : Right) : KProg Unit := do
  match ← entryGet space with
  | some name =>
    setEntry space name r
    hashInsert space r.object name
    return ()
  | none => return ()

theorem giveRight_keeps {active : Nat → Bool} {c : Cells} (space : Nat) {r : Right} (hact : active space = true)
    (hr : RightOk r) (ht : r.type = .send) (hmar : r.marequest = false) (ha : AllOk c)
    : Keeps active (giveRight space r) c := by
  refine Ver.bind (Ver.entryGet hact ha (Ver.ret ha) fun n h q he => ?_)
  have hh := he.hashed
  have hq := he.marequest
  subst hh hq
  refine Ver.bind (Ver.setEntry nofun (Ver.hashInsert rfl (hr.object_ne (by rw [ht]; rfl)) rfl (Ver.ret ?_)))
  exact At.allOk ⟨he.others, hr, by simp [ht], hmar.symm⟩

def withRight (r : Right) : Kernel :=
  match exec machine (giveRight 1 r) created with
  | .ok (_, k) => k
  | .error _ => created

theorem withRight_wf (hr : RightOk r) (ht : r.type = .send) (hmar : r.marequest = false) : WF (withRight r) := by
  obtain ⟨t, hrel, ha⟩ := created_wf.exists_rel
  have hsafe := (machine_sound created.active).safe hrel (giveRight_keeps 1 rfl hr ht hmar ha)
  unfold withRight
  cases hexec : exec machine (giveRight 1 r) created with
  | error e => exact created_wf
  | ok a =>
    rw [hexec] at hsafe
    obtain ⟨t', hrel', ha'⟩ := hsafe
    exact .of_rel hrel' ha'

def fullSend : Right := ⟨.send, 65534, false, false, 6, 0⟩

theorem fullSend_wf : WF (withRight fullSend) :=
  withRight_wf (.of_hasSend rfl rfl (by decide) (by decide)) rfl rfl

def compatSend : Right := ⟨.send, 1, false, true, 5, 1⟩

theorem rename_fullSend_allowed (hname : nname.toNat ≠ headName)
    : (RightOp.rename 1 256 nname).Allowed (withRight fullSend) := by
  refine ⟨hname, fun r hr hcompat => ?_⟩
  have hright : ((withRight fullSend).spaces 1).rightOf 256 = some fullSend := by decide +kernel
  rw [hright] at hr
  cases hr
  contradiction

def UrefsOk (r : Right) : Prop :=
  match r.type with
  | .none => False
  | .receive | .portSet => r.urefs = 0
  | .sendOnce => r.urefs = 1
  | .send | .sendReceive => 1 ≤ r.urefs ∧ r.urefs ≤ 65534
  | .deadName => 1 ≤ r.urefs ∧ r.urefs ≤ 65535

theorem urefsOk_of_rightOk (h : RightOk r) : UrefsOk r := by
  unfold UrefsOk
  unfold RightOk machPortUrefsMax at h
  cases ht : r.type <;> simp only [ht] at h ⊢ <;> omega

def peggedOps : List RightOp :=
  [.copyin 1 256 .moveSend, .copyout 1 6 .portSend true, .delta 1 256 .send 1, .copyout 1 6 .portSend true]

def freedTwiceOps : List RightOp :=
  [.copyout 1 6 .portSend true, .copyout 1 7 .portSend true, .copyin 1 256 .copySend, .copyout 1 8 .portSend true,
    .copyout 1 8 .portSend true]

def marked (s : Space) (name : Nat) : Bool := (s.rightOf name).any (·.marequest)

-- names 512 and 4 are of slot 2 and of the head of the free list, so the second is put into the tree
def renamedOps : List RightOp := [.rename 1 256 512, .marequestCreate 9 1 6 0, .copyout 1 6 .portSend true]

-- 255 also has the generation of the head, so the lookup does not go to the tree
def lostOps : List RightOp := [.copyout 1 6 .portSend true, .marequestCreate 9 1 6 0, .rename 1 256 255]

def staleOps : List RightOp := [.copyout 1 6 .portSend true, .copyinCompat 1 256 .port true]

structure HashAgrees (s : Space) : Prop where
  slot : ∀ i, 0 < i → ((∃ p, p < s.isTableSize ∧ s.isIndex p = i) ↔
    i < s.isTableSize ∧ (s.isTable i).ieBits.type = .send)
  slot_once : ∀ p q, p < s.isTableSize → q < s.isTableSize → s.isIndex p ≠ 0 → s.isIndex p = s.isIndex q → p = q
  node : ∀ b n, n ∈ s.ihGlobal b ↔
    ∃ e, s.isTree.get? n = some e ∧ e.ieBits.type = .send ∧ s.bucket e.ieObject = b
  node_once : ∀ b, (s.ihGlobal b).Nodup
  lookup : ∀ obj, obj ≠ ioNull → ∃ found s', ipcHashLookup s obj = some (found, s') ∧
    (found.isSome = true ↔ ∃ loc e, s.entry loc = some e ∧ e.ieBits.type = .send ∧ e.ieObject = obj) ∧
    ∀ n loc, found = some (n, loc) → ∃ e, s.entry loc = some e ∧ e.ieBits.type = .send ∧ e.ieObject = obj

theorem SpaceWF.hashAgrees {s : Space} {req : Nat → Prop} (h : SpaceWF s req m hashed) : HashAgrees s := by
  obtain ⟨free, hrep⟩ := h.rep
  have hlocal := hrep.local_hash
  have hentry : ∀ n r, hashed n = true → m n = some r →
      ∃ e, s.entry (s.loc n) = some e ∧ e.ieBits.type = .send ∧ e.ieObject = r.object := by
    intro n r hin hr
    obtain ⟨e, he, rfl⟩ := hrep.entry_loc hr
    exact ⟨e, he, (h.agree n _ hr).mp hin, rfl⟩
  refine ⟨fun i hpos => ?_, hlocal.inj, fun b n => ?_, hrep.global_hash.nodup, fun obj hobj => ?_⟩
  . constructor
    . rintro ⟨p, hp, rfl⟩
      exact ((h.hashedSlot_iff _).mp (hlocal.sound p hp (by omega))).2
    . intro hsend
      exact hlocal.complete i ((h.hashedSlot_iff i).mpr ⟨hpos, hsend⟩)
  . rw [hrep.global_hash.mem]
    constructor
    . rintro ⟨hin, e, he, rfl⟩
      have hget := hrep.mem_tree.mp he
      exact ⟨e, hget, (h.agree n _ (hrep.layout.tree_entry n e hget).1).mp hin, rfl⟩
    . rintro ⟨e, hget, ht, rfl⟩
      exact ⟨(h.agree n _ (hrep.layout.tree_entry n e hget).1).mpr ht, e, hrep.mem_tree.mpr hget, rfl⟩
  . obtain ⟨found, buckets, hlook, -, hsome, hnone⟩ := hrep.hashLookup_spec hobj
    have hfound : ∀ n loc, found = some (n, loc) →
        ∃ e, s.entry loc = some e ∧ e.ieBits.type = .send ∧ e.ieObject = obj := by
      intro n loc hf
      obtain ⟨rfl, hin, r, hr, rfl⟩ := hsome n loc hf
      exact hentry n r hin hr
    refine ⟨found, _, hlook, ⟨fun hf => ?_, fun ⟨loc, e, he, ht, heobj⟩ => ?_⟩, hfound⟩
    . obtain ⟨⟨n, loc⟩, hf⟩ := Option.isSome_iff_exists.mp hf
      exact ⟨loc, hfound n loc hf⟩
    . obtain ⟨n, hn⟩ := h.right_of_entry he (by simp [ht])
      rw [Option.isSome_iff_ne_none]
      intro hf
      exact hnone hf n e.right ((h.agree n _ hn).mpr ht) hn heobj

def treeOps : List RightOp := [.rename 1 256 4, .copyout 1 7 .portSend true]

end Kernel

end Ipc
