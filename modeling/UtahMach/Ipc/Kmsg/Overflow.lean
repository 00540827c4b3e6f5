import UtahMach.Ipc.Kmsg.CopyinBody

/-!
This module contains what `ipc_kmsg_copyin_body` does at an item whose size does not fit into 32 bits.
-/

namespace Ipc

open KmsgState

open KmsgM

section Slots

variable {s : KmsgState} {objects : Objects}

def SlotsLeave (env : Env) (objects : Objects) (x : Except Fault (Option Nat × KmsgState)) : Prop :=
  (∃ j, x = .error (.slot objects j)) ∨
    (¬ ∀ c, (env.objectCopyin c).isSome) ∧ ∃ j s', x = .ok (some j, s')

theorem run_copyinSlots_leaves (env : Env) (name newname : Nat) (k i j : Nat) (hi : i ≤ j)
    (hj : j < i + k) (hout : s.slot? objects j = none)
    : SlotsLeave env objects ((copyinSlots env name newname objects k i).run s) := by
  induction k generalizing s i with
  | zero => omega
  | succ k ih =>
    cases hw : s.slot? objects i with
    | none =>
      rw [copyinSlots, run_bind_error (run_readSlot_none hw)]
      exact Or.inl ⟨i, rfl⟩
    | some w =>
      have hne : j ≠ i := by
        rintro rfl
        rw [hout] at hw
        contradiction
      cases hvalid : machPortValid w with
      | false =>
        rw [copyinSlots, run_readSlot hw, hvalid]
        exact ih (i + 1) (by omega) (by omega) hout
      | true =>
        cases hobj : env.objectCopyin s.calls with
        | none =>
          rw [copyinSlots, run_readSlot hw, if_pos hvalid, run_call, hobj]
          refine Or.inr ⟨?_, i, _, rfl⟩
          intro hsome
          have := hsome s.calls
          simp [hobj] at this
        | some object =>
          obtain ⟨s2, hstep, hslot2, -⟩ := run_copyinSlots_taken env name newname k 0 hw hvalid hobj
          rw [hstep]
          apply ih (i + 1) (by omega) (by omega)
          rw [slot?_setSlot_of_ne hne, hslot2, hout]

end Slots

section Item

variable {b : Block} {s : KmsgState} {ds : List Done} {pos : Nat} {it : Item}

theorem run_copyinPorts_leaves (env : Env) (objects : Objects) (htype : typeAt s.body it.pos = it.type)
    (hport : it.type.isPort = true) (hfits : it.data ≤ s.body.size)
    (hdata : ∀ p, objects = .inline p → it.data ≤ p) {j : Nat} (hj : j < it.type.number)
    (hout : s.slot? objects j = none) : SlotsLeave env objects ((copyinPorts env it.pos it.type objects).run s) := by
  have hport' : (typeAt s.body it.pos).isPort = true := by
    rw [htype]
    exact hport
  obtain ⟨newname, -, -, -, heq⟩ := run_copyinPorts_eq env objects hport' (by rw [htype]; exact hfits)
  rw [htype] at heq
  rw [heq]
  apply run_copyinSlots_leaves env _ _ _ 0 j (by omega) (by omega)
  rw [slot?_setName newname j (by rw [htype]; exact hdata), hout]

def ItemLeaves (env : Env) (s : KmsgState)
    (x : Except Fault (Except CopyinFailure (Bool × Nat) × KmsgState)) : Prop :=
  (∃ objects j, x = .error (.slot objects j)) ∨
    (¬ (env.Succeeds ∧ s.Below)) ∧ ∃ e s', CopyinFailure.mr e ≠ .success ∧ x = .ok (.error e, s')

theorem SlotsLeave.item {objects : Objects} (h : SlotsLeave env objects (x.run s0)) (next : Nat) : ItemLeaves env s ((do
        match ← x with
        | some i => return .error ⟨.sendInvalidRight, true, i⟩
        | none => return .ok (true, next) : KmsgM (Except CopyinFailure (Bool × Nat))).run s0) := by
  rcases h with ⟨j, hj⟩ | ⟨hnot, j, s', hj⟩
  . rw [run_bind_error hj]
    exact Or.inl ⟨objects, j, rfl⟩
  . rw [run_bind_ok hj]
    exact Or.inr ⟨fun h => hnot h.1.objectCopyin, _, s', by simp, rfl⟩

theorem run_copyinItem_overflow (env : Env) (hinv : CopyinInv b s ds pos)
    (hit : itemAt b pos = some it) (hport : it.type.isPort = true)
    (hover : 2 ^ 27 ≤ it.type.number) (hsize : b.size < 2 ^ 27) : ItemLeaves env s ((copyinItem env pos).run s) := by
  obtain ⟨-, -, hvalid, hfits⟩ := itemAt_eq_some hit
  obtain ⟨hdata, hnext⟩ := it.ends
  have hlen := length_of_port (size_of_port hvalid hport)
  obtain ⟨s0, hvisited, hrun⟩ := run_copyinItem_some env hinv hit
  have htype0 := hvisited.typeAt_eq hinv hit
  have hbody : s0.body.size = b.size := by rw [hvisited.body, hinv.size]
  rw [hrun]
  cases hinline : it.type.inline with
  | true =>
    rw [copyinInline, if_pos hport]
    apply SlotsLeave.item
    apply run_copyinPorts_leaves env (.inline it.data) htype0 hport (by omega)
      (fun p hp => by cases hp; exact Nat.le_refl _) (show it.type.number - 1 < _ by omega)
    have hout : ¬ it.data + (it.type.number - 1) < s0.body.size := by omega
    simp [slot?, hout]
  | false =>
    have hdw := dataWords_of_ool hinline
    obtain ⟨rm, s1, hmem, hcopied, hsuccess⟩ := run_copyinMemory env it.type s0
    obtain ⟨evs, -, -, -, -, hrm⟩ := hcopied.log
    have hbody1 : s1.body = s0.body := hcopied.body
    rw [copyinOol, run_bind_ok hmem]
    cases rm with
    | none =>
      refine Or.inr ⟨?_, _, s1, ?_, rfl⟩
      . rintro ⟨henv, hb⟩
        exact (hsuccess henv (hvisited.below hb)).1 rfl
      . simp
    | some data =>
      simp only [hport, if_true]
      rw [run_writeWord (by rw [hbody1]; omega) data]
      apply SlotsLeave.item
      have htype2 : typeAt (s1.body.set it.data data) it.pos = it.type := by
        rw [← htype0]
        apply typeAt_congr
        intro p hp hlt
        rw [htype0] at hlt
        have hne : p ≠ it.data := by omega
        rw [← hbody1]
        exact Function.update_of_ne hne _ _
      have hout : ∃ j, j < it.type.number ∧ s1.slot? (.ool data) j = none := by
        obtain ⟨-, hmemory⟩ := hrm
        split at hmemory
        . -- The length is 0, and there is no memory at all.
          obtain ⟨rfl, hheap, -⟩ := hmemory
          refine ⟨0, by omega, ?_⟩
          rw [slot?, hheap, hvisited.heap, hinv.null]
          rfl
        . obtain ⟨-, -, -, word, hheap⟩ := hmemory
          refine ⟨it.type.number % 2 ^ 27, by omega, ?_⟩
          have hge : ¬ it.type.number % 2 ^ 27 < it.type.length / 4 := by omega
          rw [slot?, hheap, Function.update_self]
          exact if_neg hge
      obtain ⟨j, hj, hout⟩ := hout
      exact run_copyinPorts_leaves env (.ool data) htype2 hport
        (by show it.data ≤ s1.body.size; rw [hbody1]; omega) (by simp) hj hout

end Item

section Body

def Item.Overflows (it : Item) : Prop := it.type.isPort = true ∧ 2 ^ 27 ≤ it.type.number

theorem Item.number_lt {it : Item} (h : ¬ it.Overflows) (hport : it.type.isPort = true) : it.type.number < 2 ^ 27 :=
  Nat.lt_of_not_le fun hle => h ⟨hport, hle⟩

theorem run_copyinItems_overflow (henv : env.Succeeds) (header : KmsgHeader)
    (hsize : b.size < 2 ^ 27) (fuel : Nat) (c : Bool) (hinv : CopyinInv b s ds pos) (hb : s.Below)
    (hover : ∃ it ∈ items b fuel pos, it.Overflows)
    : ∃ objects i, (copyinItems env header fuel c pos).run s = .error (.slot objects i) := by
  induction fuel generalizing s ds pos c with
  | zero =>
    obtain ⟨it, hit, -⟩ := hover
    contradiction
  | succ fuel ih =>
    rw [copyinItems, run_get, hinv.size]
    by_cases hlt : pos < b.size
    . rw [items, if_pos hlt] at hover
      rw [if_pos hlt]
      cases hit : itemAt b pos with
      | none =>
        rw [hit] at hover
        obtain ⟨it, hin, -⟩ := hover
        contradiction
      | some it =>
        rw [hit] at hover
        by_cases hfirst : it.Overflows
        . rcases run_copyinItem_overflow env hinv hit hfirst.1 hfirst.2 hsize with
            ⟨objects, j, hrun⟩ | ⟨hnot, -⟩
          . exact ⟨objects, j, run_bind_error hrun⟩
          . exact absurd ⟨henv, hb⟩ hnot
        . obtain ⟨r, s1, hrun, hres, hsuccess⟩ := run_copyinItem env hinv hit (Item.number_lt hfirst)
          obtain ⟨hb1, c', rfl⟩ := hsuccess henv hb
          obtain ⟨it', hin, hover'⟩ := hover
          rw [run_bind_ok hrun]
          cases hres with
          | done _ hinv' =>
            apply ih (c || c') hinv' hb1
            rcases List.mem_cons.mp hin with rfl | hin
            . exact absurd hover' hfirst
            . exact ⟨it', hin, hover'⟩
    . rw [items, if_neg hlt] at hover
      obtain ⟨it, hin, -⟩ := hover
      contradiction

theorem mr_of_refused {header : KmsgHeader} (h : (do
      ipcKmsgCleanPartial header eaddr dolast number
      return (mr, x) : KmsgM (MachMsgReturn × Bool × Nat)).run s = .ok ((mr', y), s')) : mr' = mr := by
  cases hclean : (ipcKmsgCleanPartial header eaddr dolast number).run s with
  | error e =>
    rw [run_bind_error hclean] at h
    contradiction
  | ok r =>
    rw [run_bind_ok hclean] at h
    cases h
    rfl

theorem not_overflows_of_accepted (env : Env) (header : KmsgHeader) (hsize : b.size < 2 ^ 27)
    (fuel : Nat) (c : Bool) (hinv : CopyinInv b s ds pos)
    (h : (copyinItems env header fuel c pos).run s = .ok ((.success, y), s'))
    : ∀ it ∈ items b fuel pos, ¬ it.Overflows := by
  induction fuel generalizing s ds pos c with
  | zero => simp [items]
  | succ fuel ih =>
    rw [copyinItems, run_get, hinv.size] at h
    rw [items]
    split
    . next hlt =>
      rw [if_pos hlt] at h
      cases hit : itemAt b pos with
      | none => simp
      | some it =>
        have hfirst : ¬ it.Overflows := by
          intro hover
          rcases run_copyinItem_overflow env hinv hit hover.1 hover.2 hsize with
            ⟨objects, j, hrun⟩ | ⟨-, e, s1, hmr, hrun⟩
          . rw [run_bind_error hrun] at h
            contradiction
          . rw [run_bind_ok hrun] at h
            exact hmr (mr_of_refused h).symm
        obtain ⟨r, s1, hrun, hres, -⟩ := run_copyinItem env hinv hit (Item.number_lt hfirst)
        rw [run_bind_ok hrun] at h
        cases hres with
        | done c' hinv' => exact List.forall_mem_cons.mpr ⟨hfirst, ih (c || c') hinv' h⟩
        | memory => exact absurd (mr_of_refused h) (by simp)
        | right => exact absurd (mr_of_refused h) (by simp)
    . simp

end Body

section Main

variable {b : Block}

def Env.generous : Env where
  kalloc := fun c => c + 1
  copyinmap := fun _ => some fun _ => 0
  vmDeallocate := fun _ => true
  vmMapCopyin := fun _ => some 0
  objectCopyin := fun _ => some 0
  checkCircularity := fun _ => false
  vmAllocate := fun _ => .ok 0
  vmMapCopyout := fun _ => .ok 0
  copyoutObject := fun _ => (0, 0)

theorem Env.generous_succeeds : Env.generous.Succeeds :=
  ⟨fun _ => rfl, fun _ => rfl, fun _ => rfl, fun _ => rfl, fun _ => rfl⟩

/--
A message is in kernel memory, so it is far smaller than 2^27 words.
-/
theorem copyinBody_slots_inside_iff (b : Block) (hsize : b.size < 2 ^ 27)
    : (∀ env header, ioValid header.remote = true → ∀ objects i,
        (ipcKmsgCopyinBody env header).run (.received b) ≠ .error (.slot objects i)) ↔
      ∀ it ∈ items b (b.size + 1) 0, it.type.isPort = true → it.type.number < 2 ^ 27 := by
  constructor
  . intro h it hit hport
    by_contra hlt
    obtain ⟨objects, i, hrun⟩ := run_copyinItems_overflow Env.generous_succeeds ⟨1, 0, 0, 0⟩ hsize
      (b.size + 1) false (copyinInv_received b) (fun a ha => absurd rfl ha)
      ⟨it, hit, hport, Nat.le_of_not_lt hlt⟩
    apply h Env.generous ⟨1, 0, 0, 0⟩ rfl objects i
    exact hrun
  . intro h env header hremote objects i
    obtain ⟨r, s', hrun, -⟩ := run_copyinBody env hremote h
    rw [hrun]
    simp

/--
A long descriptor announces 2^27 ports, and nothing follows it.
-/
def overflowing : Block where
  size := 3
  word := fun p => if p = 0 then 0x30000000 else if p = 1 then 19 + 32 * 2 ^ 16 else 2 ^ 27

theorem overflowing_slots_inside_iff : overflowing.size < 2 ^ 27 ∧
      ((∀ env header, ioValid header.remote = true → ∀ objects i,
        (ipcKmsgCopyinBody env header).run (.received overflowing) ≠ .error (.slot objects i)) ↔
      ∀ it ∈ items overflowing 4 0, it.type.isPort = true → it.type.number < 2 ^ 27) :=
  ⟨by decide, copyinBody_slots_inside_iff overflowing (by decide)⟩

theorem overflowing_slot_outside : (ipcKmsgCopyinBody Env.generous ⟨1, 0, 0, 0⟩).run (.received overflowing) =
        .error (.slot (.inline 3) 0) := by
  rfl

end Main

end Ipc
