import UtahMach.Ipc.Kmsg.Impl

/-!
This module contains what the primitive operations on a message do.
-/

namespace Ipc

open KmsgState Function

section Run

open KmsgM

variable {α β : Type} {s s' : KmsgState}

theorem run_bind_ok {f : α → KmsgM β} (h : x.run s = .ok (a, s')) : (x >>= f).run s = (f a).run s' := by
  rw [StateT.run_bind, h]
  rfl

theorem run_bind_error {f : α → KmsgM β} (h : x.run s = .error e) : (x >>= f).run s = .error e := by
  rw [StateT.run_bind, h]
  rfl

theorem run_pure (a : α) : (pure a : KmsgM α).run s = .ok (a, s) := rfl

theorem run_get {f : KmsgState → KmsgM α} : (get >>= f).run s = (f s).run s := rfl

theorem run_call {f : Nat → KmsgM α} : (call >>= f).run s = (f s.calls).run { s with calls := s.calls + 1 } := rfl

theorem run_modify (f : KmsgState → KmsgState) : (modify f : KmsgM PUnit).run s = .ok ((), f s) := rfl

section

variable {f : Unit → KmsgM α}

theorem run_emit (ev : KmsgEvent) : (emit ev >>= f).run s = (f ()).run { s with log := s.log ++ [ev] } := rfl

theorem run_assert {p : Prop} [Decidable p] (h : p) : (KmsgM.assert p >>= f).run s = (f ()).run s := by
  simp only [KmsgM.assert, h, if_true]
  rfl

theorem run_writeWord {pos : Nat} (h : pos < s.body.size) (w : Nat)
    : (writeWord pos w >>= f).run s = (f ()).run { s with body := s.body.set pos w } := by
  apply run_bind_ok
  rw [writeWord, run_get, if_pos h]
  rfl

end

theorem run_readWord {f : Nat → KmsgM α} {pos : Nat} (h : pos < s.body.size)
    : (readWord pos >>= f).run s = (f (s.body.word pos)).run s := by
  apply run_bind_ok
  rw [readWord, run_get, if_pos h]
  rfl

variable {objects : Objects} {i : Nat}

theorem run_readSlot {f : Nat → KmsgM α} {w : Nat} (h : s.slot? objects i = some w)
    : (readSlot objects i >>= f).run s = (f w).run s := by
  apply run_bind_ok
  rw [readSlot, run_get, h]
  rfl

theorem run_readSlot_none (h : s.slot? objects i = none) : (readSlot objects i).run s = .error (.slot objects i) := by
  rw [readSlot, run_get, h]
  rfl

theorem run_writeSlot {w : Nat} (h : s.slot? objects i = some w) (v : Nat)
    : (writeSlot objects i v).run s = .ok ((), s.setSlot objects i v) := by
  rw [writeSlot, run_get, h]
  rfl

theorem run_kfree {addr words : Nat} {b : Block} (h : s.heap addr = some b) (hsize : b.size = words)
    : (kfree addr words).run s = .ok ((),
        { s with heap := update s.heap addr none, log := s.log ++ [.kfree addr] }) := by
  rw [kfree, run_get, h]
  simp only [hsize, if_true]
  rfl

end Run

section Slots

variable {s : KmsgState} {objects : Objects} {i j w v : Nat}

theorem slot?_setSlot_self (h : s.slot? objects i = some w) : (s.setSlot objects i v).slot? objects i = some v := by
  cases objects with
  | inline pos =>
    simp only [slot?] at h
    split at h
    . next hlt => simp [slot?, setSlot, Block.set, hlt]
    . contradiction
  | ool addr =>
    simp only [slot?] at h
    cases hb : s.heap addr with
    | none => simp [hb] at h
    | some b =>
      simp only [hb, Option.bind_some] at h
      split at h
      . next hlt => simp [slot?, setSlot, Block.set, hb, hlt]
      . contradiction

theorem slot?_setSlot_of_ne (h : j ≠ i) : (s.setSlot objects i v).slot? objects j = s.slot? objects j := by
  cases objects with
  | inline pos =>
    have hne : pos + j ≠ pos + i := by omega
    simp [slot?, setSlot, Block.set, update_of_ne hne]
  | ool addr =>
    cases hb : s.heap addr with
    | none => simp [slot?, setSlot, hb]
    | some b => simp [slot?, setSlot, Block.set, hb, update_of_ne h]

structure SlotFrame (objects : Objects) (n : Nat) (s s' : KmsgState) : Prop where
  size : s'.body.size = s.body.size
  word : ∀ p, (∀ pos, objects = .inline pos → p < pos ∨ pos + n ≤ p) →
    s'.body.word p = s.body.word p
  heap : ∀ a, objects ≠ .ool a → s'.heap a = s.heap a
  heap_size : ∀ a, (s'.heap a).map Block.size = (s.heap a).map Block.size

namespace SlotFrame

variable {n : Nat} {s' s'' : KmsgState}

theorem refl (objects : Objects) (n : Nat) (s : KmsgState) : SlotFrame objects n s s :=
  ⟨rfl, fun _ _ => rfl, fun _ _ => rfl, fun _ => rfl⟩

theorem trans (h : SlotFrame objects n s s') (h' : SlotFrame objects n s' s'') : SlotFrame objects n s s'' where
  size := h'.size.trans h.size
  word := fun p hp => (h'.word p hp).trans (h.word p hp)
  heap := fun a ha => (h'.heap a ha).trans (h.heap a ha)
  heap_size := fun a => (h'.heap_size a).trans (h.heap_size a)

theorem setSlot (h : i < n) : SlotFrame objects n s (s.setSlot objects i v) := by
  cases objects with
  | inline pos =>
    refine ⟨rfl, ?_, fun _ _ => rfl, fun _ => rfl⟩
    intro p hp
    have hne : p ≠ pos + i := by
      have := hp pos rfl
      omega
    simp [setSlot, Block.set, update_of_ne hne]
  | ool addr =>
    refine ⟨rfl, fun _ _ => rfl, ?_, ?_⟩
    . intro a ha
      have hne : a ≠ addr := by
        rintro rfl
        exact ha rfl
      simp [setSlot, update_of_ne hne]
    . intro a
      by_cases ha : a = addr
      . subst ha
        cases hb : s.heap a <;> simp [setSlot, Block.set, hb]
      . simp [setSlot, update_of_ne ha]

end SlotFrame

end Slots

def typeAt (b : Block) (pos : Nat) : MsgType :=
  if msgtLongform (b.word pos) then
    longType (b.word pos) (b.word (pos + 1)) (b.word (pos + 2))
  else
    shortType (b.word pos)

variable {b b' : Block} {pos : Nat}

theorem longform_typeAt (b : Block) (pos : Nat) : (typeAt b pos).longform = msgtLongform (b.word pos) := by
  unfold typeAt
  split
  . next h => simp [longType, h]
  . next h => simp [shortType, h]

theorem words_pos (t : MsgType) : 1 ≤ t.words := by
  unfold MsgType.words
  split <;> omega

theorem typeAt_congr (h : ∀ p, pos ≤ p → p < pos + (typeAt b pos).words → b'.word p = b.word p)
    : typeAt b' pos = typeAt b pos := by
  have hw : b'.word pos = b.word pos := h pos (Nat.le_refl _) (by have := words_pos (typeAt b pos); omega)
  have hl := longform_typeAt b pos
  unfold typeAt
  rw [hw]
  split
  . next hlong =>
    rw [hlong] at hl
    have hwords : (typeAt b pos).words = 3 := by simp [MsgType.words, hl]
    rw [h (pos + 1) (by omega) (by omega), h (pos + 2) (by omega) (by omega)]
  . rfl

theorem run_readType {s : KmsgState} (h : pos + (typeAt s.body pos).words ≤ s.body.size)
    : (KmsgM.readType pos).run s = .ok (typeAt s.body pos, s) := by
  have hl := longform_typeAt s.body pos
  have hpos := words_pos (typeAt s.body pos)
  rw [KmsgM.readType, run_readWord (by omega)]
  unfold typeAt
  split
  . next hlong =>
    rw [hlong] at hl
    have hwords : (typeAt s.body pos).words = 3 := by simp [MsgType.words, hl]
    rw [run_readWord (by omega), run_readWord (by omega)]
    rfl
  . rfl

def nameWord (t : MsgType) (pos : Nat) : Nat := if t.longform then pos + 1 else pos

def Block.setName (b : Block) (pos name : Nat) : Block :=
  let i := nameWord (typeAt b pos) pos
  b.set i (if (typeAt b pos).longform then setMsgtlName (b.word i) name
    else setMsgtName (b.word i) name)

theorem shortType_setMsgtName (w : Nat) {name : Nat} (h : name < 256)
    : shortType (setMsgtName w name) = { shortType w with name := name } ∧
      msgtLongform (setMsgtName w name) = msgtLongform w := by
  have h8 : (w - w % 256 + name) / 256 = w / 256 := by omega
  have h0 : (w - w % 256 + name) % 256 = name := by omega
  have hdiv : ∀ k, (w - w % 256 + name) / (256 * k) = w / (256 * k) := by
    intro k
    rw [← Nat.div_div_eq_div_mul, h8, Nat.div_div_eq_div_mul]
  have h16 := hdiv 256
  have h28 := hdiv 1048576
  have h29 := hdiv 2097152
  have h30 := hdiv 4194304
  have h31 := hdiv 8388608
  simp [shortType, setMsgtName, msgtName, msgtSize, msgtNumber, msgtInline, msgtLongform,
    msgtDeallocate, msgtUnused, h0, h8, h16, h28, h29, h30, h31]

theorem longType_setMsgtlName (w w1 w2 : Nat) {name : Nat} (h : name < 2 ^ 16)
    : longType w (setMsgtlName w1 name) w2 = { longType w w1 w2 with name := name } := by
  have h0 : (w1 - w1 % 65536 + name) % 65536 = name := by omega
  have h16 : (w1 - w1 % 65536 + name) / 65536 = w1 / 65536 := by omega
  simp [longType, setMsgtlName, msgtlName, msgtlSize, h0, h16]

theorem typeAt_setName {name : Nat} (h : name < 256)
    : typeAt (b.setName pos name) pos = { typeAt b pos with name := name } := by
  have hl := longform_typeAt b pos
  cases hlong : msgtLongform (b.word pos) with
  | true =>
    have h1 : pos ≠ pos + 1 := by omega
    have h2 : pos + 2 ≠ pos + 1 := by omega
    simp only [Block.setName, nameWord, hl, Block.set]
    simp only [typeAt, update_of_ne h1, update_of_ne h2, update_self, hlong, if_true]
    exact longType_setMsgtlName _ _ _ (by omega)
  | false =>
    obtain ⟨hshort, hlong'⟩ := shortType_setMsgtName (b.word pos) h
    simp only [Block.setName, nameWord, hl, Block.set]
    simp only [typeAt, update_self, hlong', hlong, Bool.false_eq_true, if_false, hshort]
    rfl

end Ipc
