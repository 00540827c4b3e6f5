import UtahMach.Ipc.Right.Ops

/-!
This module contains what the functions on rights do to single entries.
-/

namespace Ipc

open Prog
open Function (update)

structure Cell where
  right : Option Right
  held : Bool
  hashed : Bool
  request : Bool

abbrev Cells := Nat × Nat → Cell

def RightOk (r : Right) : Prop :=
  match r.type with
  | .none => False
  | .deadName =>
    r.object = ioNull ∧ r.request = 0 ∧ r.marequest = false ∧ 0 < r.urefs ∧
      r.urefs ≤ machPortUrefsMax
  | .portSet => r.object ≠ ioNull ∧ r.request = 0 ∧ r.marequest = false ∧ r.urefs = 0
  | .sendOnce => ioValid r.object = true ∧ r.marequest = false ∧ r.urefs = 1
  | .send | .sendReceive =>
    ioValid r.object = true ∧ 0 < r.urefs ∧ r.urefs < machPortUrefsMax
  | .receive => ioValid r.object = true ∧ r.urefs = 0

namespace RightOk

variable {r : Right}

section

variable (hr : RightOk r)
include hr

theorem valid (ht : r.type.hasPortRights = true) : ioValid r.object = true := by
  unfold RightOk at hr
  cases htype : r.type <;> rw [htype] at hr ht
  case send | receive | sendReceive | sendOnce => exact hr.1
  all_goals contradiction

theorem object_ne (ht : r.type.hasPortRights = true) : r.object ≠ ioNull := by
  have hvalid := hr.valid ht
  simp only [ioValid, Bool.and_eq_true, bne_iff_ne] at hvalid
  exact hvalid.1

theorem object_ne_dead (ht : r.type.hasPortRights = true) : r.object ≠ ioDead := by
  have hvalid := hr.valid ht
  simp only [ioValid, Bool.and_eq_true, bne_iff_ne] at hvalid
  exact hvalid.2

theorem urefs_pos (ht : r.type.hasSendRights = true) : 0 < r.urefs := by
  unfold RightOk at hr
  cases htype : r.type <;> rw [htype] at hr ht
  case send | sendReceive => exact hr.2.1
  case sendOnce =>
    rw [hr.2.2]
    exact Nat.one_pos
  all_goals contradiction

theorem urefs_lt (ht : r.type.hasPortRights = true) : r.urefs < machPortUrefsMax := by
  unfold RightOk at hr
  cases htype : r.type <;> rw [htype] at hr ht
  case send | sendReceive => exact hr.2.2
  case sendOnce =>
    rw [hr.2.2]
    decide
  case receive =>
    rw [hr.2]
    decide
  all_goals contradiction

theorem sendOnce (ht : r.type = .sendOnce) : r.urefs = 1 ∧ r.marequest = false := by
  unfold RightOk at hr
  rw [ht] at hr
  exact ⟨hr.2.2, hr.2.1⟩

theorem receive_urefs (ht : r.type = .receive) : r.urefs = 0 := by
  unfold RightOk at hr
  rw [ht] at hr
  exact hr.2

theorem portSet (ht : r.type = .portSet) : r.object ≠ ioNull ∧ r.request = 0 ∧ r.marequest = false ∧ r.urefs = 0 := by
  unfold RightOk at hr
  rw [ht] at hr
  exact hr

theorem deadName (ht : r.type = .deadName) : r.object = ioNull ∧ r.request = 0 ∧ r.marequest = false ∧ 0 < r.urefs ∧
        r.urefs ≤ machPortUrefsMax := by
  unfold RightOk at hr
  rw [ht] at hr
  exact hr

theorem type_ne : r.type ≠ .none := by
  intro ht
  unfold RightOk at hr
  rw [ht] at hr
  exact hr

end

theorem of_deadName (ht : r.type = .deadName) (hobj : r.object = ioNull) (hreq : r.request = 0)
    (hmar : r.marequest = false) (hpos : 0 < r.urefs) (hle : r.urefs ≤ machPortUrefsMax) : RightOk r := by
  unfold RightOk
  rw [ht]
  exact ⟨hobj, hreq, hmar, hpos, hle⟩

theorem of_hasSend (ht : r.type.hasSend = true) (hobj : ioValid r.object = true)
    (hpos : 0 < r.urefs) (hlt : r.urefs < machPortUrefsMax) : RightOk r := by
  unfold RightOk
  cases htype : r.type <;> rw [htype] at ht
  case send | sendReceive => exact ⟨hobj, hpos, hlt⟩
  all_goals contradiction

theorem of_receive (ht : r.type = .receive) (hobj : ioValid r.object = true) (hurefs : r.urefs = 0) : RightOk r := by
  unfold RightOk
  rw [ht]
  exact ⟨hobj, hurefs⟩

theorem of_sendOnce (ht : r.type = .sendOnce) (hobj : ioValid r.object = true)
    (hmar : r.marequest = false) (hurefs : r.urefs = 1) : RightOk r := by
  unfold RightOk
  rw [ht]
  exact ⟨hobj, hmar, hurefs⟩

end RightOk

def CellOk (cell : Cell) : Prop :=
  match cell.right with
  | none => cell.hashed = false ∧ cell.request = false
  | some r =>
    RightOk r ∧ (cell.hashed = true ↔ r.type = .send) ∧ cell.request = r.marequest

def AllOk (c : Cells) : Prop := ∀ k, CellOk (c k)

def OthersOk (c : Cells) (k : Nat × Nat) : Prop := ∀ k', k' ≠ k → CellOk (c k')

def OthersFine (c : Cells) (k : Nat × Nat) : Prop :=
  ∀ k', k' ≠ k → CellOk (c k') ∨
    (∃ r, (c k').right = some r ∧ r.type = .none) ∧ (c k').hashed = false ∧ (c k').request = false

namespace Cells

def dealloc (c : Cells) (space name : Nat) : Cells := fun k =>
  if k = (space, name) then { c k with right := none, held := false }
  else if k.1 = space ∧ machPortIndex k.2 = machPortIndex name then { c k with held := false }
  else c k

def unhold (c : Cells) (space : Nat) : Cells := fun k => if k.1 = space then { c k with held := false } else c k

def hold (c : Cells) (k : Nat × Nat) : Cells := update c k { c k with held := true }

def enter (c : Cells) (k : Nat × Nat) : Cells :=
  update c k { c k with right := some ((c k).right.getD Right.null), held := true }

end Cells

def IsName (name : Nat) : Prop := 0 < name ∧ name < machPortDead ∧ name ≠ headName

open Cells in
def cellHandler (active : Nat → Bool) : Handler kernelIface Cells
  | .isActive space, Q, c => Q (active space) c
  | .lookup space name, Q, c =>
    active space = true ∧ (∀ r, (c (space, name)).right = some r → r.type ≠ .none) ∧
      ((c (space, name)).right = none → Q false c) ∧
      ((c (space, name)).right ≠ none → Q true (c.hold (space, name)))
  | .entryGet space, Q, c =>
    active space = true ∧ Q none c ∧
      ∀ n, (c (space, n)).right = none → n ≠ machPortNull → Q (some n) (c.enter (space, n))
  | .allocName space name, Q, c =>
    IsName name ∧ AllOk c ∧ (∀ kr, kr ≠ .success → Q kr (c.unhold space)) ∧
      (active space = true → Q .success ((c.unhold space).enter (space, name)))
  | .growTable space, Q, c => active space = true ∧ AllOk c ∧ ∀ kr, Q kr (c.unhold space)
  | .hashLookup space obj, Q, c =>
    active space = true ∧ obj ≠ ioNull ∧ AllOk c ∧ Q none c ∧
      ∀ n r, n ≠ machPortNull → (c (space, n)).right = some r → r.type = .send →
        r.object = obj → Q (some n) (c.hold (space, n))
  | .entry space name, Q, c =>
    (c (space, name)).held = true ∧ ∃ r, (c (space, name)).right = some r ∧ Q r c
  | .store space name r, Q, c =>
    (c (space, name)).held = true ∧ ∃ r0, (c (space, name)).right = some r0 ∧
      ((c (space, name)).hashed = true → r.object = r0.object) ∧
      Q () (update c (space, name) { c (space, name) with right := some r })
  | .hashInsert space obj name, Q, c =>
    ((c (space, name)).held = true ∧ (c (space, name)).hashed = false ∧
      obj ≠ ioNull ∧ ∃ r, (c (space, name)).right = some r ∧ r.object = obj) ∧
      Q () (update c (space, name) { c (space, name) with hashed := true })
  | .hashDelete space obj name, Q, c =>
    ((c (space, name)).held = true ∧ (c (space, name)).hashed = true ∧
      ∃ r, (c (space, name)).right = some r ∧ r.object = obj) ∧
      Q () (update c (space, name) { c (space, name) with hashed := false })
  | .dealloc space name, Q, c =>
    (c (space, name)).held = true ∧
      (∃ r, (c (space, name)).right = some r ∧ r.object = ioNull ∧ r.request = 0) ∧
      OthersFine c (space, name) ∧ Q () (c.dealloc space name)
  | .isNotify _, Q, c => ∀ n, Q n c
  | .portCount, Q, c => ∀ n, Q n c
  | .port _, Q, c => ∀ p, Q p c
  | .setPort _ _, Q, c => Q () c
  | .die _, Q, c => Q () c
  | .tell _, Q, c => Q () c
  | .marequestCreate _ space name _, Q, c =>
    (name = machPortNull → Q () c) ∧
      (name ≠ machPortNull → active space = true ∧ (c (space, name)).request = false ∧
        Q () (update c (space, name) { c (space, name) with request := true }))
  | .marequestCancel space name, Q, c =>
    (c (space, name)).request = true ∧
      Q () (update c (space, name) { c (space, name) with request := false })
  | .marequestRename space oname nname, Q, c =>
    oname ≠ nname ∧ nname ≠ machPortNull ∧ (c (space, oname)).request = true ∧
      (c (space, nname)).request = false ∧
      Q () (update
        (update c (space, oname) { c (space, oname) with request := false })
        (space, nname) { c (space, nname) with request := true })
  | .marequestRemove _, Q, c =>
    ∀ r : Imar, (r.imarName = machPortNull ∨ active r.imarSpace = false → Q r c) ∧
      (r.imarName ≠ machPortNull → active r.imarSpace = true →
        (c (r.imarSpace, r.imarName)).request = true → Q r (update c (r.imarSpace, r.imarName)
          { c (r.imarSpace, r.imarName) with request := false }))
  | .lockTry, Q, c => ∀ b, Q b c
  | .assert b, Q, c => b = true → Q () c
  | .require b, Q, c => b = true ∧ Q () c
  | .yield, Q, c => Q () c

theorem cellHandler_monotone (active : Nat → Bool) : Monotone (cellHandler active) := by
  intro cmd Q Q' c hle h
  cases cmd with
  | isActive => exact hle _ _ h
  | lookup => exact ⟨h.1, h.2.1, fun hn => hle _ _ (h.2.2.1 hn), fun hn => hle _ _ (h.2.2.2 hn)⟩
  | entryGet => exact ⟨h.1, hle _ _ h.2.1, fun n hn hv => hle _ _ (h.2.2 n hn hv)⟩
  | allocName =>
    exact ⟨h.1, h.2.1, fun kr hkr => hle _ _ (h.2.2.1 kr hkr), fun ha => hle _ _ (h.2.2.2 ha)⟩
  | growTable => exact ⟨h.1, h.2.1, fun kr => hle _ _ (h.2.2 kr)⟩
  | hashLookup =>
    exact ⟨h.1, h.2.1, h.2.2.1, hle _ _ h.2.2.2.1, fun n r hn hr ht ho => hle _ _ (h.2.2.2.2 n r hn hr ht ho)⟩
  | entry =>
    obtain ⟨hheld, r, hr, hq⟩ := h
    exact ⟨hheld, r, hr, hle _ _ hq⟩
  | store =>
    obtain ⟨hheld, r0, hr, ho, hq⟩ := h
    exact ⟨hheld, r0, hr, ho, hle _ _ hq⟩
  | hashInsert | hashDelete => exact ⟨h.1, hle _ _ h.2⟩
  | dealloc => exact ⟨h.1, h.2.1, h.2.2.1, hle _ _ h.2.2.2⟩
  | isNotify | portCount | port | lockTry => exact fun n => hle _ _ (h n)
  | setPort | die | tell | yield => exact hle _ _ h
  | marequestCreate =>
    exact ⟨fun hn => hle _ _ (h.1 hn), fun hn => ⟨(h.2 hn).1, (h.2 hn).2.1, hle _ _ (h.2 hn).2.2⟩⟩
  | marequestCancel => exact ⟨h.1, hle _ _ h.2⟩
  | marequestRename =>
    exact ⟨h.1, h.2.1, h.2.2.1, h.2.2.2.1, hle _ _ h.2.2.2.2⟩
  | marequestRemove =>
    exact fun r => ⟨fun hn => hle _ _ ((h r).1 hn), fun hn ha hr => hle _ _ ((h r).2 hn ha hr)⟩
  | assert => exact fun hb => hle _ _ (h hb)
  | require => exact ⟨h.1, hle _ _ h.2⟩

end Ipc
