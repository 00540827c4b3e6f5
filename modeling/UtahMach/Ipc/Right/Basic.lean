import UtahMach.Ipc.Entry.Basic

/-!
This module contains the types of rights as sets of bits, and the names that messages and system
calls have for rights.
-/

namespace Ipc

namespace PortType

def hasSend : PortType → Bool
  | send | sendReceive => true
  | _ => false

def hasReceive : PortType → Bool
  | receive | sendReceive => true
  | _ => false

def hasSendRights : PortType → Bool
  | send | sendReceive | sendOnce => true
  | _ => false

def hasPortRights : PortType → Bool
  | send | receive | sendReceive | sendOnce => true
  | _ => false

def code : PortType → Nat
  | none => 0
  | send => 1
  | receive => 2
  | sendReceive => 3
  | sendOnce => 4
  | portSet => 8
  | deadName => 16

def clearSend : PortType → PortType
  | send => none
  | sendReceive => receive
  | t => t

def clearReceive : PortType → PortType
  | receive => none
  | sendReceive => send
  | t => t

def withSend : PortType → PortType
  | none => send
  | receive => sendReceive
  | t => t

def withReceive : PortType → PortType
  | none => receive
  | send => sendReceive
  | t => t

variable {t : PortType}

theorem hasPortRights_of_hasSendRights (h : t.hasSendRights = true) : t.hasPortRights = true := by
  cases t <;> first | rfl | contradiction

theorem hasSendRights_of_hasSend (h : t.hasSend = true) : t.hasSendRights = true := by
  cases t <;> first | rfl | contradiction

theorem hasPortRights_of_hasSend (h : t.hasSend = true) : t.hasPortRights = true :=
  hasPortRights_of_hasSendRights (hasSendRights_of_hasSend h)

theorem hasPortRights_of_hasReceive (h : t.hasReceive = true) : t.hasPortRights = true := by
  cases t <;> first | rfl | contradiction

theorem hasSendRights_of_not_hasReceive (h : t.hasPortRights = true) (hr : t.hasReceive = false)
    : t.hasSendRights = true := by
  cases t <;> first | rfl | contradiction

theorem eq_sendReceive (hs : t.hasSend = true) (hr : t.hasReceive = true) : t = .sendReceive := by
  cases t <;> first | rfl | contradiction

theorem eq_send (hs : t.hasSend = true) (hr : t.hasReceive = false) : t = .send := by
  cases t <;> first | rfl | contradiction

theorem eq_receive (hs : t.hasSend = false) (hr : t.hasReceive = true) : t = .receive := by
  cases t <;> first | rfl | contradiction

theorem eq_sendOnce (h : t.hasSendRights = true) (hs : t.hasSend = false) : t = .sendOnce := by
  cases t <;> first | rfl | contradiction

end PortType

inductive MsgTypeName where
  | moveReceive
  | moveSend
  | moveSendOnce
  | copySend
  | makeSend
  | makeSendOnce
deriving DecidableEq, Repr

inductive PortName where
  | portReceive
  | portSend
  | portSendOnce
deriving DecidableEq, Repr

inductive CompatName where
  | port
  | portAll
deriving DecidableEq, Repr

inductive PortRight where
  | send
  | receive
  | sendOnce
  | portSet
  | deadName
deriving DecidableEq, Repr

def Right.upper (r : Right) : Nat := r.type.code + 2 ^ 5 * r.marequest.toNat + 2 ^ 6 * r.compat.toNat

def Right.word (r : Right) : Nat := r.urefs + 2 ^ 16 * r.upper

def machPortUrefsMax : Nat := 2 ^ 16 - 1

def toUnsigned (x : Int) : Nat := (x % 2 ^ 32).toNat

def machPortUrefsOverflow (urefs : Nat) (delta : Int) : Bool :=
  0 < delta ∧ (toUnsigned (urefs + delta) ≤ urefs ∨ machPortUrefsMax < toUnsigned (urefs + delta))

def machPortUrefsUnderflow (urefs : Nat) (delta : Int) : Bool := delta < 0 ∧ urefs < toUnsigned (-delta)

def IsDelta (delta : Int) : Prop := -2 ^ 31 ≤ delta ∧ delta < 2 ^ 31

theorem Right.word_add_div {r : Right} {delta : Int} (hge : 0 ≤ r.urefs + delta)
    (hle : r.urefs + delta ≤ machPortUrefsMax) : (r.word + delta) / 2 ^ 16 = r.upper := by
  unfold Right.word
  unfold machPortUrefsMax at hle
  generalize r.upper = upper
  omega

theorem machPortUrefsOverflow_eq_false {delta : Int} (hu : urefs ≤ 2 ^ 16)
    (hd : IsDelta delta) (h : machPortUrefsOverflow urefs delta = false) (hpos : 0 < delta)
    : urefs + delta ≤ machPortUrefsMax := by
  have hword : toUnsigned (urefs + delta) = urefs + delta := by
    unfold toUnsigned
    have := hd.2
    omega
  unfold machPortUrefsOverflow at h
  simp only [hpos, true_and, decide_eq_false_iff_not, not_or, Nat.not_lt] at h
  omega

theorem machPortUrefsUnderflow_eq_false {delta : Int} (hd : IsDelta delta)
    (h : machPortUrefsUnderflow urefs delta = false) : 0 ≤ urefs + delta := by
  by_cases hneg : delta < 0
  . have hword : toUnsigned (-delta) = -delta := by
      unfold toUnsigned
      have := hd.1
      omega
    unfold machPortUrefsUnderflow at h
    simp only [hneg, true_and, decide_eq_false_iff_not, Nat.not_lt] at h
    omega
  . omega

end Ipc
