import UtahMach.Ipc.Mqueue.Pset

/-!
This module contains the senders that wait for a full queue to clear, and how they are woken up.
-/

namespace Ipc

open MqState

def MqState.woken (s : MqState) (p : Nat) : Set Nat :=
  { t | s.Sends t p ∧ (s.threads t).ithState = .success }

def NoLostWakeup (s : MqState) : Prop :=
  ∀ p, (s.ports p).ipActive = true → (s.ports p).ipBlocked ≠ [] →
    ((s.ports p).ipQlimit : ℕ∞) ≤ (s.ports p).ipMsgcount + (s.woken p).encard

variable {s s' : MqState}

theorem RcvFrame.woken (h : RcvFrame s s') (p : Nat) : s'.woken p = s.woken p := by
  have hsends : ∀ t, s'.Sends t p ↔ s.Sends t p := by
    intro t
    unfold Sends
    rw [h.activity]
  ext t
  unfold MqState.woken
  rw [Set.mem_ofPred_eq, Set.mem_ofPred_eq, hsends]
  refine and_congr_right fun hs => ?_
  rw [h.others t (Sends.not_receives hs)]

def SameSenders (port port' : MqPort) : Prop :=
  port'.ipActive = port.ipActive ∧ port'.ipBlocked = port.ipBlocked ∧
    port'.ipQlimit = port.ipQlimit ∧ port'.ipMsgcount = port.ipMsgcount

namespace NoLostWakeup

theorem congr (h : NoLostWakeup s) (hp : ∀ p, SameSenders (s.ports p) (s'.ports p))
    (hw : ∀ p, s'.woken p = s.woken p) : NoLostWakeup s' := by
  intro p hactive hne
  obtain ⟨ha, hb, hq, hm⟩ := hp p
  rw [ha] at hactive
  rw [hb] at hne
  rw [hq, hm, hw]
  exact h p hactive hne

theorem frame (h : NoLostWakeup s) (hf : RcvFrame s s') : NoLostWakeup s' := by
  refine h.congr ?_ hf.woken
  intro p
  rw [hf.ports p]
  exact ⟨rfl, rfl, rfl, rfl⟩

end NoLostWakeup

abbrev Settles (start : Nat → Nat) (s s' : MqState) : Prop :=
  MqInv start s' noFlight ∧ (MsgsCounted s → MsgsCounted s') ∧ (NoLostWakeup s → NoLostWakeup s')

end Ipc
