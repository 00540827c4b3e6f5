import Mathlib

/-!
This module contains message queues with the threads that wait for them.
-/

namespace Ipc

structure Msg where
  ident : Nat
  msghRemotePort : Nat
  msghSize : Nat
  sendOnce : Bool
  circular : Bool
deriving DecidableEq, Repr

inductive QueueId where
  | port (p : Nat)
  | pset (s : Nat)
deriving DecidableEq, Repr

structure Mqueue where
  imqMessages : List Msg
  imqThreads : List Nat

inductive IthState where
  | success
  | sendInProgress
  | rcvInProgress
  | rcvTooLarge
  | rcvPortDied
  | rcvPortChanged
deriving DecidableEq, Repr

inductive MsgReturn where
  | success
  | sendTimedOut
  | sendInterrupted
  | received (kmsg : Msg) (seqno : Nat)
  | rcvTooLarge (size : Nat)
  | rcvTimedOut
  | rcvInterrupted
  | rcvPortDied
  | rcvPortChanged
  | rcvInSet
deriving DecidableEq, Repr

inductive Activity where
  | returned (mr : MsgReturn)
  | sending (kmsg : Msg) (always : Bool) (timeOut : Option Nat)
  | receiving (q : QueueId) (maxSize : Nat) (timeOut : Option Nat)
  | finishing (kmsg : Msg) (seqno : Nat)
deriving DecidableEq, Repr

structure Thread where
  activity : Activity
  ithState : IthState
  ithMsize : Nat
  ithKmsg : Option Msg
  ithSeqno : Nat

structure MqPort where
  ipActive : Bool
  kernel : Bool
  ipPset : Option Nat
  ipSeqno : Nat
  ipMsgcount : Nat
  ipQlimit : Nat
  ipBlocked : List Nat

inductive MsgEvent where
  | accepted (kmsg : Msg)
  | received (kmsg : Msg) (seqno thread : Nat)
  | picked (kmsg : Msg) (seqno thread : Nat)
  | destroyed (kmsg : Msg)
  | served (kmsg : Msg)
deriving DecidableEq, Repr

structure MqState where
  ports : Nat → MqPort
  ipsActive : Nat → Bool
  queues : QueueId → Mqueue
  threads : Nat → Thread
  log : List MsgEvent

namespace MqState

def setPort (s : MqState) (p : Nat) (port : MqPort) : MqState :=
  { s with ports := Function.update s.ports p port }

def setQueue (s : MqState) (q : QueueId) (mqueue : Mqueue) : MqState :=
  { s with queues := Function.update s.queues q mqueue }

def setThread (s : MqState) (t : Nat) (th : Thread) : MqState :=
  { s with threads := Function.update s.threads t th }

def record (s : MqState) (ev : MsgEvent) : MqState :=
  { s with log := s.log ++ [ev] }

attribute [simps -fullyApplied] setPort setQueue setThread record

def leave (s : MqState) (t : Nat) (mr : MsgReturn) : MqState :=
  s.setThread t { s.threads t with activity := .returned mr }

def wake (s : MqState) (t : Nat) (state : IthState) : MqState := s.setThread t { s.threads t with ithState := state }

def refuse (s : MqState) (t size : Nat) : MqState :=
  s.setThread t { s.threads t with ithState := .rcvTooLarge, ithMsize := size }

def home (s : MqState) (p : Nat) : QueueId :=
  match (s.ports p).ipPset with
  | none => .port p
  | some pset => .pset pset

end MqState

end Ipc
