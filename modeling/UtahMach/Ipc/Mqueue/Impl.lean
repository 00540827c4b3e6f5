import UtahMach.Ipc.Entry.Basic
import UtahMach.Ipc.Mqueue.Basic

/-!
This module contains the functions on message queues and port sets. A function that blocks is cut
into the parts that run while it holds its locks. A result `none` stands for a failed assertion.
-/

namespace Ipc

def handOver (s : MqState) (kmsg : Msg) (t : Nat) : MqState :=
  let port := s.ports kmsg.msghRemotePort
  let th := s.threads t
  let s := s.setThread t
    { th with ithState := .success, ithKmsg := some kmsg, ithSeqno := port.ipSeqno }
  let s := s.setPort kmsg.msghRemotePort { port with ipSeqno := (port.ipSeqno + 1) % 2 ^ 32 }
  s.record (.received kmsg port.ipSeqno t)

def offer (q : QueueId) (kmsg : Msg) : List Nat → MqState → Option MqState
  | [], s =>
    let queue := s.queues q
    some (s.setQueue q { queue with imqMessages := queue.imqMessages ++ [kmsg] })
  | t :: receivers, s => do
    let queue := s.queues q
    let s := s.setQueue q { queue with imqThreads := receivers }
    assert (queue.imqMessages = [])
    if kmsg.msghSize ≤ (s.threads t).ithMsize then
      return handOver s kmsg t
    else
      offer q kmsg receivers (s.refuse t kmsg.msghSize)

def deliver (s : MqState) (q : QueueId) (kmsg : Msg) : Option MqState := offer q kmsg (s.queues q).imqThreads s

def moveMessages (dest source : QueueId) (port : Nat) : List Msg → MqState → Option MqState
  | [], s => some s
  | kmsg :: rest, s =>
    if kmsg.msghRemotePort = port then do
      let queue := s.queues source
      let s := s.setQueue source { queue with imqMessages := queue.imqMessages.erase kmsg }
      let s ← deliver s dest kmsg
      moveMessages dest source port rest s
    else
      moveMessages dest source port rest s

def ipcMqueueMove (dest source : QueueId) (port : Nat) (s : MqState) : Option MqState :=
  moveMessages dest source port (s.queues source).imqMessages s

def wakeReceivers (q : QueueId) (mr : IthState) : List Nat → MqState → MqState
  | [], s => s
  | t :: receivers, s =>
    let queue := s.queues q
    wakeReceivers q mr receivers ((s.setQueue q { queue with imqThreads := receivers }).wake t mr)

def ipcMqueueChanged (q : QueueId) (mr : IthState) (s : MqState) : MqState :=
  wakeReceivers q mr (s.queues q).imqThreads s

def ipcPsetAdd (pset port : Nat) (s : MqState) : Option MqState := do
  let p := s.ports port
  assert (s.ipsActive pset = true)
  assert (p.ipActive = true)
  assert (p.ipPset = none)
  let s := s.setPort port { p with ipPset := some pset }
  let s ← ipcMqueueMove (.pset pset) (.port port) port s
  assert ((s.queues (.port port)).imqMessages = [])
  -- wake up threads waiting to receive from the port
  return ipcMqueueChanged (.port port) .rcvPortChanged s

def ipcPsetRemove (pset port : Nat) (s : MqState) : Option MqState := do
  let p := s.ports port
  assert (p.ipActive = true)
  assert (p.ipPset = some pset)
  let s := s.setPort port { p with ipPset := none }
  ipcMqueueMove (.port port) (.pset pset) port s

def ipcPsetMove (port : Nat) (nset : Option Nat) (s : MqState) : Option (KernReturn × MqState) := do
  let p := s.ports port
  assert (p.ipActive = true)
  match p.ipPset, nset with
  | none, none => return (.notInSet, s)
  | none, some nset =>
    let s ← ipcPsetAdd nset port s
    return (.success, s)
  | some oset, none =>
    let active := s.ipsActive oset
    let s ← ipcPsetRemove oset port s
    return (if active then .success else .notInSet, s)
  | some oset, some nset =>
    if oset = nset then
      return (.success, s)
    else
      assert (s.ipsActive nset = true)
      let s ← ipcPsetRemove oset port s
      let s ← ipcPsetAdd nset port s
      return (.success, s)

def ipcPsetDestroy (pset : Nat) (s : MqState) : Option MqState := do
  assert (s.ipsActive pset = true)
  let s := { s with ipsActive := Function.update s.ipsActive pset false }
  return ipcMqueueChanged (.pset pset) .rcvPortDied s

def sendAccept (t : Nat) (kmsg : Msg) (s : MqState) : Option MqState := do
  let p := s.ports kmsg.msghRemotePort
  if kmsg.circular then
    -- don't allow the creation of a circular loop
    return (s.record (.destroyed kmsg)).leave t .success
  else
    let s := s.setPort kmsg.msghRemotePort { p with ipMsgcount := p.ipMsgcount + 1 }
    let s := s.record (.accepted kmsg)
    let s ← deliver s (s.home kmsg.msghRemotePort) kmsg
    return s.leave t .success

def sendPass (t : Nat) (kmsg : Msg) (always : Bool) (timeOut : Option Nat) (s : MqState)
    : Option MqState :=
  let p := s.ports kmsg.msghRemotePort
  if p.ipActive = false then
    some ((s.record (.destroyed kmsg)).leave t .success)
  else if p.ipMsgcount < p.ipQlimit ∨ always ∨ kmsg.sendOnce then
    sendAccept t kmsg s
  else if timeOut = some 0 then
    some (s.leave t .sendTimedOut)
  else
    let th := s.threads t
    let s := s.setPort kmsg.msghRemotePort { p with ipBlocked := p.ipBlocked ++ [t] }
    some (s.setThread t
      { th with activity := .sending kmsg always timeOut, ithState := .sendInProgress })

def ipcMqueueSend (t : Nat) (kmsg : Msg) (always : Bool) (timeOut : Option Nat) (s : MqState)
    : Option MqState := do
  let p := s.ports kmsg.msghRemotePort
  if p.kernel then
    assert (p.ipActive = true)
    return (s.record (.served kmsg)).leave t .success
  else
    sendPass t kmsg always timeOut s

inductive WaitResult where
  | interrupted
  | timedOut
deriving DecidableEq, Repr

def sendResume (t : Nat) (reason : WaitResult) (s : MqState) : Option MqState := do
  let th := s.threads t
  match th.activity with
  | .sending kmsg always timeOut =>
    if th.ithState = .success then
      sendPass t kmsg always timeOut s
    else
      assert (th.ithState = .sendInProgress)
      -- take ourselves off the blocked queue
      let p := s.ports kmsg.msghRemotePort
      let s := s.setPort kmsg.msghRemotePort { p with ipBlocked := p.ipBlocked.erase t }
      match reason with
      | .interrupted => return s.leave t .sendInterrupted
      | .timedOut =>
        assert (timeOut.isSome = true)
        sendPass t kmsg always (some 0) s
  | _ => none

def receivePass (t : Nat) (q : QueueId) (maxSize : Nat) (timeOut : Option Nat) (s : MqState)
    : MqState :=
  let queue := s.queues q
  match queue.imqMessages with
  | kmsg :: rest =>
    if maxSize < kmsg.msghSize then
      s.leave t (.rcvTooLarge kmsg.msghSize)
    else
      let p := s.ports kmsg.msghRemotePort
      let s := s.setQueue q { queue with imqMessages := rest }
      let s := s.setPort kmsg.msghRemotePort { p with ipSeqno := (p.ipSeqno + 1) % 2 ^ 32 }
      let s := s.record (.received kmsg p.ipSeqno t)
      let s := s.record (.picked kmsg p.ipSeqno t)
      s.setThread t { s.threads t with activity := .finishing kmsg p.ipSeqno }
  | [] =>
    if timeOut = some 0 then
      s.leave t .rcvTimedOut
    else
      let th := s.threads t
      let s := s.setQueue q { queue with imqThreads := queue.imqThreads ++ [t] }
      s.setThread t
        { th with
          activity := .receiving q maxSize timeOut
          ithState := .rcvInProgress
          ithMsize := maxSize }

def receiveFromPort (t port maxSize : Nat) (timeOut : Option Nat) (s : MqState)
    : Option MqState := do
  let p := s.ports port
  assert (p.ipActive = true)
  match p.ipPset with
  | none => return receivePass t (.port port) maxSize timeOut s
  | some pset =>
    if s.ipsActive pset then
      return s.leave t .rcvInSet
    else
      let s ← ipcPsetRemove pset port s
      return receivePass t (.port port) maxSize timeOut s

def receiveFromPset (t pset maxSize : Nat) (timeOut : Option Nat) (s : MqState)
    : Option MqState := do
  assert (s.ipsActive pset = true)
  return receivePass t (.pset pset) maxSize timeOut s

def receiveResume (t : Nat) (reason : WaitResult) (s : MqState) : Option MqState := do
  let th := s.threads t
  match th.activity with
  | .receiving q maxSize timeOut =>
    match th.ithState with
    | .success =>
      -- pick up the message that was handed to us
      let kmsg ← th.ithKmsg
      let s := s.record (.picked kmsg th.ithSeqno t)
      return s.setThread t { th with activity := .finishing kmsg th.ithSeqno }
    | .rcvTooLarge => return s.leave t (.rcvTooLarge th.ithMsize)
    | .rcvPortDied => return s.leave t .rcvPortDied
    | .rcvPortChanged => return s.leave t .rcvPortChanged
    | .rcvInProgress =>
      let queue := s.queues q
      let s := s.setQueue q { queue with imqThreads := queue.imqThreads.erase t }
      match reason with
      | .interrupted => return s.leave t .rcvInterrupted
      | .timedOut =>
        assert (timeOut.isSome = true)
        return receivePass t q maxSize (some 0) s
    | .sendInProgress => none
  | _ => none

def receiveFinish (t : Nat) (s : MqState) : Option MqState := do
  match (s.threads t).activity with
  | .finishing kmsg seqno =>
    let port := kmsg.msghRemotePort
    let p := s.ports port
    if p.ipActive then
      assert (0 < p.ipMsgcount)
      match p.ipBlocked with
      | sender :: senders =>
        if p.ipMsgcount - 1 < p.ipQlimit then
          let s := s.setPort port { p with ipMsgcount := p.ipMsgcount - 1, ipBlocked := senders }
          return (s.wake sender .success).leave t (.received kmsg seqno)
        else
          let s := s.setPort port { p with ipMsgcount := p.ipMsgcount - 1 }
          return s.leave t (.received kmsg seqno)
      | [] =>
        let s := s.setPort port { p with ipMsgcount := p.ipMsgcount - 1 }
        return s.leave t (.received kmsg seqno)
    else
      return s.leave t (.received kmsg seqno)
  | _ => none

def wakeSenders (port : Nat) : List Nat → MqState → MqState
  | [], s => s
  | sender :: senders, s =>
    let p := s.ports port
    wakeSenders port senders
      ((s.setPort port { p with ipBlocked := p.ipBlocked.tail }).wake sender .success)

def ipcPortSetQlimit (port qlimit : Nat) (s : MqState) : Option MqState := do
  let p := s.ports port
  assert (p.ipActive = true)
  let s := wakeSenders port (p.ipBlocked.take (qlimit - p.ipQlimit)) s
  return s.setPort port { s.ports port with ipQlimit := qlimit }

def clearReceiver (port : Nat) (s : MqState) : Option MqState :=
  match (s.ports port).ipPset with
  | some pset => ipcPsetRemove pset port s
  | none => some (ipcMqueueChanged (.port port) .rcvPortDied s)

def portDestroy (port : Nat) (s : MqState) : Option MqState := do
  assert ((s.ports port).ipActive = true)
  let s ← clearReceiver port s
  let s := wakeSenders port (s.ports port).ipBlocked s
  -- whoever destroys a kernel port has cleared its receiver
  let s := s.setPort port { s.ports port with ipActive := false, kernel := false, ipSeqno := 0 }
  let queue := s.queues (.port port)
  return { s.setQueue (.port port) { queue with imqMessages := [] } with
    log := s.log ++ queue.imqMessages.map .destroyed }

end Ipc
