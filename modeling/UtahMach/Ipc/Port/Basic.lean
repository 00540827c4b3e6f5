import UtahMach.Ipc.Marequest

/-!
This module contains ports and what happens when they die.
-/

namespace Ipc

def ipNull : Nat := ioNull

def ipDead : Nat := ioDead

inductive PortData where
  | receiver (space : Nat)
  | destination (port : Nat)
  | timestamp (time : Nat)
deriving DecidableEq, Repr

structure DnRequests where
  addr : Nat
  iprSize : Nat
  iprNext : Nat
  iprName : Nat → Nat
  iprNotify : Nat → Nat

def iprSpacep (soright : Nat) : Bool := soright % 2 = 1

def iprSpace (soright : Nat) : Nat := soright - soright % 2

def ipPdsendp (soright : Nat) : Bool := soright % 2 = 1

def ipPdsend (soright : Nat) : Nat := soright - soright % 2

structure Port where
  ipActive : Bool
  ipReferences : Nat
  ipReceiverName : Nat
  data : PortData
  ipMscount : Nat
  ipSrights : Nat
  ipSorights : Nat
  ipNsrequest : Nat
  ipPdrequest : Nat
  ipDnrequests : Option DnRequests

namespace Port

def ipReceiver (p : Port) : Option Nat :=
  match p.data with
  | .receiver space => some space
  | _ => none

def ipDestination (p : Port) : Nat :=
  match p.data with
  | .destination dest => dest
  | _ => ipNull

def reference (p : Port) : Port := { p with ipReferences := p.ipReferences + 1 }

def release (p : Port) : Port := { p with ipReferences := p.ipReferences - 1 }

def dropSright (p : Port) : Port :=
  { p with
    ipSrights := p.ipSrights - 1
    ipNsrequest := if p.ipSrights - 1 = 0 then ipNull else p.ipNsrequest }

end Port

inductive Notice where
  /-- The right that is gone was for `port`, which is not part of the message. -/
  | portDeleted (port notify name : Nat)
  | portDeletedCompat (notify name : Nat)
  | portDestroyed (notify port : Nat)
  | portDestroyedCompat (notify port : Nat)
  /-- The notification is about `port`, which is not part of the message. -/
  | noSenders (port notify mscount : Nat)
  /-- `request` says whether the right was registered as a request. -/
  | sendOnce (port : Nat) (request : Bool)
  /-- The right that is dead was for `port`. -/
  | deadName (port notify name : Nat)
  | msgAccepted (notify name : Nat)
  | msgAcceptedCompat (notify name : Nat)
  | deleteCompat (port space name : Nat)
  | psetDestroy (pset : Nat)
  | spaceRelease (space : Nat)
  | releaseSend (port : Nat)
  | releaseSonce (port : Nat)
deriving DecidableEq, Repr

structure World where
  ports : Nat → Port
  portCount : Nat
  isNotify : Nat → Nat
  ipcPortTimestampData : Nat
  schedule : List (List Nat)
  lockTries : List Bool
  memory : List Bool
  marequests : Marequests
  log : List Notice

namespace World

def setPort (w : World) (p : Nat) (port : Port) : World :=
  { w with ports := Function.update w.ports p port }

def tell (w : World) (notices : List Notice) : World :=
  { w with log := w.log ++ notices }

def deadNames (port : Nat) (table : DnRequests) : List Notice :=
  (List.range' 1 (dnSize table.iprSize - 1)).filterMap fun index =>
    let name := table.iprName index
    let soright := table.iprNotify index
    if name = machPortNull then none
    else if iprSpacep soright then some (.deleteCompat port (iprSpace soright) name)
    else some (.deadName port soright name)

def die (w : World) (port : Nat) : World :=
  let p := w.ports port
  let w := w.setPort port
    { p.release with ipActive := false, data := .timestamp w.ipcPortTimestampData }
  let w := { w with ipcPortTimestampData := (w.ipcPortTimestampData + 1) % 2 ^ 32 }
  let w := w.tell (if p.ipNsrequest = ipNull then [] else [.sendOnce p.ipNsrequest true])
  w.tell (p.ipDnrequests.elim [] (deadNames port))

def yield (w : World) : World :=
  match w.schedule with
  | [] => w
  | ports :: schedule =>
    ports.foldl (fun w port => if (w.ports port).ipActive then w.die port else w)
      { w with schedule := schedule }

end World

end Ipc
