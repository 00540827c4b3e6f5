import UtahMach.Ipc.Kernel

/-!
This module contains the functions on ports that the functions on rights call.
-/

namespace Ipc

open KProg

def ipcPortRelease (port : Nat) : KProg Unit := do
  ipLock port
  ipRelease port

def dropSright (port : Nat) : KProg (Nat × Nat) := do
  let p ← getPort port
  setPort port p.dropSright
  return (if p.ipSrights - 1 = 0 then p.ipNsrequest else ipNull, p.ipMscount)

def ipcNotifyNoSenders (port : Nat) (nsrequest : Nat × Nat) : KProg Unit :=
  notify nsrequest.1 (.noSenders port · nsrequest.2)

def ipcNotifySendOnce (port : Nat) : KProg Unit := tell [.sendOnce port false]

def ipcNotifyPortDeleted (port soright name : Nat) : KProg Unit := notify soright (.portDeleted port · name)

def DnRequests.cancel (table : DnRequests) (index : Nat) : DnRequests :=
  { table with
    iprNext := index
    iprName := Function.update table.iprName index machPortNull
    iprNotify := Function.update table.iprNotify index table.iprNext }

def DnRequests.enter (table : DnRequests) (name soright : Nat) : DnRequests :=
  let index := table.iprNext
  { table with
    iprNext := table.iprNotify index
    iprName := Function.update table.iprName index name
    iprNotify := Function.update table.iprNotify index soright }

def DnRequests.rename (table : DnRequests) (index nname : Nat) : DnRequests :=
  { table with iprName := Function.update table.iprName index nname }

def ipcPortDnrequest (port name soright : Nat) : KProg Nat := do
  let p ← getPort port
  kassert (p.ipActive = true)
  kassert (name ≠ machPortNull)
  kassert (soright ≠ ipNull)
  match p.ipDnrequests with
  | none => return 0
  | some table =>
    if table.iprNext = 0 then
      return 0
    else
      kassert (table.iprName table.iprNext = machPortNull)
      setPort port { p with ipDnrequests := some (table.enter name soright) }
      return table.iprNext

def ipcPortDncancel (port name index : Nat) : KProg Nat := do
  let p ← getPort port
  kassert (p.ipActive = true)
  kassert (name ≠ machPortNull)
  kassert (index ≠ 0)
  match p.ipDnrequests with
  | none =>
    kassert False
    return ipNull
  | some table =>
    kassert (table.iprName index = name)
    setPort port { p with ipDnrequests := some (table.cancel index) }
    return table.iprNotify index

def ipcPortDnrename (port index oname nname : Nat) : KProg Unit := do
  let p ← getPort port
  kassert (p.ipActive = true)
  match p.ipDnrequests with
  | none => kassert False
  | some table =>
    kassert (table.iprName index = oname)
    setPort port { p with ipDnrequests := some (table.rename index nname) }

structure DnGrow where
  otable : Option Nat
  its : Nat
deriving DecidableEq, Repr

def ipcPortDngrowBegin (port : Nat) : KProg DnGrow := do
  let p ← getPort port
  kassert (p.ipActive = true)
  ipReference port
  return { otable := p.ipDnrequests.map (·.addr)
           its := p.ipDnrequests.elim 0 (·.iprSize + 1) }

def DnRequests.addFree (table : DnRequests) (i : Nat) : Nat → DnRequests
  | 0 => table
  | n + 1 =>
    DnRequests.addFree
      { table with
        iprNext := i
        iprName := Function.update table.iprName i machPortNull
        iprNotify := Function.update table.iprNotify i table.iprNext }
      (i + 1) n

def DnRequests.grow (otable : Option DnRequests) (ntable its : Nat) : DnRequests :=
  match otable with
  | some table =>
    { table with addr := ntable, iprSize := its }.addFree (dnSize table.iprSize)
      (dnSize its - dnSize table.iprSize)
  | none =>
    { addr := ntable, iprSize := its, iprNext := 0, iprName := fun _ => machPortNull,
      iprNotify := fun _ => 0 : DnRequests }.addFree 1 (dnSize its - 1)

def DnGrow.isCurrent (g : DnGrow) (p : Port) : Bool :=
  p.ipActive && p.ipDnrequests.map (·.addr) == g.otable &&
    p.ipDnrequests.all (·.iprSize + 1 == g.its)

def ipcPortDngrowEnd (port : Nat) (g : DnGrow) (ntable : Option Nat) : KProg KernReturn := do
  match (if dnSize g.its = 0 then none else ntable) with
  | none =>
    ipcPortRelease port
    return .resourceShortage
  | some ntable =>
    ipLock port
    ipRelease port
    let p ← getPort port
    if g.isCurrent p then
      setPort port { p with ipDnrequests := some (.grow p.ipDnrequests ntable g.its) }
      return .success
    else
      return .success

def ipcPortClearReceiver (port : Nat) : KProg Unit := do
  let p ← getPort port
  kassert (p.ipActive = true)
  setPort port { p with ipMscount := 0 }

def Port.inLimbo (p : Port) : Port :=
  { p with ipReceiverName := machPortNull, data := .destination ipNull }

def ipcPortReleaseSend (port : Nat) : KProg Unit := do
  kassert (ioValid port = true)
  ipLock port
  ipRelease port
  tell [.releaseSend port]
  let p ← getPort port
  if p.ipActive then
    kassert (0 < p.ipSrights)
    let nsrequest ← dropSright port
    ipcNotifyNoSenders port nsrequest
  else
    return ()

def ipcPortReleaseSonce (port : Nat) : KProg Unit := do
  kassert (ioValid port = true)
  ipLock port
  tell [.releaseSonce port]
  let p ← getPort port
  kassert (0 < p.ipSorights)
  setPort port { p.release with ipSorights := p.ipSorights - 1 }

def ipcPortCopySend (port : Nat) : KProg Nat := do
  if ioValid port then
    ipLock port
    let p ← getPort port
    if p.ipActive then
      kassert (0 < p.ipSrights)
      setPort port { p.reference with ipSrights := p.ipSrights + 1 }
      return port
    else
      return ipDead
  else
    return port

def Port.isBase (p : Port) : Bool := !p.ipActive || p.ipReceiverName != machPortNull || p.ipDestination == ipNull

def chainBase : Nat → Nat → KProg Nat
  | 0, base => do
    kassert False
    return base
  | fuel + 1, base => do
    ipLock base
    let p ← getPort base
    if p.isBase then return base else chainBase fuel p.ipDestination

def kassertLimbo (port : Nat) : KProg Unit := do
  let p ← getPort port
  kassert (p.ipActive = true)
  kassert (p.ipReceiverName = machPortNull)
  kassert (p.ipDestination = ipNull)

def ipcPortCheckCircularity (port dest : Nat) : KProg Bool := do
  kassert (port ≠ ipNull)
  kassert (dest ≠ ipNull)
  if port = dest then
    return true
  else
    -- first try a quick check that can run in parallel
    ipLock port
    if ← ipLockTry dest then
      let p ← getPort dest
      if p.isBase then notCircular else checkChain
    else
      checkChain
where
  checkChain : KProg Bool := do
    let count ← portCount
    let base ← chainBase (count + 1) dest
    if port = base then
      kassertLimbo port
      return true
    else
      ipLock port
      notCircular
  notCircular : KProg Bool := do
    kassertLimbo port
    ipReference dest
    modifyPort port fun p => { p with data := .destination dest }
    return false

def ipcPortBackup (port pdrequest : Nat) : KProg Bool := do
  if ipPdsendp pdrequest then
    if ← ipcPortCheckCircularity port (ipPdsend pdrequest) then
      ipcPortReleaseSend (ipPdsend pdrequest)
      return false
    else
      tell [.portDestroyedCompat (ipPdsend pdrequest) port]
      return true
  else
    if ← ipcPortCheckCircularity port pdrequest then
      ipcPortReleaseSonce pdrequest
      return false
    else
      tell [.portDestroyed pdrequest port]
      return true

def ipcPortDestroy (port : Nat) : KProg Unit := do
  let p ← getPort port
  kassert (p.ipActive = true)
  kassert (p.ipMscount = 0)
  -- first check for a backup port
  if p.ipPdrequest ≠ ipNull then
    setPort port { p.inLimbo with ipPdrequest := ipNull }
    if ← ipcPortBackup port p.ipPdrequest then
      return ()
    else
      ipLock port
      kassertLimbo port
      let p ← getPort port
      kassert (p.ipMscount = 0)
      kassert (p.ipPdrequest = ipNull)
      die port
  else
    die port


def ipcPortReleaseReceive (port : Nat) : KProg Unit := do
  kassert (ioValid port = true)
  ipLock port
  let p ← getPort port
  kassert (p.ipActive = true)
  kassert (p.ipReceiverName = machPortNull)
  ipcPortDestroy port
  if p.ipDestination ≠ ipNull then
    ipcPortRelease p.ipDestination
  else
    return ()

-- a program that calls one of these is handled as if its commands stood there
attribute [reducible] ipcPortRelease dropSright ipcNotifyNoSenders ipcNotifySendOnce ipcNotifyPortDeleted
  ipcPortDngrowBegin ipcPortClearReceiver ipcPortReleaseSend ipcPortReleaseSonce ipcPortCopySend kassertLimbo
  ipcPortCheckCircularity.checkChain ipcPortCheckCircularity.notCircular ipcPortBackup

end Ipc
