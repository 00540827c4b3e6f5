import UtahMach.Ipc.Right.Impl

/-!
This module contains the operations on spaces that use the functions on rights.
-/

namespace Ipc

open KProg

def ipcRightLookupWrite (space name : Nat) : KProg KernReturn := do
  if ← isActive space then
    if ← entryLookup space name then return .success else return .invalidName
  else
    return .invalidTask

def withEntry {α : Type} (space name : Nat) (body : KProg (Except KernReturn α))
    : KProg (Except KernReturn α) := do
  match ← ipcRightLookupWrite space name with
  | .success => body
  | kr => return .error kr

def deallocIfNone (space name : Nat) : KProg Unit := do
  let e ← getEntry space name
  if e.type = .none then entryDealloc space name else return ()

def objectCopyin (space name : Nat) (msgtName : MsgTypeName) : KProg Copied :=
  withEntry space name do
    let copied ← ipcRightCopyin space name msgtName true
    deallocIfNone space name
    match copied with
    | .error kr => return .error kr
    | .ok (object, soright) =>
      ipcNotifyPortDeleted object soright name
      return .ok (object, ipNull)

def kmsgCopyinDest (space name : Nat) (msgtName : MsgTypeName) : KProg Copied :=
  withEntry space name do
    match ← ipcRightCopyin space name msgtName false with
    | .error kr => return .error kr
    | .ok (object, soright) =>
      deallocIfNone space name
      ipcNotifyPortDeleted object soright name
      return .ok (object, ipNull)

def objectCopyinTwo (space name : Nat) : KProg Copied :=
  withEntry space name do
    match ← ipcRightCopyinTwo space name with
    | .error kr => return .error kr
    | .ok (object, soright) =>
      deallocIfNone space name
      ipcNotifyPortDeleted object soright name
      return .ok (object, ipNull)

def objectCopyinUndo (space name : Nat) (msgtName : MsgTypeName) (deadok : Bool) : KProg Copied :=
  withEntry space name do
    match ← ipcRightCopyin space name msgtName deadok with
    | .error kr => return .error kr
    | .ok (object, soright) =>
      if object = ioDead then
        undo object soright
      else
        ipLock object
        let p ← getPort object
        if p.ipActive then
          deallocIfNone space name
          ipcNotifyPortDeleted object soright name
          return .ok (object, ipNull)
        else
          undo object soright
where
  undo (object soright : Nat) : KProg Copied := do
    ipcRightCopyinUndo space name msgtName object soright
    notify soright (.deadName object · name)
    return .error .failure

def objectCopyinCompat (space name : Nat) (msgtName : CompatName) (dealloc : Bool)
    : KProg (Except KernReturn Nat) :=
  withEntry space name (ipcRightCopyinCompat space name msgtName dealloc)

def objectCopyinHeader (space name : Nat) : KProg (Except KernReturn (Nat × PortName)) :=
  withEntry space name (ipcRightCopyinHeader space name)

def returnCode (prog : KProg KernReturn) : KProg (Except KernReturn Unit) := do
  match ← prog with
  | .success => return .ok ()
  | kr => return .error kr

def rightDealloc (space name : Nat) : KProg (Except KernReturn Unit) :=
  withEntry space name (returnCode (ipcRightDealloc space name))

def rightDelta (space name : Nat) (right : PortRight) (delta : Int)
    : KProg (Except KernReturn Unit) :=
  withEntry space name (returnCode (ipcRightDelta space name right delta))

def rightDestroy (space name : Nat) : KProg (Except KernReturn Unit) :=
  withEntry space name (returnCode (ipcRightDestroy space name))

def rightCheck (space name : Nat) : KProg (Except KernReturn Bool) :=
  withEntry space name do
    let e ← getEntry space name
    if e.type.hasPortRights then
      return .ok (← ipcRightCheck space e.object name)
    else
      return .error .invalidRight

def rightDnrequest (space name : Nat) (immediate : Bool) (notify : Nat)
    : KProg (Except KernReturn DnOutcome) :=
  withEntry space name do
    return .ok (← ipcRightDnrequest space name immediate notify)

def findRight (space object : Nat) (msgtName : PortName) : KProg (Option Nat) :=
  if msgtName ≠ .portSendOnce then ipcRightReverse space object else return none

def copyoutNew (space name object : Nat) (msgtName : PortName) (overflow : Bool)
    : KProg (Except KernReturn Nat) := do
  let e ← getEntry space name
  require (e.type = .none)
  require (e.object = ioNull)
  ipLock object
  let p ← getPort object
  if p.ipActive then
    setObject space name object
    return (← returnCode (ipcRightCopyout space name msgtName overflow object)).map fun _ => name
  else
    entryDealloc space name
    return .error .invalidCapability

def objectCopyout (space object : Nat) (msgtName : PortName) (overflow : Bool)
    : KProg (Except KernReturn Nat) := do
  kassert (ioValid object = true)
  if ← isActive space then
    let found ← findRight space object msgtName
    match found with
    | some name =>
      return (← returnCode (ipcRightCopyout space name msgtName overflow object)).map fun _ => name
    | none =>
      match ← entryGet space with
      | some name => copyoutNew space name object msgtName overflow
      | none => return .error (← entryGrowTable space)
  else
    return .error .invalidTask

def objectRename (space oname nname : Nat) : KProg (Except KernReturn Unit) := do
  match ← entryAllocName space nname with
  | .success =>
    if ← ipcRightInuse space nname then
      return .error .nameExists
    else
      -- don't let the lookup see the new entry
      let found ← if oname ≠ nname then entryLookup space oname else pure false
      if found then
        returnCode (ipcRightRename space oname nname)
      else
        entryDealloc space nname
        return .error .invalidName
  | kr => return .error kr

def machPortRename (space oname : Nat) (nname : BitVec 32) : KProg (Except KernReturn Unit) :=
  if machPortValid nname.toNat = false then return .error .invalidValue
  else objectRename space oname nname.toNat

def ipcPortLookupNotify (space name : Nat) : KProg Nat := do
  kassertActive space
  if ← entryLookup space name then
    let e ← getEntry space name
    if e.type.hasReceive = false then
      return ipNull
    else
      require (e.object ≠ ipNull)
      ipLock e.object
      kassertReceiver space name e.object
      modifyPort e.object fun p => { p.reference with ipSorights := p.ipSorights + 1 }
      return e.object
  else
    return ipNull

def ipcMarequestCreate (marequest space port notify : Nat) : KProg (Except KernReturn Unit) := do
  if ← isActive space then
    match ← ipcRightReverse space port with
    | some name =>
      let bits ← getEntry space name
      require (bits.object = port)
      require (bits.type.hasSend = true ∨ bits.type.hasReceive = true)
      if bits.marequest then
        return .error .failure
      else
        match ← notifyRight with
        | some soright =>
          setBits space name { bits with marequest := true }
          marequestCreate marequest space name soright
          return .ok ()
        | none => return .error .failure
    | none =>
      match ← notifyRight with
      | some soright =>
        marequestCreate marequest space machPortNull soright
        return .ok ()
      | none => return .error .failure
  else
    return .error .invalidTask
where
  notifyRight : KProg (Option Nat) := do
    if notify = machPortNull then
      return some ipNull
    else
      let soright ← ipcPortLookupNotify space notify
      return if soright = ipNull then none else some soright

def ipcMarequestDestroy (marequest : Nat) : KProg Unit := do
  let r ← marequestRemove marequest
  if r.imarName ≠ machPortNull then
    if ← isActive r.imarSpace then
      let found ← entryLookup r.imarSpace r.imarName
      require (found = true)
      let e ← getEntry r.imarSpace r.imarName
      require (e.marequest = true)
      require (e.type.hasSend = true ∨ e.type.hasReceive = true)
      setBits r.imarSpace r.imarName { e with marequest := false }
      accepted r r.imarName
    else
      tell (if r.imarSoright = ipNull then [] else [.msgAccepted r.imarSoright machPortNull])
  else
    tell (if r.imarSoright = ipNull then [] else [.msgAccepted r.imarSoright machPortNull])
where
  accepted (r : Imar) (name : Nat) : KProg Unit := do
    if r.imarSoright = ipNull then
      let is_notify ← isNotify r.imarSpace
      let sright ← ipcPortCopySend is_notify
      tell (if ioValid sright then [.msgAcceptedCompat sright name] else [])
    else
      tell [.msgAccepted r.imarSoright name]

attribute [reducible] deallocIfNone ipcMarequestDestroy.accepted

end Ipc
