import UtahMach.Data.Prog
import UtahMach.Ipc.Entry.Impl
import UtahMach.Ipc.Port.Basic

/-!
This module contains the kernel that the functions on rights run on.
-/

namespace Ipc

inductive KernelCmd where
  | isActive (space : Nat)
  | lookup (space name : Nat)
  | entryGet (space : Nat)
  | allocName (space name : Nat)
  | growTable (space : Nat)
  | hashLookup (space obj : Nat)
  | entry (space name : Nat)
  | store (space name : Nat) (r : Right)
  | hashInsert (space obj name : Nat)
  | hashDelete (space obj name : Nat)
  | dealloc (space name : Nat)
  | isNotify (space : Nat)
  | portCount
  | port (p : Nat)
  | setPort (p : Nat) (port : Port)
  | die (p : Nat)
  | tell (notices : List Notice)
  | marequestCreate (marequest space name soright : Nat)
  | marequestCancel (space name : Nat)
  | marequestRename (space oname nname : Nat)
  | marequestRemove (marequest : Nat)
  | lockTry
  | assert (b : Bool)
  | require (b : Bool)
  | yield

def KernelCmd.onPorts : KernelCmd → Bool
  | .setPort .. | .die _ | .tell _ | .yield => true
  | _ => false

def kernelIface : Iface where
  Cmd := KernelCmd
  Res
    | .isActive _ => Bool
    | .lookup _ _ => Bool
    | .entryGet _ => Option Nat
    | .allocName _ _ => KernReturn
    | .growTable _ => KernReturn
    | .hashLookup _ _ => Option Nat
    | .entry _ _ => Right
    | .isNotify _ => Nat
    | .portCount => Nat
    | .port _ => Port
    | .marequestRemove _ => Imar
    | .lockTry => Bool
    | _ => Unit

def orUndefined {α : Type} (x : Option α) : Except Stop α := x.elim (.error .undefined) .ok

namespace World

def marequestCreate (w : World) (marequest space name soright : Nat) : Except Stop (Unit × World) :=
  match w.marequests.create marequest space name soright with
  | some m => .ok ((), { w with marequests := m })
  | none => .error .panic

def marequestCancel (w : World) (space name : Nat) : Except Stop (Unit × World) :=
  orUndefined (w.marequests.cancel space name) |>.map fun m => ((), { w with marequests := m })

def marequestRename (w : World) (space oname nname : Nat) : Except Stop (Unit × World) :=
  orUndefined (w.marequests.rename space oname nname) |>.map fun m => ((), { w with marequests := m })

def marequestRemove (w : World) (marequest : Nat) : Except Stop (Imar × World) :=
  match w.marequests.imar marequest with
  | none => .error .panic
  | some _ =>
    orUndefined (w.marequests.remove marequest) |>.map fun (r, m) => (r, { w with marequests := m })

def machine : (c : KernelCmd) → World → Except Stop (kernelIface.Res c × World)
  | .isNotify space, w => .ok (w.isNotify space, w)
  | .portCount, w => .ok (w.portCount, w)
  | .port p, w => .ok (w.ports p, w)
  | .setPort p port, w => .ok ((), w.setPort p port)
  | .die p, w => .ok ((), w.die p)
  | .tell notices, w => .ok ((), w.tell notices)
  | .marequestCreate marequest space name soright, w =>
    w.marequestCreate marequest space name soright
  | .marequestCancel space name, w => w.marequestCancel space name
  | .marequestRename space oname nname, w => w.marequestRename space oname nname
  | .marequestRemove marequest, w => w.marequestRemove marequest
  | .lockTry, w => .ok (w.lockTries.headD true, { w with lockTries := w.lockTries.tail })
  | .assert b, w => if b then .ok ((), w) else .error .panic
  | .require b, w => if b then .ok ((), w) else .error .undefined
  | .yield, w => .ok ((), w.yield)
  | _, _ => .error .undefined

end World

structure Kernel where
  spaces : Nat → Space
  held : Nat → Nat → Loc
  world : World

namespace Kernel

def setSpace (k : Kernel) (space : Nat) (s : Space) : Kernel :=
  { k with spaces := Function.update k.spaces space s }

def hold (k : Kernel) (space name : Nat) (loc : Loc) : Kernel :=
  { k with held := Function.update k.held space (Function.update (k.held space) name loc) }

def machine : Prog.Machine kernelIface Kernel
  | .isActive space, k => .ok ((k.spaces space).isActive, k)
  | .lookup space name, k =>
    orUndefined (ipcEntryLookup (k.spaces space) name) |>.map fun
      | (none, s) => (false, k.setSpace space s)
      | (some loc, s) => (true, (k.setSpace space s).hold space name loc)
  | .entryGet space, k =>
    orUndefined (ipcEntryGet (k.spaces space)) |>.map fun
      | (.error _, s) => (none, k.setSpace space s)
      | (.ok (name, loc), s) => (some name, (k.setSpace space s).hold space name loc)
  | .allocName space name, k =>
    orUndefined (ipcEntryAllocName name 4 false k.world.memory (k.spaces space)) |>.map fun
      | (.error kr, mem, s) => (kr, { k.setSpace space s with world := { k.world with memory := mem } })
      | (.ok loc, mem, s) =>
        (.success, { (k.setSpace space s).hold space name loc with world := { k.world with memory := mem } })
  | .growTable space, k =>
    orUndefined (ipcEntryGrowTable ipcTableEntriesSize k.world.memory (k.spaces space)) |>.map fun
      | (kr, mem, s) => (kr, { k.setSpace space s with world := { k.world with memory := mem } })
  | .hashLookup space obj, k =>
    orUndefined (ipcHashLookup (k.spaces space) obj) |>.map fun
      | (none, s) => (none, k.setSpace space s)
      | (some (name, loc), s) => (some name, (k.setSpace space s).hold space name loc)
  | .entry space name, k =>
    orUndefined ((k.spaces space).entry (k.held space name)) |>.map fun e => (e.right, k)
  | .store space name r, k =>
    orUndefined ((k.spaces space).entry (k.held space name)) |>.map fun e =>
      ((), k.setSpace space ((k.spaces space).setEntry (e.setRight r) (k.held space name)))
  | .hashInsert space obj name, k =>
    orUndefined (ipcHashInsert (k.spaces space) obj name (k.held space name)) |>.map fun s => ((), k.setSpace space s)
  | .hashDelete space obj name, k =>
    orUndefined (ipcHashDelete (k.spaces space) obj name (k.held space name)) |>.map fun s => ((), k.setSpace space s)
  | .dealloc space name, k =>
    orUndefined (ipcEntryDealloc (k.spaces space) name (k.held space name)) |>.map fun s => ((), k.setSpace space s)
  | c, k => (World.machine c k.world).map fun (r, w) => (r, { k with world := w })

end Kernel

abbrev KProg := Prog kernelIface

namespace KProg

def call (c : KernelCmd) : KProg (kernelIface.Res c) := @Prog.call kernelIface c

def isActive (space : Nat) : KProg Bool := call (.isActive space)

def entryLookup (space name : Nat) : KProg Bool := call (.lookup space name)

def entryGet (space : Nat) : KProg (Option Nat) := call (.entryGet space)

def entryAllocName (space name : Nat) : KProg KernReturn := call (.allocName space name)

def entryGrowTable (space : Nat) : KProg KernReturn := call (.growTable space)

def hashLookup (space obj : Nat) : KProg (Option Nat) := call (.hashLookup space obj)

def getEntry (space name : Nat) : KProg Right := call (.entry space name)

def setEntry (space name : Nat) (r : Right) : KProg Unit := call (.store space name r)

def hashInsert (space obj name : Nat) : KProg Unit := call (.hashInsert space obj name)

def hashDelete (space obj name : Nat) : KProg Unit := call (.hashDelete space obj name)

def entryDealloc (space name : Nat) : KProg Unit := call (.dealloc space name)

def isNotify (space : Nat) : KProg Nat := call (.isNotify space)

def portCount : KProg Nat := call .portCount

def getPort (port : Nat) : KProg Port := call (.port port)

def setPort (port : Nat) (p : Port) : KProg Unit := call (.setPort port p)

def die (port : Nat) : KProg Unit := call (.die port)

def tell (notices : List Notice) : KProg Unit := call (.tell notices)

def marequestCreate (marequest space name soright : Nat) : KProg Unit :=
  call (.marequestCreate marequest space name soright)

def marequestCancel (space name : Nat) : KProg Unit := call (.marequestCancel space name)

def marequestRename (space oname nname : Nat) : KProg Unit := call (.marequestRename space oname nname)

def marequestRemove (marequest : Nat) : KProg Imar := call (.marequestRemove marequest)

def ipLockTry (_port : Nat) : KProg Bool := call .lockTry

def kassert (p : Prop) [Decidable p] : KProg Unit := call (.assert (decide p))

def require (p : Prop) [Decidable p] : KProg Unit := call (.require (decide p))

def ipLock (_port : Nat) : KProg Unit := call .yield

def modifyPort (port : Nat) (f : Port → Port) : KProg Unit := do
  setPort port (f (← getPort port))

def ipReference (port : Nat) : KProg Unit := modifyPort port Port.reference

def ipRelease (port : Nat) : KProg Unit := modifyPort port Port.release

def notify (soright : Nat) (notice : Nat → Notice) : KProg Unit :=
  tell (if soright = ipNull then [] else [notice soright])

-- a program that calls one of these is handled as if its commands stood there
attribute [reducible] modifyPort ipReference ipRelease notify

end KProg

end Ipc
