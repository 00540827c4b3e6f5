import UtahMach.Vm.Object.Rounds
import UtahMach.Vm.Object.Reference

/-!
This module contains page faults on objects and delayed copies of objects.
-/

namespace Vm

variable {β : Type}

abbrev Pagers (β : Type) := Nat → Nat → Option β

def Pagers.write (pagers : Pagers β) (pager offset : Nat) (d : β) : Pagers β :=
  Function.update pagers pager (Function.update (pagers pager) offset ((pagers pager offset).or (some d)))

def VmObject.setThere (x : VmObject β) (offset : Nat) : VmObject β :=
  { x with existenceInfo := x.existenceInfo.map fun e => Function.update e offset .isThere }

structure FaultEnv where
  collapse : CollapseEnv
  grab : Bool
  copyGrab : Bool

inductive FaultReturn where
  | success
  | retry
  | memoryShortage
deriving DecidableEq, Repr

structure Faulted (β : Type) where
  ret : FaultReturn
  objects : Objects β
  pagers : Pagers β
  page : Nat × Nat
  protWrite : Bool

namespace Objects

def setPage (h : Objects β) (a o : Nat) (d : β) : Objects β :=
  h.set a { h.object a with memq := (h.object a).memq.insert o (.resident d) }

def findPage (pagers : Pagers β) (mustBeResident : Bool)
    : Nat → Objects β → Nat × Nat → Except Stop (Objects β × Option (Nat × Nat))
  | 0, _, _ => .error .undefined
  | fuel + 1, h, (a, o) => do
    let object ← h.get a
    match object.memq.lookup o with
    | some (.resident _) => .ok (h, some (a, o))
    | page =>
      match if mustBeResident then none else object.askPager pagers o with
      | some d => .ok (h.setPage a o d, some (a, o))
      | none =>
        let h :=
          if page.isSome then
            h.set a { object with memq := object.memq.erase o, absentCount := object.absentCount - 1 }
          else
            h
        match object.shadow with
        | none => do
          Stop.check (mustBeResident = false)
          .ok (h, none)
        | some b => findPage pagers mustBeResident fuel h (b, (o + object.shadowOffset) % wordSize)

def pageAt (h : Objects β) (p : Nat × Nat) : Except Stop β := do
  let object ← h.get p.1
  match object.memq.lookup p.2 with
  | some (.resident d) => .ok d
  | _ => .error .undefined

def pushPage (env : FaultEnv) (pagers : Pagers β) (h : Objects β) (a o : Nat) (d : β)
    : Except Stop (FaultReturn × Objects β × Pagers β) := do
  let object ← h.get a
  match object.copy with
  | none => .ok (.success, h, pagers)
  | some c => do
    let copy ← h.get c
    Stop.check (0 < copy.refCount)
    let copyOffset := (o + wordSize - copy.shadowOffset) % wordSize
    match copy.memq.lookup copyOffset with
    | some (.absent true) => .ok (.retry, h, pagers)
    | some _ => .ok (.success, h, pagers)
    | none =>
      if ¬ env.copyGrab then
        .ok (.memoryShortage, h, pagers)
      else if ¬ copy.pagerCreated then
        .ok (.success, h.setPage c copyOffset d, pagers)
      else
        match copy.pager with
        | none => .error .undefined
        | some pager =>
          let offset := (copyOffset + copy.pagingOffset) % wordSize
          .ok (.success, h.set c (copy.setThere offset), pagers.write pager offset d)

def faultFound (env : FaultEnv) (pagers : Pagers β) (h : Objects β) (a o : Nat) (p : Nat × Nat)
    (write mustBeResident protWrite : Bool) : Except Stop (Faulted β) := do
  let d ← h.pageAt p
  if p.1 ≠ a ∧ write ∧ ¬ env.grab then
    .ok ⟨.memoryShortage, h, pagers, p, protWrite⟩
  else do
    Stop.check (¬ (p.1 ≠ a ∧ write ∧ mustBeResident))
    let h ← if p.1 ≠ a ∧ write then Objects.collapse env.collapse (h.setPage a o d) (some a) else .ok h
    let p := if p.1 ≠ a ∧ write then (a, o) else p
    let protWrite := if p.1 ≠ a then false else protWrite
    if ¬ write then do
      let object ← h.get a
      .ok ⟨.success, h, pagers, p, if object.copy.isSome then false else protWrite⟩
    else if mustBeResident then
      .ok ⟨.success, h, pagers, p, protWrite⟩
    else do
      let (ret, h, pagers) ← Objects.pushPage env pagers h a o d
      .ok ⟨ret, h, pagers, p, protWrite⟩

def vmFaultPage (env : FaultEnv) (pagers : Pagers β) (zero : β) (h : Objects β) (a o : Nat)
    (write mustBeResident protWrite : Bool) : Except Stop (Faulted β) := do
  let (h, found) ← findPage pagers mustBeResident (h.live.card + 1) h (a, o)
  match found with
  | some p => h.faultFound env pagers a o p write mustBeResident protWrite
  | none =>
    if env.grab then
      (h.setPage a o zero).faultFound env pagers a o (a, o) write mustBeResident protWrite
    else
      .ok ⟨.memoryShortage, h, pagers, (a, o), protWrite⟩

def linkCopy (h : Objects β) (src newCopy : Nat) : Except Stop (Objects β) := do
  let object ← h.get newCopy
  let h := h.set newCopy { object with shadow := some src, shadowOffset := 0, shadowed := true }
  let source ← h.get src
  Stop.check (0 < source.refCount)
  .ok (h.set src { source with refCount := source.refCount + 1, copy := some newCopy })

def copyDelayed (h : Objects β) (src : Nat) : Except Stop (Nat × Objects β) := do
  let source ← h.get src
  let newCopy := h.next
  let h := Objects.allocate h source.size
  match source.copy with
  | none => do
    let h ← Objects.linkCopy h src newCopy
    .ok (newCopy, h)
  | some oldCopy => do
    let old ← h.get oldCopy
    if old.residentPageCount = 0 ∧ ¬ old.pagerCreated then do
      Stop.check (0 < old.refCount)
      let h ← Objects.deallocate (h.set oldCopy { old with refCount := old.refCount + 1 }) (some newCopy)
      .ok (oldCopy, h)
    else do
      Stop.check (old.shadow = some src ∧ old.shadowOffset = 0)
      let source ← h.get src
      let h := h.set src { source with refCount := source.refCount - 1 }
      Stop.check (0 < source.refCount - 1)
      let h := h.set oldCopy { old with shadow := some newCopy }
      let object ← h.get newCopy
      Stop.check (0 < object.refCount)
      let h := h.set newCopy { object with refCount := object.refCount + 1 }
      let h ← Objects.linkCopy h src newCopy
      .ok (newCopy, h)

end Objects

end Vm
