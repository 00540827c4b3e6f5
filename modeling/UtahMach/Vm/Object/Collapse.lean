import UtahMach.Vm.Object.Basic

/-!
This module contains the collapse of an object with the object that it shadows.
-/

namespace Vm

variable {β : Type}

structure CollapseEnv where
  collapseAllowed : Bool
  bypassAllowed : Bool
  cacheLockTry : Nat → Bool

def movePages (backingOffset size : Nat)
    : List (Sigma fun _ : Nat => Page β) → (AList fun _ : Nat => Page β)
      → Except Stop (AList fun _ : Nat => Page β)
  | [], memq => .ok memq
  | ⟨offset, p⟩ :: rest, memq =>
    let newOffset := offset - backingOffset
    if offset < backingOffset ∨ size ≤ newOffset then
      movePages backingOffset size rest memq
    else
      match memq.lookup newOffset with
      | some (.resident _) => movePages backingOffset size rest memq
      | some (.absent _) => .error .panic
      | none => movePages backingOffset size rest (memq.insert newOffset p)

def pageNeeded (object : VmObject β) (offset : Nat) : Bool :=
  object.shadowOffset ≤ offset ∧ offset - object.shadowOffset ≤ object.size
    ∧ object.memq.lookup (offset - object.shadowOffset) = none

def VmObject.mergeWith (object backing : VmObject β) (memq : AList fun _ : Nat => Page β) : VmObject β :=
  {
    object with
    memq
    pager := backing.pager
    pagerInitialized := backing.pagerInitialized
    pagerReady := backing.pagerReady
    pagerCreated := backing.pagerCreated
    -- if there is no pager, the paging offset is left alone
    pagingOffset :=
      if backing.pager.isSome then
        (backing.pagingOffset + object.shadowOffset) % wordSize
      else
        object.pagingOffset
    existenceInfo := backing.existenceInfo
    shadow := backing.shadow
    shadowOffset := (object.shadowOffset + backing.shadowOffset) % wordSize
  }

namespace Objects

def hasCopy (h : Objects β) : Option Nat → Except Stop Bool
  | none => .ok false
  | some a => do
    let x ← h.get a
    .ok x.copy.isSome

def merge (h : Objects β) (a b : Nat) : Except Stop (Objects β) := do
  let object ← h.get a
  let backing ← h.get b
  let memq ← movePages object.shadowOffset object.size backing.memq.entries object.memq
  Stop.check (object.existenceInfo = none)
  let copied ← h.hasCopy backing.shadow
  if copied then
    .error .panic
  else
    .ok ((h.set a (object.mergeWith backing memq)).free b)

def bypass (h : Objects β) (a b : Nat) : Except Stop (Objects β) := do
  let object ← h.get a
  let backing ← h.get b
  let h ← Objects.reference h backing.shadow
  let h := h.set a {
    object with
    shadow := backing.shadow
    shadowOffset := (object.shadowOffset + backing.shadowOffset) % wordSize
  }
  let h := h.set b {
    backing with
    copy := if backing.copy = some a then none else backing.copy
    refCount := backing.refCount - 1
  }
  Stop.check (0 < backing.refCount - 1)
  .ok h

def collapseRound (env : CollapseEnv) (round : Nat) (h : Objects β) (a : Nat)
    : Except Stop (Option (Objects β)) := do
  let object ← h.get a
  if object.pagerCreated ∨ object.pagingInProgress ≠ 0 ∨ object.absentCount ≠ 0 then
    .ok none
  else
    match object.shadow with
    | none => .ok none
    | some b => do
      let backing ← h.get b
      if ¬ backing.internal ∨ backing.pagingInProgress ≠ 0 then
        .ok none
      else do
        let copied ← h.hasCopy backing.shadow
        if copied then
          .ok none
        else if backing.refCount = 1 then
          if env.cacheLockTry round then some <$> h.merge a b else .ok none
        else if ¬ env.bypassAllowed ∨ backing.pagerCreated
            ∨ backing.memq.keys.any (pageNeeded object) then
          .ok none
        else
          some <$> h.bypass a b

def collapseRounds (env : CollapseEnv) (a : Nat) : Nat → Nat → Objects β → Except Stop (Objects β)
  | 0, _, _ => .error .undefined
  | fuel + 1, round, h => do
    match ← h.collapseRound env round a with
    | none => .ok h
    | some h => collapseRounds env a fuel (round + 1) h

def collapse (env : CollapseEnv) (h : Objects β) : Option Nat → Except Stop (Objects β)
  | none => .ok h
  | some a => if env.collapseAllowed then collapseRounds env a (h.live.card + 1) 0 h else .ok h

end Objects

end Vm
