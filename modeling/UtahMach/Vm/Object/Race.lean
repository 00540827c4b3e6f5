import UtahMach.Vm.Object.Search

/-!
This module contains a write fault that is interleaved with delayed copies of the object.
-/

open Chain

namespace Vm

variable {β : Type}

inductive FaultPc where
  | start
  | below
  | push
  | pageout (copy : Nat)
  | verify (oldCopy : Option Nat) (protWrite : Bool)
  | enter (protWrite : Bool)
  | done
deriving DecidableEq, Repr

inductive MapVerify where
  | same
  | changed (retryProtWrite : Bool)
  | gone
deriving DecidableEq, Repr

structure Race (β : Type) where
  objects : Objects β
  pagers : Pagers β
  made : Objects β × Pagers β
  pc : FaultPc
  mapping : Option Bool

inductive RaceOp (β : Type) where
  | copy
  | fault
  | look (env : FaultEnv) (lockTry : Bool)
  | search (env : FaultEnv) (lockTry : Bool)
  | push (env : FaultEnv) (lockTry : Bool)
  | pagedOut
  | verify (outcome : MapVerify) (wired : Bool)
  | enter
  | write (contents : β)

def RaceOp.isCopy : RaceOp β → Bool
  | .copy => true
  | _ => false

namespace Race

variable (a o : Nat) (zero : β)

def pushPage (env : FaultEnv) (lockTry : Bool) (st : Race β) (d : β) : Except Stop (Race β) := do
  let object ← st.objects.get a
  match object.copy with
  | none => .ok { st with pc := .verify none true }
  | some c =>
    if ¬ lockTry then
      .ok { st with pc := .push }
    else do
      let copy ← st.objects.get c
      let (ret, objects, pagers) ← Objects.pushPage env st.pagers st.objects a o d
      match ret with
      | .retry | .memoryShortage => .ok { st with pc := .start }
      | .success =>
        if (copy.memq.lookup ((o + wordSize - copy.shadowOffset) % wordSize)).isSome then
          .ok { st with pc := .verify (some c) true }
        else
          -- the page is removed from all maps
          .ok {
            st with
            objects
            pagers
            mapping := none
            pc := if copy.pagerCreated then .pageout c else .verify (some c) true
          }

def look (env : FaultEnv) (lockTry : Bool) (st : Race β) : Except Stop (Race β) := do
  let object ← st.objects.get a
  match object.memq.lookup o with
  | some (.resident d) => pushPage a o env lockTry st d
  | page =>
    match object.askPager st.pagers o with
    | some d => .ok { st with objects := st.objects.setPage a o d }
    | none =>
      let objects := if page.isSome then st.objects.dropPage a o else st.objects
      .ok { st with objects, pc := .below }

def findBelow (st : Race β) : Except Stop (Objects β × Option (Nat × Nat)) :=
  match st.objects.nextPlace (a, o) with
  | none => .ok (st.objects, none)
  | some p => Objects.findPage st.pagers false (st.objects.live.card + 1) st.objects p

def search (env : FaultEnv) (lockTry : Bool) (st : Race β) : Except Stop (Race β) := do
  let (objects, found) ← findBelow a o st
  if ¬ env.grab then
    .ok { st with objects, pc := .start }
  else
    match found with
    | none => pushPage a o env lockTry { st with objects := objects.setPage a o zero } zero
    | some p => do
      let d ← objects.pageAt p
      let objects ← (objects.setPage a o d).collapse env.collapse (some a)
      pushPage a o env lockTry { st with objects } d

def verify (outcome : MapVerify) (wired : Bool) (st : Race β) (oldCopy : Option Nat) (protWrite : Bool)
    : Except Stop (Race β) :=
  match outcome with
  | .gone => .ok { st with pc := .start }
  | .changed retryProtWrite => .ok { st with pc := .verify oldCopy (protWrite && retryProtWrite) }
  | .same => do
    let object ← st.objects.get a
    let protWrite := protWrite && object.copy = oldCopy
    if wired ∧ ¬ protWrite then
      .ok { st with pc := .start }
    else
      .ok { st with pc := .enter protWrite }

def step (st : Race β) : RaceOp β → Except Stop (Race β)
  | .copy => do
    let object ← st.objects.get a
    let (c, objects) ← st.objects.copyDelayed a
    .ok {
      st with
      objects
      made := (st.objects, st.pagers)
      -- with a new copy object the pages of the object are made copy-on-write in all maps
      mapping := if object.copy = some c then st.mapping else st.mapping.map fun _ => false
    }
  | .fault => if st.pc = .done then .ok { st with pc := .start } else .ok st
  | .look env lockTry => if st.pc = .start then look a o env lockTry st else .ok st
  | .search env lockTry => if st.pc = .below then search a o zero env lockTry st else .ok st
  | .push env lockTry =>
    if st.pc = .push then do
      let d ← st.objects.pageAt (a, o)
      pushPage a o env lockTry st d
    else
      .ok st
  | .pagedOut =>
    match st.pc with
    | .pageout c => do
      let copy ← st.objects.get c
      let object ← st.objects.get a
      if copy.shadow ≠ some a ∨ copy.refCount = 0 then
        .ok { st with pc := .push }
      else
        .ok { st with pc := .verify object.copy true }
    | _ => .ok st
  | .verify outcome wired =>
    match st.pc with
    | .verify oldCopy protWrite => verify a outcome wired st oldCopy protWrite
    | _ => .ok st
  | .enter =>
    match st.pc with
    | .enter protWrite => .ok { st with mapping := some protWrite, pc := .done }
    | _ => .ok st
  | .write contents =>
    if st.pc = .done ∧ st.mapping = some true then
      .ok { st with objects := st.objects.setPage a o contents }
    else
      .ok st

def run (st : Race β) : List (RaceOp β) → Except Stop (Race β)
  | [] => .ok st
  | op :: ops => do
    let st ← step a o zero st op
    run st ops

def Safe (st : Race β) : Prop :=
  st.mapping = some true → ∀ c ∈ (st.objects.object a).copy, ∀ d,
    st.made.1.Reads st.made.2 zero (a, o) d → (st.objects.object c).contents st.pagers o = some d

-- a page of the copy object that is absent and not busy counts as pushed
def Pushable (h : Objects β) : Prop :=
  ∀ c ∈ (h.object a).copy, ∀ page ∈ (h.object c).memq.lookup o, page.unavailable = false

def Orderly (st : Race β) : Prop :=
  st.objects.Fits ∧ st.objects.Answered st.pagers ∧ Pushable a o st.objects

def Calm : Race β → List (RaceOp β) → Prop
  | _, [] => True
  | st, op :: ops => st.Orderly a o
      ∧ (op.isCopy → st.pc ≠ .enter true)
      ∧ ∀ st', step a o zero st op = .ok st' → Calm st' ops

end Race

end Vm
