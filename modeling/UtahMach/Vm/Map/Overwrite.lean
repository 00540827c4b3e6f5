import UtahMach.Vm.Map.Cover

/-!
This module contains the call that overwrites a region of a map with a copy of other memory.
-/

namespace Vm

inductive OverwriteEvent where
  | start
  | found (lo hi : Nat)
  | wrote (lo hi : Nat)
deriving DecidableEq, Repr

inductive OverwritePc where
  | startPass1
  | pass1 (before seen rest : List MapEntry)
  | pass2 (start : Nat) (before rest : List MapEntry)
  | faultCopy (start : Nat) (before rest : List MapEntry) (version amountDone : Nat)
  | relock (start : Nat) (before rest : List MapEntry) (version copySize : Nat)
  | done (ret : KernReturn)
deriving DecidableEq, Repr

structure Overwrite (β : Type) where
  map : VmMap
  timestamp : Nat
  temporary : Nat → Bool
  mem : Nat → Nat → β
  zero : β
  dstAddr : Nat
  copySize : Nat
  copy : List MapEntry
  size : Nat
  pc : OverwritePc
  log : List OverwriteEvent

inductive PageOutcome where
  | copied
  | copyChanged
  | memoryError
deriving DecidableEq, Repr

inductive OverwriteOp where
  | run (outcome : PageOutcome)
  | change (m : { m : VmMap // m.WellFormed })
  | touch

variable {β : Type}

namespace Overwrite

def contents (s : Overwrite β) (e : MapEntry) (p : Nat) : β :=
  match e.source p with
  | none => s.zero
  | some (object, offset) => s.mem object offset

def read (s : Overwrite β) (p : Nat) : Option β := (s.map.entryAt p).map (s.contents · p)

def Locked (s : Overwrite β) : Prop :=
  match s.pc with
  | .pass1 .. | .pass2 .. => True
  | _ => False

instance (s : Overwrite β) : Decidable s.Locked := by
  unfold Locked
  split <;> infer_instance

def finish (s : Overwrite β) (ret : KernReturn) : Overwrite β := { s with pc := .done ret }

def startPass1 (s : Overwrite β) : Overwrite β :=
  let (hdr, place) := s.map.lookupEntry s.dstAddr
  let s := { s with timestamp := s.timestamp + 1, map := { s.map with hdr := hdr }, log := .start :: s.log }
  match place.found, place.after with
  | true, entry :: rest =>
    let (hdr, front, entry) := hdr.clipStart entry s.dstAddr
    { s with
      map := ⟨hdr, place.before ++ front ++ entry :: rest⟩
      pc := .pass1 (place.before ++ front) [] (entry :: rest) }
  | _, _ => s.finish .invalidAddress

def pass1 (s : Overwrite β) (before seen : List MapEntry) (entry : MapEntry) (rest : List MapEntry)
    : Overwrite β :=
  if ¬ entry.isWritable then
    s.finish .protectionFailure
  else if entry.inTransition then
    { s with
      map := { s.map with entries := before ++ seen ++ { entry with needsWakeup := true } :: rest }
      pc := .startPass1 }
  else
    let s := { s with log := .found entry.vmeStart entry.vmeEnd :: s.log }
    if s.size ≤ entry.length then
      { s with pc := .pass2 s.dstAddr before (seen ++ entry :: rest) }
    else if (rest.head?.any fun next => next.vmeStart = entry.vmeEnd) then
      { s with size := s.size - entry.length, pc := .pass1 before (seen ++ [entry]) rest }
    else
      s.finish .invalidAddress

def replaced (entry copyEntry : MapEntry) : MapEntry :=
  { entry with
    object := copyEntry.object
    offset := copyEntry.offset
    needsCopy := copyEntry.needsCopy
    wiredCount := 0
    userWiredCount := 0 }

def clipEntry (hdr : MapHeader) (entry copyEntry : MapEntry) : MapHeader × MapEntry × List MapEntry :=
  if copyEntry.length < entry.length then
    hdr.clipEnd entry (entry.vmeStart + copyEntry.length)
  else
    (hdr, entry, [])

def clipCopy (copyEntry : MapEntry) (size : Nat) : MapEntry × List MapEntry :=
  if size < copyEntry.length then
    (copyEntry.front (copyEntry.vmeStart + size), [copyEntry.rear (copyEntry.vmeStart + size)])
  else
    (copyEntry, [])

def pass2 (s : Overwrite β) (start : Nat) (before : List MapEntry) (entry : MapEntry) (rest : List MapEntry)
    (copyEntry : MapEntry) (copy : List MapEntry) : Except Stop (Overwrite β) :=
  if entry.vmeStart ≠ start then
    .ok (s.finish .invalidAddress)
  else if ¬ entry.isWritable then
    .ok (s.finish .protectionFailure)
  else do
    let (hdr, entry, rear) := clipEntry s.map.hdr entry copyEntry
    let (copyEntry, copyRear) := clipCopy copyEntry entry.length
    Stop.check (copyEntry.length = entry.length)
    if ¬ entry.isShared ∧ entry.object.all s.temporary then
      let entry := replaced entry copyEntry
      .ok { s with
        map := ⟨hdr, before ++ entry :: (rear ++ rest)⟩
        copy := copyRear ++ copy
        log := .wrote entry.vmeStart entry.vmeEnd :: s.log
        pc := .pass2 entry.vmeEnd (before ++ [entry]) (rear ++ rest) }
    else
      .ok { s with
        map := ⟨hdr, before ++ entry :: (rear ++ rest)⟩
        copy := copyEntry :: (copyRear ++ copy)
        pc := .faultCopy start before (entry :: (rear ++ rest)) s.timestamp 0 }

def writePage (s : Overwrite β) (copyEntry : MapEntry) (object offset amountDone : Nat) : Nat → Nat → β :=
  fun o x =>
    if o = object ∧ offset + amountDone ≤ x ∧ x < offset + amountDone + pageSize then
      s.contents copyEntry (copyEntry.vmeStart + (x - offset))
    else
      s.mem o x

def faultCopy (s : Overwrite β) (start : Nat) (before : List MapEntry) (entry : MapEntry) (rest : List MapEntry)
    (copyEntry : MapEntry) (version amountDone : Nat) (outcome : PageOutcome) : Except Stop (Overwrite β) :=
  match outcome, entry.object with
  | _, none => .error .undefined
  | .memoryError, _ => .ok (s.finish .memoryError)
  | outcome, some object =>
    if s.timestamp ≠ version ∨ outcome = .copyChanged then
      .ok { s with pc := .relock start before (entry :: rest) version amountDone }
    else
      .ok { s with
        mem := s.writePage copyEntry object entry.offset amountDone
        log := .wrote (start + amountDone) (start + amountDone + pageSize) :: s.log
        pc :=
          if amountDone + pageSize = entry.length then
            .relock start before (entry :: rest) version (amountDone + pageSize)
          else
            .faultCopy start before (entry :: rest) version (amountDone + pageSize) }

def relock (s : Overwrite β) (start : Nat) (before : List MapEntry) (entry : MapEntry) (rest : List MapEntry)
    (copyEntry : MapEntry) (copy : List MapEntry) (version copySize : Nat) : Overwrite β :=
  let start := start + copySize
  let copy := if copySize ≠ 0 then (clipCopy copyEntry copySize).2 ++ copy else copyEntry :: copy
  let timestamp := s.timestamp + 1
  if version + 1 = timestamp then
    let (hdr, entry, rear) := s.map.hdr.clipEnd entry start
    { s with
      map := ⟨hdr, before ++ entry :: (rear ++ rest)⟩
      timestamp := timestamp
      copy := copy
      pc := .pass2 start (before ++ [entry]) (rear ++ rest) }
  else
    let (hdr, place) := s.map.lookupEntry start
    let s := { s with timestamp := timestamp, map := { s.map with hdr := hdr }, copy := copy }
    match place.found, place.after with
    | true, entry :: rest =>
      let (hdr, front, entry) := hdr.clipStart entry start
      { s with
        map := ⟨hdr, place.before ++ front ++ entry :: rest⟩
        pc := .pass2 start (place.before ++ front) (entry :: rest) }
    | _, _ => s.finish .invalidAddress

def advance (s : Overwrite β) (outcome : PageOutcome) : Except Stop (Overwrite β) :=
  match s.pc with
  | .startPass1 => .ok s.startPass1
  | .pass1 before seen (entry :: rest) => .ok (s.pass1 before seen entry rest)
  | .pass1 _ _ [] => .error .undefined
  | .pass2 start before rest =>
    match s.copy, rest with
    | [], _ => .ok (s.finish .success)
    | _ :: _, [] => do
      Stop.check (s.map.hdr.minOffset ≠ start)
      .ok (s.finish .invalidAddress)
    | copyEntry :: copy, entry :: rest => s.pass2 start before entry rest copyEntry copy
  | .faultCopy start before rest version amountDone =>
    match s.copy, rest with
    | copyEntry :: _, entry :: rest => s.faultCopy start before entry rest copyEntry version amountDone outcome
    | _, _ => .error .undefined
  | .relock start before rest version copySize =>
    match s.copy, rest with
    | copyEntry :: copy, entry :: rest => .ok (s.relock start before entry rest copyEntry copy version copySize)
    | _, _ => .error .undefined
  | .done _ => .ok s

def step (s : Overwrite β) : OverwriteOp → Except Stop (Overwrite β)
  | .run outcome => s.advance outcome
  | .change m => .ok (if s.Locked then s else { s with map := m.1, timestamp := s.timestamp + 1 })
  -- another thread takes the lock and changes nothing
  | .touch => .ok (if s.Locked then s else { s with timestamp := s.timestamp + 1 })

def run (s : Overwrite β) : List OverwriteOp → Except Stop (Overwrite β)
  | [] => .ok s
  | op :: ops => do
    let s ← s.step op
    run s ops

def copyOverwrite (m : VmMap) (temporary : Nat → Bool) (mem : Nat → Nat → β) (zero : β)
    (dstAddr copyOffset copySize : Nat) (copy : List MapEntry) : Overwrite β where
  map := m
  timestamp := 0
  temporary := temporary
  mem := mem
  zero := zero
  dstAddr := dstAddr
  copySize := copySize
  copy := copy
  size := copySize
  pc :=
    if copyOffset % pageSize ≠ 0 ∨ copySize % pageSize ≠ 0 ∨ dstAddr % pageSize ≠ 0 then
      .done .invalidArgument
    else if copySize = 0 then
      .done .success
    else
      .startPass1
  log := []

end Overwrite

end Vm
