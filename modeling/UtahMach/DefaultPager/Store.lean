import UtahMach.DefaultPager.Write

/-!
This module contains how the default pager reads and writes pages, and what it does with the messages of the kernel.
-/

namespace DefaultPager

open Vm (pageSize)

abbrev Page (β : Type) := Fin pageSize → β

abbrev Transfers := List (Option Nat)

variable {β : Type}

def readPieces (disk : Nat → β) (offset : Nat) : Transfers → Nat → Page β → Option (Page β)
  | [], k, buffer => some fun i => if k ≤ i then disk (offset + i) else buffer i
  | none :: _, _, _ => none
  | some n :: rest, k, buffer =>
    let rsize := min n (pageSize - k)
    let buffer : Page β := fun i => if k ≤ i ∧ i < k + rsize then disk (offset + i) else buffer i
    if k + rsize = pageSize then some buffer else readPieces disk offset rest (k + rsize) buffer

def writePieces (page : Page β) (offset : Nat) : Transfers → Nat → (Nat → β) → Bool × (Nat → β)
  | [], k, disk =>
    (true, fun a => if h : a - offset < pageSize then
      if offset + k ≤ a then page ⟨a - offset, h⟩ else disk a else disk a)
  | none :: _, _, disk => (false, disk)
  | some n :: rest, k, disk =>
    let wsize := min n (pageSize - k)
    let disk := fun a => if h : a - offset < pageSize then
      if offset + k ≤ a ∧ a < offset + k + wsize then page ⟨a - offset, h⟩ else disk a else disk a
    if k + wsize = pageSize then (true, disk) else writePieces page offset rest (k + wsize) disk

variable {offset : Nat} {io : Transfers} {ps : Parts β} {ds : Dpager} {part : Part β}

-- the rest of the pieces and the piece that comes first
theorem ite_piece {x y : β} {i k : Nat} (n : Nat)
    : (if k + n ≤ i then x else if k ≤ i ∧ i < k + n then x else y) = if k ≤ i then x else y := by
  split_ifs <;> first | rfl | omega

theorem readPieces_eq (hio : none ∉ io) (k : Nat) (buffer : Page β) : readPieces disk offset io k buffer =
        some fun i : Fin pageSize => if k ≤ i then disk (offset + i) else buffer i := by
  induction io generalizing k buffer with
  | nil => rfl
  | cons x rest ih =>
    cases x with
    | none => exact absurd List.mem_cons_self hio
    | some n =>
      rw [readPieces]
      have hle : min n (pageSize - k) ≤ pageSize - k := Nat.min_le_right _ _
      generalize min n (pageSize - k) = rsize at hle ⊢
      split
      . next hall =>
        congr 1
        funext i
        rw [← ite_piece rsize, if_neg (show ¬ k + rsize ≤ i by omega)]
      . rw [ih (fun h => hio (List.mem_cons_of_mem _ h))]
        congr 1
        funext i
        exact ite_piece rsize

def written (page : Page β) (offset k : Nat) (disk : Nat → β) : Nat → β := fun a =>
  if h : a - offset < pageSize then if offset + k ≤ a then page ⟨a - offset, h⟩ else disk a else disk a

theorem writePieces_eq {page : Page β} (hio : none ∉ io) (k : Nat)
    (disk : Nat → β) : writePieces page offset io k disk = (true, written page offset k disk) := by
  induction io generalizing k disk with
  | nil => rfl
  | cons x rest ih =>
    cases x with
    | none => exact absurd List.mem_cons_self hio
    | some n =>
      rw [writePieces]
      have hle : min n (pageSize - k) ≤ pageSize - k := Nat.min_le_right _ _
      generalize min n (pageSize - k) = wsize at hle ⊢
      split
      . next hall =>
        congr 1
        funext a
        rw [written]
        split
        . rw [← ite_piece wsize, if_neg (show ¬ offset + k + wsize ≤ a by omega)]
        . rfl
      . rw [ih (fun h => hio (List.mem_cons_of_mem _ h))]
        congr 1
        funext a
        rw [written, written, ← Nat.add_assoc]
        split
        . exact ite_piece wsize
        . rfl

def wholeAtOnce : Transfers → Bool
  | [] => true
  | none :: _ => false
  | some n :: _ => decide (pageSize ≤ n)

inductive ReadResult (β : Type) where
  | success (page : Page β) (ownBuffer : Bool)
  | absent
  | error

def defaultRead (ps : Parts β) (ds : Dpager) (buffer : Page β) (offset : Nat) (deallocate : Bool)
    (io : Transfers) : Except Halt (Parts β × Dpager × ReadResult β) := do
  let block ← pagerReadOffset ds offset
  if block = noBlock then .ok (ps, ds, .absent)
  else
    match ← ps.partitionOf block.pIndex with
    | none => .error .astray
    | some part =>
      match readPieces part.disk (ptoa block.pOffset) io 0 buffer with
      | none => .ok (ps, ds, .error)
      | some page =>
        if deallocate then
          let (ps, ds) ← pagerReleaseOffset ps ds offset
          .ok (ps, ds, .success page (wholeAtOnce io))
        else .ok (ps, ds, .success page (wholeAtOnce io))

theorem defaultRead_absent {deallocate : Bool} (hread : pagerReadOffset ds offset = .ok noBlock)
    : defaultRead ps ds buffer offset deallocate io = .ok (ps, ds, .absent) := by
  rw [defaultRead, hread]
  rfl

theorem defaultRead_eq {deallocate : Bool} {block : Block} (hread : pagerReadOffset ds offset = .ok block)
    (hblock : block ≠ noBlock) (hpart : ps.partAt block.pIndex = some part) (hio : none ∉ io)
    : defaultRead ps ds buffer offset deallocate io = if deallocate then do
          let (ps, ds) ← pagerReleaseOffset ps ds offset
          .ok (ps, ds, .success (fun i => part.disk (ptoa block.pOffset + i)) (wholeAtOnce io))
        else .ok (ps, ds, .success (fun i => part.disk (ptoa block.pOffset + i)) (wholeAtOnce io)) := by
  rw [defaultRead, hread]
  show (if block = noBlock then _ else (ps.partitionOf block.pIndex >>= _)) = _
  rw [if_neg hblock, Parts.partitionOf_of_part hpart]
  show (match readPieces part.disk (ptoa block.pOffset) io 0 buffer with | none => _ | some page => _) = _
  rw [readPieces_eq hio]
  simp only [Nat.zero_le, if_true]

def extendFor (pager : Dpager) (fPage : Nat) : Except Halt Dpager :=
  if pager.size ≤ fPage then pagerExtend pager (fPage + 1) else .ok pager

def pagerWriteOffset (ps : Parts β) (pager : Dpager) (offset : Nat)
    : Except Halt (Parts β × Dpager × Block) := do
  let (ps, pager, go) ← fitPartition ps pager (atop offset)
  if go then
    let pager ← extendFor pager (atop offset)
    writeBlock ps pager (atop offset)
  else .ok (ps, pager, noBlock)

theorem Dpager.Usable.pagerWriteOffset (h : ps.Good) (husable : pager.Usable ps) (offset : Nat)
    : (∃ ps' pager', DefaultPager.pagerWriteOffset ps pager offset = .ok (ps', pager', noBlock) ∧ ps.Full ∧
          (pager.blockAt (atop offset) = noBlock ∨ pager.curPartition = pIndexInvalid)) ∨
        ∃ ps' pager' block, DefaultPager.pagerWriteOffset ps pager offset = .ok (ps', pager', block) ∧
          block ≠ noBlock ∧ Wrote ps pager.blockAt (atop offset) ps' pager'.blockAt block ∧ ps'.Good ∧
          ps'.length = ps.length ∧ pager'.Usable ps' ∧ pager'.curPartition ≠ pIndexInvalid ∧ pager'.size =
            if pager.size ≤ atop offset then extendedSize pager.size (atop offset + 1) else pager.size := by
  generalize hp : atop offset = p
  obtain ⟨cur, go, hfit, hvalid, hgo, hstop⟩ := husable.fitPartition h p
  rw [DefaultPager.pagerWriteOffset, hp, hfit]
  cases go with
  | false =>
    obtain ⟨-, hinvalid, hfull⟩ := hstop rfl
    exact Or.inl ⟨ps, _, rfl, hfull, Or.inr hinvalid⟩
  | true =>
    have husable1 := husable.setCur hvalid
    obtain ⟨pager2, hext, hshaped2, hcur2, hblock2, hsize2, hlt2⟩ :
        ∃ pager2, extendFor { pager with curPartition := cur } p = .ok pager2 ∧ pager2.Shaped ∧
          pager2.curPartition = cur ∧ (∀ q, pager2.blockAt q = pager.blockAt q) ∧
          pager2.size = (if pager.size ≤ p then extendedSize pager.size (p + 1) else pager.size) ∧
          p < pager2.size := by
      show ∃ pager2, (if pager.size ≤ p then _ else _) = _ ∧ _
      by_cases hsize : pager.size ≤ p
      . have hext : Extends pager.size (p + 1) := Or.inr (by
          have := le_roundupToPagemap (p + 1)
          omega)
        obtain ⟨pager2, heq, hshaped, hsize2, hcur, hblock⟩ := husable1.shaped.extend hext
        have hcovers := extendedSize_covers husable.shaped.pos (p + 1)
        rw [if_pos hsize, if_pos hsize]
        exact ⟨pager2, heq, hshaped, hcur, hblock, hsize2, by rw [hsize2]; exact hcovers⟩
      . rw [if_neg hsize, if_neg hsize]
        exact ⟨_, rfl, husable1.shaped, rfl, fun _ => rfl, rfl, Nat.lt_of_not_le hsize⟩
    have husable2 : pager2.Usable ps := ⟨hshaped2, hcur2 ▸ hvalid⟩
    obtain ⟨ps', pager', block, heq, hwrote, hgood, hlen, husable', hcur', hsize'⟩ :=
      husable2.writeBlock h (hcur2 ▸ hgo rfl) hlt2
    rw [funext hblock2] at hwrote
    have hrun : (extendFor { pager with curPartition := cur } p >>= fun pager =>
        DefaultPager.writeBlock ps pager p) = .ok (ps', pager', block) := by
      rw [hext]
      exact heq
    by_cases hblock : block = noBlock
    . rw [hblock] at hrun
      refine Or.inl ⟨ps', pager', hrun, ?_⟩
      generalize pager'.blockAt = blocks at hwrote
      cases hwrote with
      | kept hfull => exact ⟨hfull hblock, Or.inl hblock⟩
      | @fresh i off part hnone hi hstay hoff hclear =>
        have hindex := h.index i part hi
        cases hblock
        exact absurd hindex (by decide)
    . exact Or.inr ⟨ps', pager', block, hrun, hblock, hwrote, hgood, hlen, husable', hcur', hsize'.trans hsize2⟩

def defaultWrite (ps : Parts β) (ds : Dpager) (page : Page β) (offset : Nat) (io : Transfers)
    : Except Halt (Parts β × Dpager × Bool) := do
  let (ps, ds, block) ← pagerWriteOffset ps ds offset
  if block = noBlock then .ok (ps, ds, false)
  else
    match ← ps.partitionOf block.pIndex with
    | none => .error .astray
    | some part =>
      let (done, disk) := writePieces page (ptoa block.pOffset) io 0 part.disk
      .ok (ps.setPart block.pIndex (part.setDisk disk), ds, done)

theorem defaultWrite_eq {page : Page β} {block : Block} (hrun : pagerWriteOffset ps ds offset = .ok (ps', ds', block))
    (hblock : block ≠ noBlock) (hpart : ps'.partAt block.pIndex = some part) (hio : none ∉ io)
    : defaultWrite ps ds page offset io =
        .ok (ps'.setPart block.pIndex (part.setDisk (written page (ptoa block.pOffset) 0 part.disk)), ds', true) := by
  rw [defaultWrite, hrun]
  show (if block = noBlock then _ else (ps'.partitionOf block.pIndex >>= _)) = _
  rw [if_neg hblock, Parts.partitionOf_of_part hpart]
  show Except.ok (ps'.setPart block.pIndex (part.setDisk (writePieces page (ptoa block.pOffset) io 0 part.disk).2),
    ds', (writePieces page (ptoa block.pOffset) io 0 part.disk).1) = _
  rw [writePieces_eq hio]

def defaultHasPage (ds : Dpager) (offset : Nat) : Except Halt Bool := do
  let block ← pagerReadOffset ds offset
  .ok (decide (block ≠ noBlock))

structure Object where
  dpager : Dpager
  errors : Nat
deriving DecidableEq, Repr

structure Store (β : Type) where
  parts : Parts β
  objects : List Object

inductive Reply (β : Type) where
  | supply (page : Page β)
  | provided (page : Page β)
  | unavailable
  | error

abbrev Pages (β : Type) := List (Page β × Transfers)

inductive Message (β : Type) where
  | create (newSize : Nat)
  | dataWrite (object : Nat) (offset : Nat) (pages : Pages β)
  | dataInitialize (object : Nat) (offset : Nat) (pages : Pages β)
  | dataRequest (object : Nat) (offset : Nat) (write : Bool) (buffer : Page β) (io : Transfers)

def pagerPortAlloc (ps : Parts β) (size : Nat) : Except Halt (Parts β × Object) := do
  let (ps, part) ← choosePartition ps size pIndexInvalid
  let (ps, part) ← if part = pIndexInvalid then choosePartition ps 0 pIndexInvalid else .ok (ps, part)
  .ok (ps, ⟨pagerAlloc part size, 0⟩)

def writeOne (ps : Parts β) (ds : Object) (page : Page β) (offset : Nat) (io : Transfers)
    : Except Halt (Parts β × Object) := do
  let (ps, dpager, done) ← defaultWrite ps ds.dpager page offset io
  .ok (ps, ⟨dpager, if done then ds.errors else ds.errors + 1⟩)

def initializeOne (ps : Parts β) (ds : Object) (page : Page β) (offset : Nat) (io : Transfers)
    : Except Halt (Parts β × Object) := do
  if ← defaultHasPage ds.dpager offset then .ok (ps, ds) else writeOne ps ds page offset io

def eachPage (one : Parts β → Object → Page β → Nat → Transfers → Except Halt (Parts β × Object))
    (ps : Parts β) (ds : Object) (offset : Nat) : Pages β → Except Halt (Parts β × Object)
  | [] => .ok (ps, ds)
  | (page, io) :: rest => do
    let (ps, ds) ← one ps ds page (offset % 2 ^ 32) io
    eachPage one ps ds (offset + pageSize) rest

theorem Dpager.Usable.pagerReleaseOffset
    (h : ps.Good) (husable : pager.Usable ps) (hb : pager.blockAt (atop offset) ≠ noBlock)
    (hi : ps.partAt (pager.blockAt (atop offset)).pIndex = some part)
    (hset : Bitmap.test part.bitmap (pager.blockAt (atop offset)).pOffset = true)
    : ∃ pager', DefaultPager.pagerReleaseOffset ps pager offset = .ok (ps.setPart (pager.blockAt (atop offset)).pIndex
            (part.release (pager.blockAt (atop offset)).pOffset), pager') ∧
        pager'.Shaped ∧ pager'.size = pager.size ∧ pager'.curPartition = pager.curPartition ∧
        ∀ q, pager'.blockAt q = if atop offset = q then noBlock else pager.blockAt q := by
  have hlt := husable.shaped.lt_of_blockAt hb
  obtain ⟨pager', hentry, hrest⟩ := husable.shaped.setEntry hlt (reaches_of_blockAt hb) noBlock
  refine ⟨pager', ?_, hrest⟩
  rw [DefaultPager.pagerReleaseOffset, husable.shaped.entry hlt]
  show (pager.setEntry (atop offset) noBlock >>= _) = _
  rw [hentry]
  show (pagerDeallocPage ps _ _ true >>= _) = _
  rw [h.pagerDeallocPage_eq hi hset]
  rfl

def dataRequest (ps : Parts β) (ds : Object) (offset : Nat) (write : Bool) (buffer : Page β)
    (io : Transfers) : Except Halt (Parts β × Object × Reply β) :=
  if ds.errors ≠ 0 then .ok (ps, ds, .error)
  else do
    let (ps, dpager, rc) ← defaultRead ps ds.dpager buffer offset write io
    let ds := { ds with dpager := dpager }
    match rc with
    | .success page true => .ok (ps, ds, .supply page)
    | .success page false => .ok (ps, ds, .provided page)
    | .absent => .ok (ps, ds, .unavailable)
    | .error => .ok (ps, ds, .error)

namespace Store

def lookup (s : Store β) (here : String) (object : Nat) : Except Halt Object :=
  match s.objects[object]? with
  | none => .error (.panic here)
  | some ds => .ok ds

def setObject (s : Store β) (object : Nat) (ps : Parts β) (ds : Object) : Store β := ⟨ps, s.objects.set object ds⟩

def step (s : Store β) : Message β → Except Halt (Store β × Option (Reply β))
  | .create newSize => do
    let (ps, ds) ← pagerPortAlloc s.parts newSize
    .ok (⟨ps, s.objects ++ [ds]⟩, none)
  | .dataWrite object offset pages => do
    let ds ← s.lookup "%sdata_write" object
    let (ps, ds) ← eachPage writeOne s.parts ds offset pages
    .ok (s.setObject object ps ds, none)
  | .dataInitialize object offset pages => do
    let ds ← s.lookup "%sdata_initialize" object
    let (ps, ds) ← eachPage initializeOne s.parts ds offset pages
    .ok (s.setObject object ps ds, none)
  | .dataRequest object offset write buffer io => do
    let ds ← s.lookup "%sdata_request" object
    let (ps, ds, reply) ← DefaultPager.dataRequest s.parts ds (offset % 2 ^ 32) write buffer io
    .ok (s.setObject object ps ds, some reply)

def run (s : Store β) : List (Message β) → Except Halt (Store β × List (Reply β))
  | [] => .ok (s, [])
  | m :: ms => do
    let (s, reply) ← s.step m
    let (s, replies) ← s.run ms
    .ok (s, reply.toList ++ replies)

end Store

end DefaultPager
