import UtahMach.Ipc.Right.Copyin

/-!
This module contains proofs that entries stay well-formed when rights are found, copied out and renamed.
-/

namespace Ipc

open Cells (at_self)

open PortType

open KProg

variable {active : Nat → Bool} {c : Cells} {k : Nat × Nat} {space name object : Nat} {r : Right}
  {h q : Bool}

structure New (c : Cells) (k : Nat × Nat) (object : Nat) (r : Right) (h q : Bool)
    : Prop where
  others : OthersOk c k
  right : r = { Right.null with object := object }
  hashed : h = false
  marequest : q = false

theorem AllOk.cell (ha : AllOk c) (hr : (c k).right = some r) : At c k r (c k).hashed (c k).request := by
  have hok := ha k
  unfold CellOk at hok
  rw [hr] at hok
  exact ⟨ha.others k, hok.1, hok.2.1, hok.2.2⟩

theorem Cells.at_comm (c : Cells) {k k' : Nat × Nat} (hne : k ≠ k') (r r' : Right) (h q h' q' : Bool)
    : (c.at k r h q).at k' r' h' q' = (c.at k' r' h' q').at k r h q :=
  Function.update_comm hne ..

theorem Cells.hold_eq (c : Cells) (hr : (c k).right = some r) : c.hold k = c.at k r (c k).hashed (c k).request := by
  unfold Cells.hold Cells.at
  simp only [hr]

namespace Ver

theorem isActive (ht : active space = true → Q true c)
    (hf : active space = false → Q false c) : Ver active (isActive space) Q c := by
  show Q (active space) c
  cases hact : active space with
  | true => exact ht hact
  | false => exact hf hact

theorem kassertActive (hq : active space = true → Q () c) : Ver active (kassertActive space) Q c :=
  bind (isActive (fun hact => kassert fun _ => hq hact) fun _ => kassert fun hf => nomatch hf)

theorem entryLookup (hact : active space = true) (ha : AllOk c) (hnone : Q false c)
    (hsome : ∀ r h q, (c (space, name)).right = some r → At c (space, name) r h q →
      Q true (c.at (space, name) r h q)) : Ver active (entryLookup space name) Q c := by
  refine ⟨hact, fun r hr => (ha.cell hr).ok.type_ne, fun _ => hnone, fun hne => ?_⟩
  obtain ⟨r, hr⟩ := Option.ne_none_iff_exists'.mp hne
  have hq := hsome r _ _ hr (ha.cell hr)
  rw [← c.hold_eq hr] at hq
  exact hq

theorem hashLookup (hact : active space = true) (hvalid : object ≠ ioNull) (ha : AllOk c) (hnone : Q none c)
    (hsome : ∀ n r h q, n ≠ machPortNull → At c (space, n) r h q → r.type = .send →
      r.object = object → Q (some n) (c.at (space, n) r h q)) : Ver active (hashLookup space object) Q c := by
  refine ⟨hact, hvalid, ha, hnone, fun n r hn hr ht hobj => ?_⟩
  have hq := hsome n r _ _ hn (ha.cell hr) ht hobj
  rw [← c.hold_eq hr] at hq
  exact hq

theorem ipcRightReverse (ha : AllOk c) (hnone : Q none c)
    (hsome : ∀ n r h q, n ≠ machPortNull → At c (space, n) r h q → r.object = object →
      (r.type.hasSend = true ∨ r.type.hasReceive = true) → Q (some n) (c.at (space, n) r h q))
    : Ver active (ipcRightReverse space object) Q c := by
  refine bind (kassertActive fun hact => kassert fun hvalid => inert fun _ => inert fun p => ?_)
  refine ite (fun _ => ret hnone) fun _ => ite (fun _ => ?_) fun _ => ?_
  . refine kassert fun hn => bind (entryLookup hact ha (kassert fun hf => nomatch hf) ?_)
    intro r h q _ hat
    refine kassert fun _ => getEntry (kassert fun ht => kassert fun hobj => ret ?_)
    exact hsome _ r h q hn hat hobj (.inr ht)
  . simp only [ioValid, Bool.and_eq_true, bne_iff_ne] at hvalid
    refine bind (hashLookup hact hvalid.1 ha (ret hnone) fun n r h q hn hat ht hobj => ?_)
    refine getEntry (require ht (require hobj (ret ?_)))
    exact hsome n r h q hn hat hobj (.inl (by rw [ht]; rfl))

theorem ipcRightCopyout_addSend (ho : OthersOk c (space, name))
    (hh : (h = true ↔ r'.type.withSend = .send)) (hq : q = r'.marequest)
    (ht : r'.type.withSend.hasSend = true) (hvalid : ioValid r.object = true) (hlt : r'.urefs + 1 < machPortUrefsMax)
    : Keeps active (ipcRightCopyout.addSend space name r') (c.at (space, name) r h q) := by
  refine bind (addUrefs ?_ (ret (At.allOk ⟨ho, ?_, hh, hq⟩)))
  . simp only
    omega
  . refine .of_hasSend ht hvalid ?_ ?_
    . simp only [Right.addUrefs]
      omega
    . simp only [Right.addUrefs]
      omega

theorem ipcRightCopyout_addReceive (ho : OthersOk c (space, name))
    (hh : h = false) (hq : q = r'.marequest) (hvalid : ioValid r.object = true)
    (ht : r'.type = .send ∧ 0 < r'.urefs ∧ r'.urefs < machPortUrefsMax ∨ r'.type = .none ∧ r'.urefs = 0)
    : Keeps active (ipcRightCopyout.addReceive space name r' dest) (c.at (space, name) r h q) := by
  have hat : At c (space, name) { r' with type := r'.type.withReceive, object := r.object,
                                                 request := r.request } h q := by
    refine ⟨ho, ?_, ?_, hq⟩
    . obtain ⟨ht, hpos, hlt⟩ | ⟨ht, hurefs⟩ := ht
      . exact .of_hasSend (by rw [ht]; rfl) hvalid hpos hlt
      . exact .of_receive (by rw [ht]; rfl) hvalid hurefs
    . rw [hh]
      obtain ⟨ht, -, -⟩ | ⟨ht, -⟩ := ht <;> simp [ht, withReceive]
  refine setBits (ite (fun _ => ?_) fun _ => ret hat.allOk)
  exact rest fun _ => hat.allOk

theorem ipcRightCopyout_keeps {msgtName : PortName}
    (ha : At c (space, name) r h q) (hname : msgtName ≠ .portSendOnce)
    (ht : r.type.hasSend = true ∨ r.type.hasReceive = true) (hobj : r.object = object)
    : Keeps active (ipcRightCopyout space name msgtName overflow object) (c.at (space, name) r h q) := by
  refine getEntry (inert fun p => kassert fun hvalid => kassert fun _ => require hobj ?_)
  rw [← hobj] at hvalid
  have hlt := ha.ok.urefs_lt (ht.elim hasPortRights_of_hasSend hasPortRights_of_hasReceive)
  cases msgtName with
  | portSendOnce => contradiction
  | portSend =>
    refine kassert fun _ => ite (fun hsend => ?_) fun hsend => ?_
    . have hpos := ha.ok.urefs_pos (hasSendRights_of_hasSend hsend)
      refine kassert fun _ => require hpos (require hlt ?_)
      refine ite (fun _ => ite (fun _ => ?_) fun _ => ret ha.allOk) fun hne => ?_
      . exact rest fun _ => ha.allOk
      have hsame : r.type.withSend = r.type := by
        cases htype : r.type <;> rw [htype] at hsend <;> first | rfl | contradiction
      refine inert fun _ => ipcRightCopyout_addSend ha.others ?_ ha.request ?_ hvalid ?_
      . rw [hsame]
        exact ha.hashed
      . rw [hsame]
        exact hsend
      . omega
    . have hrecv := ht.resolve_left hsend
      have ht : r.type = .receive := eq_receive (Bool.eq_false_iff.mpr hsend) hrecv
      have hurefs := ha.ok.receive_urefs ht
      refine ite (fun _ => ?_) fun hno => absurd hrecv hno
      refine require hurefs (inert fun _ => ?_)
      refine ipcRightCopyout_addSend ha.others ?_ ha.request (by rw [ht]; rfl) hvalid ?_
      . rw [ha.not_hashed (by rw [ht]; decide)]
        simp [ht, withSend]
      . rw [hurefs]
        decide
  | portReceive =>
    refine kassert fun _ => kassert fun _ => inert fun _ => kassert fun hrecv => ?_
    have ht : r.type = .send := eq_send (ht.resolve_right (Bool.eq_false_iff.mp hrecv)) hrecv
    have hpos := ha.ok.urefs_pos (by rw [ht]; rfl)
    have hsend : r.type.hasSend = true := by rw [ht]; rfl
    refine ite (fun _ => ?_) fun hno => absurd hsend hno
    refine require hpos (kassert fun _ => inert fun _ => hashDelete ?_ hobj ?_)
    . exact ha.hashed.mpr ht
    . exact ipcRightCopyout_addReceive ha.others rfl ha.request hvalid
        (.inl ⟨ht, hpos, hlt⟩)

theorem ipcRightCopyout_new {msgtName : PortName} (ha : New c (space, name) object r h q)
    : Keeps active (ipcRightCopyout space name msgtName overflow object) (c.at (space, name) r h q) := by
  obtain ⟨ho, rfl, hh, hq⟩ := ha
  refine getEntry (inert fun p => kassert fun hvalid => kassert fun _ => require rfl ?_)
  cases msgtName with
  | portSendOnce =>
    refine require rfl (kassert fun _ => setBits (ret ?_))
    refine At.allOk ⟨ho, .of_sendOnce rfl hvalid rfl (Nat.zero_or 1), ?_, hq⟩
    rw [hh]
    simp
  | portSend =>
    have hne : object ≠ ioNull := by
      simp only [ioValid, Bool.and_eq_true, bne_iff_ne] at hvalid
      exact hvalid.1
    refine kassert fun _ => ite (fun hno => by contradiction) fun _ => ite (fun hno => by contradiction)
      fun _ => ?_
    refine require rfl (require rfl (hashInsert hh hne rfl ?_))
    refine ipcRightCopyout_addSend ho ⟨fun _ => rfl, fun _ => rfl⟩ hq rfl hvalid ?_
    show 0 + 1 < machPortUrefsMax
    decide
  | portReceive =>
    refine kassert fun _ => kassert fun _ => inert fun _ => kassert fun _ => ?_
    refine ite (fun hno => by contradiction) fun _ => require rfl (require rfl ?_)
    exact ipcRightCopyout_addReceive ho hh hq hvalid (.inr ⟨rfl, rfl⟩)

theorem ipcRightRename_finish (ho : OthersOk c (space, oname))
    (hh : h = false) (hreq : r.request = 0)
    : Keeps active (ipcRightRename.finish space oname) (c.at (space, oname) r h false) :=
  getEntry (require hreq (freeEntry ho hh hreq rfl fun _ hc => ret hc))

variable {oname nname : Nat} {bits : Right} {h' : Bool}

theorem othersOk_renamed (ho : ∀ k, k ≠ (space, oname) → k ≠ (space, nname) → CellOk (c k)) (hok : RightOk bits)
    (hh : (h' = true ↔ bits.type = .send))
    : OthersOk (c.at (space, nname) bits h' bits.marequest) (space, oname) := by
  intro k hk
  by_cases hkn : k = (space, nname)
  . rw [hkn, at_self]
    exact ⟨hok, hh, rfl⟩
  . rw [Cells.at_of_ne c _ _ _ hkn]
    exact ho k hk hkn

theorem marequestRename (hne : oname ≠ nname) (hnull : nname ≠ machPortNull)
    (hq : Q () ((c.at (space, nname) rn h' true).at (space, oname) r h false))
    : Ver active (marequestRename space oname nname) Q
        ((c.at (space, nname) rn h' false).at (space, oname) r h true) := by
  have hkeys : (space, nname) ≠ (space, oname) := fun heq => hne (congrArg Prod.snd heq).symm
  refine ⟨hne, hnull, ?_, ?_, ?_⟩
  . rw [at_self]
  . rw [Cells.at_of_ne _ _ _ _ hkeys, at_self]
  . rw [at_self, Cells.at_of_ne _ _ _ _ hkeys, at_self, Cells.update_at,
      Cells.at_comm c hkeys, Cells.update_at, Cells.at_comm c hkeys.symm]
    exact hq

section

variable (hne : oname ≠ nname) (ho : ∀ k, k ≠ (space, oname) → k ≠ (space, nname) → CellOk (c k))
  (hok : RightOk bits) (hh' : h' = false) (hh : (h = true ↔ bits.type = .send))
  (hreq : r.request = 0) (hobj : r.object = bits.object)
include hne ho hok hh' hh hreq hobj

theorem ipcRightRename_fill
    : Keeps active (ipcRightRename.fill space oname nname bits)
        ((c.at (space, nname) .null h' bits.marequest).at (space, oname) r h false) := by
  have hkeys : (space, nname) ≠ (space, oname) := fun heq => hne (congrArg Prod.snd heq).symm
  rw [Cells.at_comm c hkeys]
  refine getEntry (require rfl (bind (setEntry ?_ ?_)))
  . intro htrue
    rw [hh'] at htrue
    contradiction
  rw [Cells.at_comm c hkeys.symm]
  -- what is not a send right is not in the reverse hash table
  have hrest : bits.type ≠ .send → Keeps active (ipcRightRename.finish space oname)
      ((c.at (space, nname) bits h' bits.marequest).at (space, oname) r h false) := by
    intro ht
    refine ipcRightRename_finish (othersOk_renamed ho hok ?_) ?_ hreq
    . rw [hh']
      simp [ht]
    . rw [Bool.eq_false_iff, ne_eq, hh]
      exact ht
  cases ht : bits.type with
  | none => exact absurd ht hok.type_ne
  | send =>
    have hnull := hok.object_ne (by rw [ht]; rfl)
    refine require hnull (hashDelete (hh.mpr ht) hobj ?_)
    rw [Cells.at_comm c hkeys]
    refine hashInsert hh' hnull rfl ?_
    rw [Cells.at_comm c hkeys.symm]
    refine ipcRightRename_finish (othersOk_renamed ho hok ?_) rfl hreq
    simp [ht]
  | receive | sendReceive =>
    refine require (hok.object_ne (by rw [ht]; rfl)) (inert fun _ => inert fun _ => inert fun _ => ?_)
    exact hrest (by rw [ht]; decide)
  | portSet => exact require (hok.portSet ht).1 (hrest (by rw [ht]; decide))
  | sendOnce | deadName => exact hrest (by rw [ht]; decide)

theorem ipcRightRename_move (hnull : nname ≠ machPortNull)
    : Keeps active (ipcRightRename.move space oname nname bits)
        ((c.at (space, nname) .null h' false).at (space, oname) r h bits.marequest) := by
  have hfill : Keeps active (ipcRightRename.fill space oname nname bits)
      ((c.at (space, nname) .null h' bits.marequest).at (space, oname) r h false) :=
    ipcRightRename_fill hne ho hok hh' hh hreq hobj
  refine ite (fun hmar => ?_) fun hmar => ?_
  . have hmarked : bits.type.hasSend = true ∨ bits.type.hasReceive = true := by
      unfold RightOk at hok
      cases ht : bits.type <;> simp_all [hasSend, hasReceive]
    rw [hmar] at hfill ⊢
    exact require hmarked (bind (marequestRename hne hnull hfill))
  . rw [Bool.eq_false_iff.mpr hmar] at hfill ⊢
    exact hfill

end

theorem RightOk.hasPortRights (hok : RightOk r) (hreq : r.request ≠ 0) : r.type.hasPortRights = true := by
  unfold RightOk at hok
  cases ht : r.type <;> rw [ht] at hok <;> first | rfl | contradiction | exact absurd hok.2.1 hreq

theorem entryDealloc_renamed (hne : oname ≠ nname)
    (ho : ∀ k, k ≠ (space, oname) → k ≠ (space, nname) → CellOk (c k))
    (hh' : h' = false) (hh : h = false)
    (hleft : machPortIndex oname ≠ machPortIndex nname)
    : Keeps active (KProg.entryDealloc space nname)
        (((c.at (space, nname) .null h' false).at (space, oname) r h false).dealloc space oname) := by
  have hkeys : (space, nname) ≠ (space, oname) := fun heq => hne (congrArg Prod.snd heq).symm
  have hcell : ((c.at (space, nname) .null h' false).at (space, oname) r h false) (space, nname) =
      ⟨some .null, true, h', false⟩ := by
    rw [Cells.at_of_ne _ _ _ _ hkeys, at_self]
  have hothers : OthersOk
      (((c.at (space, nname) .null h' false).at (space, oname) r h false).dealloc space oname)
      (space, nname) := by
    intro k hk
    by_cases hko : k = (space, oname)
    . rw [hko]
      apply CellOk.dealloc_self
      . rw [at_self]
        exact hh
      . rw [at_self]
    . apply CellOk.dealloc_of_ne _ hko
      rw [Cells.at_of_ne _ _ _ _ hko, Cells.at_of_ne _ _ _ _ hk]
      exact ho k hko hk
  generalize hd : (c.at (space, nname) .null h' false).at (space, oname) r h false = d at *
  have hheld : d.dealloc space oname (space, nname) = { d (space, nname) with held := false } ∨
      d.dealloc space oname (space, nname) = d (space, nname) := by
    unfold Cells.dealloc
    rw [if_neg hkeys]
    split
    . exact .inl rfl
    . exact .inr rfl
  refine ⟨?_, ⟨.null, ?_, rfl, rfl⟩, hothers.fine, fun k => ?_⟩
  . unfold Cells.dealloc
    rw [if_neg hkeys, if_neg fun heq => hleft heq.2.symm, hcell]
  . obtain hheld | hheld := hheld <;> rw [hheld, hcell]
  . by_cases hk : k = (space, nname)
    . rw [hk]
      apply CellOk.dealloc_self
      . obtain hheld | hheld := hheld <;> rw [hheld, hcell] <;> exact hh'
      . obtain hheld | hheld := hheld <;> rw [hheld, hcell]
    . exact (hothers k hk).dealloc_of_ne hk

theorem ipcRightRename_keeps (hnull : nname ≠ machPortNull)
    (ho : ∀ k, k ≠ (space, oname) → k ≠ (space, nname) → CellOk (c k)) (hok : RightOk r)
    (hh' : h' = false) (hh : (h = true ↔ r.type = .send)) (hq : q = r.marequest)
    (hleft : r.compat = true → r.request ≠ 0 → machPortIndex oname ≠ machPortIndex nname)
    : Keeps active (ipcRightRename space oname nname)
        ((c.at (space, nname) .null h' false).at (space, oname) r h q) := by
  subst hq
  refine getEntry (inert fun _ => kassert fun hne => ite (fun hreq => ?_) fun hreq => ?_)
  . have hp := RightOk.hasPortRights hok hreq
    have hfine : OthersFine (c.at (space, nname) .null h' false) (space, oname) := by
      intro k hk
      by_cases hkn : k = (space, nname)
      . rw [hkn, at_self]
        exact .inr ⟨⟨.null, rfl, rfl⟩, hh', rfl⟩
      . rw [Cells.at_of_ne c _ _ _ hkn]
        exact .inl (ho k hk hkn)
    refine require hp (require (hok.object_ne hp) (bind (ipcRightCheck_fine hfine hok hh rfl hp ?_ ?_ ?_)))
    . refine inert fun _ => setRequest ?_
      exact ipcRightRename_move hne ho hok hh' hh rfl rfl hnull
    . intro hc r' ht' hr'
      rw [hc]
      obtain ⟨hobj, hreq', hmar, -, -⟩ := hr'.deadName ht'
      refine getEntry (require ht' (require hreq' (require hobj ?_)))
      have hmove : Keeps active (ipcRightRename.move space oname nname r')
          ((c.at (space, nname) .null h' false).at (space, oname) r' false r'.marequest) := by
        refine ipcRightRename_move hne ho hr' hh' ?_ hreq' rfl hnull
        rw [ht']
        simp
      rw [hmar] at hmove
      exact hmove
    . intro hc r'
      rw [hc]
      exact andInert (entryDealloc_renamed hne ho hh' rfl (hleft hc hreq))
  . exact ipcRightRename_move hne ho hok hh' hh (not_not.mp hreq) rfl hnull

end Ver

end Ipc
