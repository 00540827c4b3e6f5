import UtahMach.Ipc.Right.Cells

/-!
This module contains rules to follow a function on rights through its commands.
-/

namespace Ipc

open Cells Function

open Prog KProg

def Ver {α : Type} (active : Nat → Bool) (p : KProg α) (Q : α → Cells → Prop) (c : Cells) : Prop :=
  wp (cellHandler active) p Q c

def Cells.at (c : Cells) (k : Nat × Nat) (r : Right) (h q : Bool) : Cells := Function.update c k ⟨some r, true, h, q⟩

@[simp]
theorem Cells.at_self (c : Cells) (k : Nat × Nat) (r : Right) (h q : Bool)
    : c.at k r h q k = ⟨some r, true, h, q⟩ := update_self ..

theorem Cells.at_of_ne (c : Cells) {k k' : Nat × Nat} (r : Right) (h q : Bool) (hne : k' ≠ k)
    : c.at k r h q k' = c k' := update_of_ne hne ..

theorem Cells.update_at (c : Cells) (k : Nat × Nat) (r r' : Right) (h q h' q' : Bool)
    : update (c.at k r h q) k ⟨some r', true, h', q'⟩ = c.at k r' h' q' :=
  update_idem ..

variable {α β : Type} {active : Nat → Bool} {c : Cells} {k : Nat × Nat} {space name : Nat} {r : Right}
  {h q : Bool}

theorem OthersOk.fine (ho : OthersOk c k) : OthersFine c k := fun k' hne => .inl (ho k' hne)

theorem OthersFine.at (ho : OthersFine c k) (r : Right) (h q : Bool) : OthersFine (c.at k r h q) k := by
  intro k' hne
  rw [at_of_ne c r h q hne]
  exact ho k' hne

theorem AllOk.others (ha : AllOk c) (k : Nat × Nat) : OthersOk c k := fun k' _ => ha k'

theorem AllOk.at (ho : OthersOk c k) (hr : RightOk r)
    (hh : (h = true ↔ r.type = .send)) (hq : q = r.marequest) : AllOk (c.at k r h q) := by
  intro k'
  by_cases heq : k' = k
  . subst heq
    rw [at_self]
    exact ⟨hr, hh, hq⟩
  . rw [at_of_ne c r h q heq]
    exact ho k' heq

structure At (c : Cells) (k : Nat × Nat) (r : Right) (h q : Bool) : Prop where
  others : OthersOk c k
  ok : RightOk r
  hashed : (h = true ↔ r.type = .send)
  request : q = r.marequest

theorem At.allOk (ha : At c k r h q) : AllOk (c.at k r h q) :=
  .at ha.others ha.ok ha.hashed ha.request

theorem At.not_hashed (ha : At c k r h q) (ht : r.type ≠ .send) : h = false :=
  Bool.eq_false_iff.mpr fun htrue => ht (ha.hashed.mp htrue)

theorem CellOk.unhold {cell : Cell} (hc : CellOk cell) (b : Bool) : CellOk { cell with held := b } := hc

theorem CellOk.dealloc_self (hh : (c (space, name)).hashed = false)
    (hq : (c (space, name)).request = false) : CellOk (c.dealloc space name (space, name)) := by
  unfold dealloc
  rw [if_pos rfl]
  exact ⟨hh, hq⟩

theorem CellOk.dealloc_of_ne (hc : CellOk (c k)) (hne : k ≠ (space, name))
    : CellOk (c.dealloc space name k) := by
  unfold dealloc
  rw [if_neg hne]
  split
  . exact hc.unhold false
  . exact hc

theorem AllOk.dealloc (ho : OthersOk c (space, name)) (hh : h = false)
    (hq : q = false) : AllOk ((c.at (space, name) r h q).dealloc space name) := by
  intro k'
  by_cases heq : k' = (space, name)
  . rw [heq]
    apply CellOk.dealloc_self
    . rw [at_self]
      exact hh
    . rw [at_self]
      exact hq
  . apply CellOk.dealloc_of_ne _ heq
    rw [at_of_ne c r h q heq]
    exact ho k' heq

namespace Ver

variable {Q : α → Cells → Prop} {p : KProg α}

theorem ret (hq : Q a c) : Ver active (pure a) Q c := hq

theorem bind {f : α → KProg β} {Q : β → Cells → Prop}
    (hp : Ver active p (fun a c => Ver active (f a) Q c) c) : Ver active (p >>= f) Q c := by
  unfold Ver at *
  rw [wp_bind]
  exact hp

theorem mono (hp : Ver active p Q c) (hle : ∀ a c, Q a c → Q' a c) : Ver active p Q' c :=
  wp_mono (cellHandler_monotone active) hle hp

theorem ite {b : Prop} [Decidable b] (ht : b → Ver active p Q c) (he : ¬ b → Ver active p' Q c)
    : Ver active (if b then p else p') Q c := by
  split
  . next hb => exact ht hb
  . next hb => exact he hb

class Inert (p : KProg α) : Prop where
  ver : ∀ {active : Nat → Bool} {Q : α → Cells → Prop} {c : Cells}, (∀ a, Q a c) → Ver active p Q c

theorem rest [hp : Inert p] (hq : ∀ a, Q a c) : Ver active p Q c := hp.ver hq

theorem inert {f : α → KProg β} {Q : β → Cells → Prop} [Inert p] (hf : ∀ a, Ver active (f a) Q c)
    : Ver active (p >>= f) Q c := bind (rest hf)

section Inert

-- a bind doubles the size of an instance
set_option synthInstance.maxSize 100000

instance (a : α) : Inert (pure a : KProg α) := ⟨fun hq => hq a⟩

instance {p : KProg α} {f : α → KProg β} [Inert p] [∀ a, Inert (f a)] : Inert (p >>= f) :=
  ⟨fun hq => inert fun _ => rest hq⟩

instance {b : Prop} [Decidable b] {p p' : KProg α} [Inert p] [Inert p']
    : Inert (if b then p else p') :=
  ⟨fun hq => ite (fun _ => rest hq) fun _ => rest hq⟩

variable (space name p dest : Nat)

instance : Inert (isActive space) := ⟨fun hq => hq _⟩

instance : Inert (getPort p) := ⟨fun hq => hq⟩

instance (port : Port) : Inert (setPort p port) := ⟨fun hq => hq ()⟩

instance : Inert (die p) := ⟨fun hq => hq ()⟩

instance (notices : List Notice) : Inert (tell notices) := ⟨fun hq => hq ()⟩

instance : Inert (ipLock p) := ⟨fun hq => hq ()⟩

instance : Inert (ipLockTry p) := ⟨fun hq => hq⟩

instance : Inert portCount := ⟨fun hq => hq⟩

instance : Inert (isNotify space) := ⟨fun hq => hq⟩

instance (b : Prop) [Decidable b] : Inert (kassert b) := ⟨fun hq _ => hq ()⟩

theorem Inert.bind {p : KProg α} {f : α → KProg β} (hp : Inert p) (hf : ∀ a, Inert (f a))
    : Inert (p >>= f) := inferInstance

instance (soright : Nat) : Inert (ipcPortDnrequest p name soright) := by
  refine .bind inferInstance fun port => .bind inferInstance fun _ => .bind inferInstance fun _ =>
    .bind inferInstance fun _ => ?_
  split <;> infer_instance

instance (index : Nat) : Inert (ipcPortDncancel p name index) := by
  refine .bind inferInstance fun port => .bind inferInstance fun _ => .bind inferInstance fun _ =>
    .bind inferInstance fun _ => ?_
  split <;> infer_instance

instance (index oname nname : Nat) : Inert (ipcPortDnrename p index oname nname) := by
  refine .bind inferInstance fun port => .bind inferInstance fun _ => ?_
  split <;> infer_instance

instance (g : DnGrow) (ntable : Option Nat) : Inert (ipcPortDngrowEnd p g ntable) := by
  unfold ipcPortDngrowEnd
  split <;> infer_instance

instance (fuel base : Nat) : Inert (chainBase fuel base) := by
  induction fuel generalizing base with
  | zero =>
    unfold chainBase
    infer_instance
  | succ fuel ih =>
    unfold chainBase
    infer_instance

instance : Inert (ipcPortCheckCircularity p dest) := by
  unfold ipcPortCheckCircularity
  infer_instance

instance : Inert (ipcPortDestroy p) := by
  unfold ipcPortDestroy
  infer_instance

instance (type : PortType) (receiver : KProg Unit) [Inert receiver]
    : Inert (releaseRights space p type receiver) := by
  unfold releaseRights releaseRights.releasePort
  infer_instance

end Inert

section Commands

variable {b : Prop} [Decidable b] {f : Unit → KProg α}

theorem require (hb : b) (hf : Ver active (f ()) Q c) : Ver active (require b >>= f) Q c :=
  ⟨decide_eq_true hb, hf⟩

theorem kassert (hf : b → Ver active (f ()) Q c) : Ver active (kassert b >>= f) Q c :=
  fun hb => hf (of_decide_eq_true hb)

theorem getEntry {f : Right → KProg α} (hf : Ver active (f r) Q (c.at (space, name) r h q))
    : Ver active (getEntry space name >>= f) Q (c.at (space, name) r h q) := by
  refine ⟨?_, r, ?_, hf⟩
  . rw [at_self]
  . rw [at_self]

theorem setEntry {Q : Unit → Cells → Prop} (hobj : h = true → r'.object = r.object)
    (hq : Q () (c.at (space, name) r' h q))
    : Ver active (setEntry space name r') Q (c.at (space, name) r h q) := by
  refine ⟨?_, r, ?_, ?_, ?_⟩
  . rw [at_self]
  . rw [at_self]
  . rw [at_self]
    exact hobj
  . rw [at_self, update_at]
    exact hq

theorem setBits
    (hf : Ver active (f ()) Q (c.at (space, name) { bits with object := r.object, request := r.request } h q))
    : Ver active (setBits space name bits >>= f) Q (c.at (space, name) r h q) :=
  bind (getEntry (setEntry (fun _ => rfl) hf))

theorem setObject (hh : h = false)
    (hf : Ver active (f ()) Q (c.at (space, name) { r with object := object } h q))
    : Ver active (setObject space name object >>= f) Q (c.at (space, name) r h q) := by
  refine bind (getEntry (setEntry (fun htrue => ?_) hf))
  rw [hh] at htrue
  contradiction

theorem setRequest {request : Nat}
    (hf : Ver active (f ()) Q (c.at (space, name) { r with request := request } h q))
    : Ver active (setRequest space name request >>= f) Q (c.at (space, name) r h q) :=
  bind (getEntry (setEntry (fun _ => rfl) hf))

theorem addUrefs {Q : Unit → Cells → Prop} {delta : Int}
    (hd : 0 ≤ bits.urefs + delta ∧ bits.urefs + delta ≤ machPortUrefsMax)
    (hq : Q () (c.at (space, name) { bits.addUrefs delta with object := r.object, request := r.request } h q))
    : Ver active (addUrefs space name bits delta) Q (c.at (space, name) r h q) :=
  require (Right.word_add_div hd.1 hd.2) (getEntry (setEntry (fun _ => rfl) hq))

theorem hashInsert (hh : h = false) (hobj : obj ≠ ioNull)
    (hr : r.object = obj) (hf : Ver active (f ()) Q (c.at (space, name) r true q))
    : Ver active (hashInsert space obj name >>= f) Q (c.at (space, name) r h q) := by
  refine ⟨⟨?_, ?_, hobj, r, ?_, hr⟩, ?_⟩
  . rw [at_self]
  . rw [at_self]
    exact hh
  . rw [at_self]
  . rw [at_self, update_at]
    exact hf

theorem hashDelete (hh : h = true) (hr : r.object = obj)
    (hf : Ver active (f ()) Q (c.at (space, name) r false q))
    : Ver active (hashDelete space obj name >>= f) Q (c.at (space, name) r h q) := by
  refine ⟨⟨?_, ?_, r, ?_, hr⟩, ?_⟩
  . rw [at_self]
  . rw [at_self]
    exact hh
  . rw [at_self]
  . rw [at_self, update_at]
    exact hf

theorem entryDealloc {Q : Unit → Cells → Prop} (ho : OthersFine c (space, name)) (hobj : r.object = ioNull)
    (hreq : r.request = 0) (hq : Q () ((c.at (space, name) r h q).dealloc space name))
    : Ver active (entryDealloc space name) Q (c.at (space, name) r h q) := by
  refine ⟨?_, ⟨r, ?_, hobj, hreq⟩, ho.at r h q, hq⟩
  . rw [at_self]
  . rw [at_self]

theorem deallocEntry {Q : Unit → Cells → Prop} (ho : OthersFine c (space, name)) (hh : h = false)
    (hreq : r.request = 0) (hq : Q () ((c.at (space, name) { r with object := ioNull } h q).dealloc space name))
    : Ver active (deallocEntry space name) Q (c.at (space, name) r h q) :=
  setObject hh (entryDealloc ho rfl hreq hq)

theorem ipcMarequestCancel (hm : q = bits.marequest) (hf : Ver active (f ()) Q (c.at (space, name) r h false))
    : Ver active (ipcMarequestCancel space name bits >>= f) Q (c.at (space, name) r h q) := by
  refine bind (ite (fun hb => ⟨?_, ?_⟩) fun hb => ret ?_)
  . rw [at_self, hm, hb]
  . rw [at_self, update_at]
    exact hf
  . rw [hm, Bool.eq_false_iff.mpr hb]
    exact hf

end Commands

section

variable {Q : Nat → Cells → Prop} {p : Nat} (hr : r.object = p)
  (hq : ∀ n, Q n (c.at (space, name) { r with request := 0 } h q))
include hr hq

theorem ipcRightDncancel : Ver active (ipcRightDncancel space p name) Q (c.at (space, name) r h q) := by
  refine inert fun _ => inert fun _ => getEntry (require hr (inert fun n => setRequest (inert fun _ => ?_)))
  exact ite (fun _ => inert fun _ => inert fun _ => ret (hq ipNull)) fun _ => ret (hq n)

theorem ipcRightDncancelMacro
    : Ver active (ipcRightDncancelMacro space p name) Q (c.at (space, name) r h q) := by
  refine getEntry (ite (fun h0 => ret ?_) fun _ => ?_)
  . have hsame : { r with request := 0 } = r := by
      rw [← h0]
    rw [← hsame]
    exact hq ipNull
  . exact ipcRightDncancel hr hq

end

variable {Q : Bool → Cells → Prop}

theorem ipcRightCheck_deadEntry {port : Nat} {bits : Right}
    (ho : OthersFine c (space, name)) (hh : h = false)
    (hreq : bits.request = r.request) (hmar : bits.marequest = false)
    (hpos : 0 < bits.urefs) (hlt : bits.urefs < machPortUrefsMax)
    (hdead : bits.compat = false → ∀ r', r'.type = .deadName → RightOk r' → Q true (c.at (space, name) r' h false))
    (hgone : bits.compat = true → ∀ r', Q true ((c.at (space, name) r' h false).dealloc space name))
    : Ver active (ipcRightCheck.deadEntry space port name bits) Q (c.at (space, name) r h false) := by
  refine inert fun _ => ite (fun hc => ?_) fun hc => ite (fun hr => ?_) fun hr => ?_
  . exact kassert fun _ => setRequest (bind (deallocEntry ho hh rfl (ret (hgone hc _))))
  . refine require hlt (setRequest (bind (addUrefs ?_ (setObject hh (ret ?_)))))
    . simp only
      omega
    . refine hdead (Bool.eq_false_iff.mpr hc) _ rfl (.of_deadName rfl rfl rfl hmar ?_ ?_)
      . simp only [Right.addUrefs]
        omega
      . simp only [Right.addUrefs]
        omega
  . refine setBits (setObject hh (ret ?_))
    have hzero : r.request = 0 := by
      rw [← hreq]
      exact not_not.mp hr
    exact hdead (Bool.eq_false_iff.mpr hc) _ rfl (.of_deadName rfl rfl hzero hmar hpos (le_of_lt hlt))

theorem ipcRightCheck_fine (ho : OthersFine c (space, name))
    (hr : RightOk r) (hh : (h = true ↔ r.type = .send)) (hq : q = r.marequest)
    (hp : r.type.hasPortRights = true) (halive : Q false (c.at (space, name) r h q))
    (hdead : r.compat = false → ∀ r', r'.type = .deadName → RightOk r' → Q true (c.at (space, name) r' false false))
    (hgone : r.compat = true → ∀ r', Q true ((c.at (space, name) r' false false).dealloc space name))
    : Ver active (ipcRightCheck space r.object name) Q (c.at (space, name) r h q) := by
  refine inert fun _ => getEntry (require rfl (inert fun _ => inert fun p => ite (fun _ => ret halive)
    fun _ => kassert fun hrecv => ?_))
  have hrights := PortType.hasSendRights_of_not_hasReceive hp hrecv
  have hpos := hr.urefs_pos hrights
  have hlt := hr.urefs_lt hp
  refine require hpos (ite (fun hsend => ?_) fun hsend => ?_)
  . have ht : r.type = .send := PortType.eq_send hsend hrecv
    refine ipcMarequestCancel hq (hashDelete ?_ rfl ?_)
    . exact hh.mpr ht
    . exact ipcRightCheck_deadEntry ho rfl rfl rfl hpos hlt hdead hgone
  . have ht : r.type = .sendOnce := PortType.eq_sendOnce hrights (Bool.eq_false_iff.mpr hsend)
    have hmar := (hr.sendOnce ht).2
    obtain rfl : h = false := by
      rw [Bool.eq_false_iff, ne_eq, hh, ht]
      decide
    refine require ht (require (hr.sendOnce ht).1 (require hmar ?_))
    rw [hq, hmar]
    exact ipcRightCheck_deadEntry ho rfl rfl hmar hpos hlt hdead hgone

theorem ipcRightCheck (ha : At c (space, name) r h q)
    (hp : r.type.hasPortRights = true) (halive : Q false (c.at (space, name) r h q))
    (hdead : r.compat = false → ∀ r' h' q', r'.type = .deadName →
      At c (space, name) r' h' q' → Q true (c.at (space, name) r' h' q'))
    (hgone : r.compat = true → ∀ c', AllOk c' → Q true c')
    : Ver active (Ipc.ipcRightCheck space r.object name) Q (c.at (space, name) r h q) := by
  refine ipcRightCheck_fine ha.others.fine ha.ok ha.hashed ha.request hp halive ?_ ?_
  . intro hc r' ht' hr'
    refine hdead hc r' false false ht' ⟨ha.others, hr', ?_, (hr'.deadName ht').2.2.1.symm⟩
    rw [ht']
    simp
  . exact fun hc r' => hgone hc _ (.dealloc ha.others rfl rfl)

end Ver

end Ipc
