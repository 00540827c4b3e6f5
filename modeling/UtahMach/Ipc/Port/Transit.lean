import UtahMach.Data.Chain
import UtahMach.Ipc.Right.Reached

/-!
This module contains what the functions on ports do to the receive rights in messages.
-/

namespace Ipc

open Function

open Prog KProg

abbrev Ports := Nat → Port

def portHandler (count : Nat) : Handler kernelIface Ports
  | .isActive _, Q, t => ∀ b, Q b t
  | .lookup _ _, Q, t => ∀ b, Q b t
  | .entryGet _, Q, t => ∀ name, Q name t
  | .allocName _ _, Q, t => ∀ kr, Q kr t
  | .growTable _, Q, t => ∀ kr, Q kr t
  | .hashLookup _ _, Q, t => ∀ name, Q name t
  | .entry _ _, Q, t => ∀ r, Q r t
  | .store _ _ _, Q, t => Q () t
  | .hashInsert _ _ _, Q, t => Q () t
  | .hashDelete _ _ _, Q, t => Q () t
  | .dealloc _ _, Q, t => Q () t
  | .isNotify _, Q, t => ∀ p, Q p t
  | .portCount, Q, t => Q count t
  | .port p, Q, t => Q (t p) t
  | .setPort p port, Q, t => Q () (Function.update t p port)
  | .die p, Q, t =>
    ∀ time, Q () (Function.update t p
      { (t p).release with ipActive := false, data := .timestamp time })
  | .tell _, Q, t => Q () t
  | .marequestCreate _ _ _ _, Q, t => Q () t
  | .marequestCancel _ _, Q, t => Q () t
  | .marequestRename _ _ _, Q, t => Q () t
  | .marequestRemove _, Q, t => ∀ r, Q r t
  | .lockTry, Q, t => ∀ b, Q b t
  | .assert b, Q, t => b = true → Q () t
  | .require b, Q, t => b = true → Q () t
  | .yield, Q, t => Q () t

theorem portHandler_monotone (count : Nat) : Monotone (portHandler count) := by
  intro cmd Q Q' t hle h
  cases cmd with
  | isActive | lookup | entryGet | allocName | growTable | hashLookup | entry | isNotify
  | marequestRemove | lockTry => exact fun a => hle _ _ (h a)
  | assert | require => exact fun hb => hle _ _ (h hb)
  | die => exact fun time => hle _ _ (h time)
  | _ => exact hle _ _ h

section Rules

variable {α β : Type} {count : Nat} {t : Ports} {p : Nat} {Q : β → Ports → Prop}

theorem wp_getPort {f : Port → KProg β} (h : wp (portHandler count) (f (t p)) Q t)
    : wp (portHandler count) (getPort p >>= f) Q t := h

variable {f : Unit → KProg β}

theorem wp_setPort {port : Port} (h : wp (portHandler count) (f ()) Q (update t p port))
    : wp (portHandler count) (setPort p port >>= f) Q t := h

theorem wp_kassert {b : Prop} [Decidable b] (h : b → wp (portHandler count) (f ()) Q t)
    : wp (portHandler count) (kassert b >>= f) Q t := fun hb => h (of_decide_eq_true hb)

theorem wp_ipLock (h : wp (portHandler count) (f ()) Q t) : wp (portHandler count) (ipLock p >>= f) Q t := h

theorem wp_ipLockTry {f : Bool → KProg β} (h : ∀ b, wp (portHandler count) (f b) Q t)
    : wp (portHandler count) (ipLockTry p >>= f) Q t := h

theorem wp_getEntry {space name : Nat} {f : Right → KProg β} (h : ∀ r, wp (portHandler count) (f r) Q t)
    : wp (portHandler count) (getEntry space name >>= f) Q t := h

theorem wp_require {b : Prop} [Decidable b] (h : b → wp (portHandler count) (f ()) Q t)
    : wp (portHandler count) (require b >>= f) Q t := fun hb => h (of_decide_eq_true hb)

theorem wp_portCount {f : Nat → KProg β} (h : wp (portHandler count) (f count) Q t)
    : wp (portHandler count) (portCount >>= f) Q t := h

end Rules

namespace Kernel

variable {k k' : Kernel}

theorem ok_of_map_orUndefined {f : α → β} (h : (orUndefined x).map f = .ok b) : ∃ a, x = some a ∧ f a = b := by
  cases x with
  | none => contradiction
  | some a =>
    cases h
    exact ⟨a, rfl, rfl⟩

theorem onWorld_ok (h : k.onWorld x = .ok (a, k')) : ∃ w, x = .ok (a, w) ∧ k' = { k with world := w } := by
  cases x with
  | error e => contradiction
  | ok r =>
    cases h
    exact ⟨r.2, rfl, rfl⟩

-- the other commands change neither a port nor the log
theorem machine_world {c : KernelCmd} {r : kernelIface.Res c} (hc : c.onPorts = false) (h : machine c k = .ok (r, k'))
    : k'.world.ports = k.world.ports ∧ k'.world.portCount = k.world.portCount ∧ k'.world.log = k.world.log ∧
        k'.world.schedule = k.world.schedule := by
  cases c with
  | setPort | die | tell | yield => contradiction
  | isActive | isNotify | portCount | port | lockTry =>
    cases h
    exact ⟨rfl, rfl, rfl, rfl⟩
  | assert b | require b =>
    cases b with
    | false => contradiction
    | true =>
      cases h
      exact ⟨rfl, rfl, rfl, rfl⟩
  | entry | store | hashInsert | hashDelete | dealloc | growTable =>
    obtain ⟨a, -, ha⟩ := ok_of_map_orUndefined h
    cases ha
    exact ⟨rfl, rfl, rfl, rfl⟩
  | lookup | entryGet | allocName | hashLookup =>
    obtain ⟨⟨found, s⟩, -, ha⟩ := ok_of_map_orUndefined h
    cases found <;> cases ha <;> exact ⟨rfl, rfl, rfl, rfl⟩
  | marequestCreate marequest space name soright =>
    obtain ⟨w, hw, rfl⟩ := onWorld_ok h
    change World.marequestCreate .. = _ at hw
    unfold World.marequestCreate at hw
    grind
  | marequestCancel | marequestRename =>
    obtain ⟨w, hw, rfl⟩ := onWorld_ok h
    obtain ⟨m, -, hm⟩ := ok_of_map_orUndefined hw
    cases hm
    exact ⟨rfl, rfl, rfl, rfl⟩
  | marequestRemove marequest =>
    obtain ⟨w, hw, rfl⟩ := onWorld_ok h
    change World.marequestRemove .. = _ at hw
    unfold World.marequestRemove orUndefined Option.elim Except.map at hw
    grind

structure Alone (count : Nat) (k : Kernel) (t : Ports) : Prop where
  ports : k.world.ports = t
  portCount : k.world.portCount = count
  schedule : k.world.schedule = []

theorem Alone.of_world {count : Nat} {t : Ports} (h : Alone count k t)
    (hports : k'.world.ports = k.world.ports) (hcount : k'.world.portCount = k.world.portCount)
    (hschedule : k'.world.schedule = k.world.schedule) : Alone count k' t :=
  ⟨hports.trans h.ports, hcount.trans h.portCount, hschedule.trans h.schedule⟩

theorem machine_alone (count : Nat) : SoundOk (Alone count) machine (portHandler count) := by
  intro cmd k t Q r k' h hc hexec
  have hworld (hcmd : cmd.onPorts = false) : Alone count k' t := by
    obtain ⟨hports, hcount, -, hschedule⟩ := machine_world hcmd hexec
    exact h.of_world hports hcount hschedule
  cases cmd with
  | isActive | isNotify | lockTry =>
    cases hexec
    exact ⟨t, hworld rfl, hc _⟩
  | lookup | entryGet | allocName | growTable | hashLookup | entry | marequestRemove => exact ⟨t, hworld rfl, hc r⟩
  | hashInsert | hashDelete | store | dealloc | marequestCreate | marequestCancel | marequestRename =>
    exact ⟨t, hworld rfl, hc⟩
  | tell =>
    cases hexec
    exact ⟨t, h.of_world rfl rfl rfl, hc⟩
  | portCount =>
    cases hexec
    refine ⟨t, h.of_world rfl rfl rfl, ?_⟩
    rw [h.portCount]
    exact hc
  | port p =>
    cases hexec
    refine ⟨t, h.of_world rfl rfl rfl, ?_⟩
    rw [h.ports]
    exact hc
  | setPort p port =>
    cases hexec
    refine ⟨_, ⟨?_, h.portCount, h.schedule⟩, hc⟩
    rw [← h.ports]
    rfl
  | die p =>
    cases hexec
    refine ⟨_, ⟨?_, h.portCount, h.schedule⟩, hc k.world.ipcPortTimestampData⟩
    rw [← h.ports]
    rfl
  | yield =>
    cases hexec
    refine ⟨t, h.of_world ?_ ?_ ?_, hc⟩ <;> simp [World.yield, h.schedule]
  | assert b | require b =>
    cases b with
    | false => contradiction
    | true =>
      cases hexec
      exact ⟨t, h.of_world rfl rfl rfl, hc rfl⟩

end Kernel

def transit (t : Ports) (p : Nat) : Option Nat := if (t p).isBase then none else some (t p).ipDestination

structure TransitInv (count : Nat) (t : Ports) : Prop where
  allocated : ∀ p, count ≤ p → (t p).ipActive = false
  acyclic : Chain.Acyclic (transit t)

def Port.Steady (p p' : Port) : Prop :=
  (p'.ipActive = true → p.ipActive = true) ∧
    (p'.isBase = true ∨ p'.isBase = p.isBase ∧ p'.ipDestination = p.ipDestination)

theorem transit_update (t : Ports) (p : Nat) (port : Port) : transit (update t p port) =
        update (transit t) p (if port.isBase then none else some port.ipDestination) := by
  funext q
  by_cases hq : q = p
  . rw [hq, update_self]
    unfold transit
    rw [update_self]
  . rw [update_of_ne hq]
    unfold transit
    rw [update_of_ne hq]

namespace TransitInv

variable {count : Nat} {t : Ports}

theorem update_allocated (h : TransitInv count t) (p : Nat) {port : Port}
    (hactive : port.ipActive = true → (t p).ipActive = true)
    : ∀ q, count ≤ q → (update t p port q).ipActive = false := by
  intro q hq
  by_cases heq : q = p
  . rw [heq] at hq ⊢
    rw [update_self]
    refine Bool.eq_false_iff.mpr fun htrue => ?_
    rw [h.allocated p hq] at hactive
    exact Bool.noConfusion (hactive htrue)
  . rw [update_of_ne heq]
    exact h.allocated q hq

theorem setPort (h : TransitInv count t) (p : Nat) {port : Port} (hport : (t p).Steady port)
    : TransitInv count (update t p port) := by
  refine ⟨h.update_allocated p hport.1, ?_⟩
  rw [transit_update]
  obtain hbase | ⟨hsame, hdest⟩ := hport.2
  . rw [if_pos hbase]
    exact h.acyclic.update_none p
  . rw [hsame, hdest]
    have hself : (if (t p).isBase = true then none else some (t p).ipDestination) = transit t p := rfl
    rw [hself, update_eq_self]
    exact h.acyclic

end TransitInv

class Tame {α : Type} (p : KProg α) : Prop where
  tame : ∀ {count : Nat} {t : Ports}, TransitInv count t →
    wp (portHandler count) p (fun _ => TransitInv count) t

namespace Tame

-- a bind doubles the size of an instance
set_option synthInstance.maxSize 100000

variable {α β : Type}

instance (a : α) : Tame (pure a : KProg α) := ⟨fun h => h⟩

instance {p : KProg α} {f : α → KProg β} [hp : Tame p] [hf : ∀ a, Tame (f a)] : Tame (p >>= f) := by
  refine ⟨fun h => ?_⟩
  rw [wp_bind]
  exact wp_mono (portHandler_monotone _) (fun a _ h' => (hf a).tame h') (hp.tame h)

instance {b : Prop} [Decidable b] {p p' : KProg α} [hp : Tame p] [hp' : Tame p']
    : Tame (if b then p else p') := by
  split
  . exact hp
  . exact hp'

theorem bind {p : KProg α} {f : α → KProg β} (hp : Tame p) (hf : ∀ a, Tame (f a)) : Tame (p >>= f) := inferInstance

section Commands

variable (space name p : Nat)

instance : Tame (isActive space) := ⟨fun h _ => h⟩

instance : Tame (entryLookup space name) := ⟨fun h _ => h⟩

instance : Tame (entryGet space) := ⟨fun h _ => h⟩

instance : Tame (entryGrowTable space) := ⟨fun h _ => h⟩

instance (object : Nat) : Tame (hashLookup space object) := ⟨fun h _ => h⟩

instance : Tame (getEntry space name) := ⟨fun h _ => h⟩

instance (r : Right) : Tame (setEntry space name r) := ⟨fun h => h⟩

instance (object : Nat) : Tame (hashInsert space object name) := ⟨fun h => h⟩

instance (object : Nat) : Tame (hashDelete space object name) := ⟨fun h => h⟩

instance : Tame (entryDealloc space name) := ⟨fun h => h⟩

instance : Tame (getPort p) := ⟨fun h => h⟩

instance : Tame (die p) := ⟨fun h _ => h.setPort p ⟨nofun, .inl rfl⟩⟩

instance (notices : List Notice) : Tame (tell notices) := ⟨fun h => h⟩

instance : Tame (marequestCancel space name) := ⟨fun h => h⟩

instance : Tame (ipLock p) := ⟨fun h => h⟩

instance (b : Prop) [Decidable b] : Tame (kassert b) := ⟨fun h _ => h⟩

instance (b : Prop) [Decidable b] : Tame (require b) := ⟨fun h _ => h⟩

end Commands

section Functions

variable (space name p : Nat)

theorem modifyPort {f : Port → Port} (hf : ∀ port : Port, port.Steady (f port))
    : Tame (modifyPort p f) := ⟨fun h => h.setPort p (hf _)⟩

instance : Tame (ipReference p) := modifyPort p fun _ => ⟨id, .inr ⟨rfl, rfl⟩⟩

instance : Tame (ipRelease p) := modifyPort p fun _ => ⟨id, .inr ⟨rfl, rfl⟩⟩

instance : Tame (dropSright p) := ⟨fun h => h.setPort p ⟨id, .inr ⟨rfl, rfl⟩⟩⟩

instance (index : Nat) : Tame (ipcPortDncancel p name index) := by
  refine ⟨fun h => wp_getPort (wp_kassert fun _ => wp_kassert fun _ => wp_kassert fun _ => ?_)⟩
  split
  . exact wp_kassert fun hf => hf.elim
  . exact wp_kassert fun _ => h.setPort p ⟨id, .inr ⟨rfl, rfl⟩⟩

instance : Tame (ipcPortClearReceiver p) := ⟨fun h _ => h.setPort p ⟨id, .inr ⟨rfl, rfl⟩⟩⟩

instance : Tame (ipcPortReleaseSonce p) := ⟨fun h _ _ => h.setPort p ⟨id, .inr ⟨rfl, rfl⟩⟩⟩

end Functions

end Tame

section Circularity

variable {count : Nat} {t : Ports} {port dest : Nat}

theorem transit_eq_none {p : Nat} : transit t p = none ↔ (t p).isBase = true := by
  unfold transit
  split
  . next h => simp [h]
  . next h => simp [h]

theorem wp_chainBase {fuel base : Nat} : wp (portHandler count) (chainBase fuel base)
        (fun b t' => t' = t ∧ Chain.Reaches (transit t) base b ∧ transit t b = none) t := by
  induction fuel generalizing base with
  | zero => exact wp_kassert fun hf => hf.elim
  | succ fuel ih =>
    refine wp_ipLock (wp_getPort ?_)
    split
    . next hbase => exact ⟨rfl, .refl, transit_eq_none.mpr hbase⟩
    . next hbase =>
      refine wp_mono (portHandler_monotone count) (fun b t' ⟨ht, hr, hend⟩ => ⟨ht, hr.head ?_, hend⟩) ih
      unfold transit
      rw [if_neg hbase]

structure Checked (t : Ports) (port dest : Nat) (circular : Bool) (t' : Ports) : Prop where
  reaches : circular = true ↔ Chain.Reaches (transit t) dest port
  unchanged : circular = true → t' = t
  sent : circular = false → (t' port).data = .destination dest ∧ (t port).isBase = true ∧
    ∀ p, p ≠ port → transit t' p = transit t p
  active : ∀ p, (t' p).ipActive = (t p).ipActive

theorem wp_kassertLimbo {p : Nat} {f : Unit → KProg β}
    (h : (t p).ipActive = true → (t p).ipReceiverName = machPortNull → (t p).ipDestination = ipNull →
      wp (portHandler count) (f ()) Q t) : wp (portHandler count) (kassertLimbo p >>= f) Q t :=
  fun hact hname hdest => h (of_decide_eq_true hact) (of_decide_eq_true hname) (of_decide_eq_true hdest)

theorem Port.isBase_of_limbo {p : Port} (h : p.ipDestination = ipNull) : p.isBase = true := by
  unfold Port.isBase
  simp [h]

theorem wp_notCircular (hno : (t port).isBase = true → ¬ Chain.Reaches (transit t) dest port)
    : wp (portHandler count) (ipcPortCheckCircularity.notCircular port dest)
        (fun b t' => b = false ∧ Checked t port dest b t') t := by
  refine wp_kassertLimbo fun hact hname hdest => ?_
  have hbase := Port.isBase_of_limbo hdest
  refine ⟨rfl, ⟨⟨nofun, fun hr => absurd hr (hno hbase)⟩, nofun, fun _ => ⟨?_, hbase, ?_⟩, ?_⟩⟩
  . rw [update_self]
  . intro p hne
    unfold transit
    rw [update_of_ne hne]
    rw [update_part Port.isBase (by rfl), update_part Port.ipDestination (by rfl)]
  . intro p
    rw [update_part Port.ipActive (by rfl), update_part Port.ipActive (by rfl)]

theorem wp_checkChain
    : wp (portHandler count) (ipcPortCheckCircularity.checkChain port dest) (Checked t port dest) t := by
  refine wp_portCount ?_
  rw [wp_bind]
  refine wp_mono (portHandler_monotone count) (fun base t' ⟨ht, hr, hend⟩ => ?_) wp_chainBase
  subst ht
  split
  . next heq =>
    subst heq
    exact wp_kassertLimbo fun _ _ _ => ⟨⟨fun _ => hr, fun _ => rfl⟩, fun _ => rfl, nofun, fun _ => rfl⟩
  . next hne =>
    refine wp_ipLock (wp_mono (portHandler_monotone count) (fun _ _ h => h.2) (wp_notCircular ?_))
    intro hbase hreach
    exact hne (hreach.end_unique hr (transit_eq_none.mpr hbase) hend)

theorem wp_checkCircularity : wp (portHandler count) (ipcPortCheckCircularity port dest) (Checked t port dest) t := by
  refine wp_kassert fun _ => wp_kassert fun _ => ?_
  split
  . next heq =>
    subst heq
    exact ⟨⟨fun _ => .refl, fun _ => rfl⟩, fun _ => rfl, nofun, fun _ => rfl⟩
  . next hne =>
    refine wp_ipLock (wp_ipLockTry fun b => ?_)
    split
    . refine wp_getPort ?_
      split
      . next hbase =>
        refine wp_mono (portHandler_monotone count) (fun _ _ h => h.2) (wp_notCircular fun _ hr => ?_)
        exact hne (hr.eq_of_end (transit_eq_none.mpr hbase)).symm
      . exact wp_checkChain
    . exact wp_checkChain

theorem Checked.inv (h : Checked t port dest circular t') (hinv : TransitInv count t) : TransitInv count t' := by
  cases circular with
  | true =>
    rw [h.unchanged rfl]
    exact hinv
  | false =>
    obtain ⟨hdata, -, hothers⟩ := h.sent rfl
    have heq : transit t' = update (transit t) port (transit t' port) := by
      funext p
      by_cases hp : p = port
      . rw [hp, update_self]
      . rw [update_of_ne hp]
        exact hothers p hp
    refine ⟨fun p hp => ?_, ?_⟩
    . rw [h.active p]
      exact hinv.allocated p hp
    . rw [heq]
      unfold transit
      split
      . exact hinv.acyclic.update_none port
      . have hdest : (t' port).ipDestination = dest := by
          unfold Port.ipDestination
          rw [hdata]
        rw [hdest]
        exact hinv.acyclic.update_some fun hr => Bool.noConfusion (h.reaches.mpr hr)

instance (port dest : Nat) : Tame (ipcPortCheckCircularity port dest) :=
  ⟨fun hinv => wp_mono (portHandler_monotone _) (fun _ _ h => h.inv hinv) wp_checkCircularity⟩

end Circularity

namespace Tame

set_option synthInstance.maxSize 100000

section Functions

variable (space name p : Nat)

instance : Tame (ipcPortDestroy p) := by
  refine ⟨fun {count t} h => wp_getPort (wp_kassert fun _ => wp_kassert fun _ => ?_)⟩
  split
  . refine wp_setPort ?_
    have hsteady : (t p).Steady { (t p).inLimbo with ipPdrequest := ipNull } := ⟨id, .inl (Port.isBase_of_limbo rfl)⟩
    have hrest : Tame (do
        if ← ipcPortBackup p (t p).ipPdrequest then
          return ()
        else
          ipLock p
          kassertLimbo p
          let port ← getPort p
          kassert (port.ipMscount = 0)
          kassert (port.ipPdrequest = ipNull)
          die p) := inferInstance
    exact hrest.tame (h.setPort p hsteady)
  . exact (inferInstance : Tame (die p)).tame h

instance : Tame (ipcPortReleaseReceive p) := by
  unfold ipcPortReleaseReceive
  infer_instance

instance : Tame (moveReceiver p) := by
  have hlimbo : Tame (KProg.modifyPort p Port.inLimbo) := modifyPort p fun _ => ⟨id, .inl (Port.isBase_of_limbo rfl)⟩
  unfold moveReceiver
  infer_instance

instance (type : PortType) (receiver : KProg Unit) [Tame receiver]
    : Tame (releaseRights space p type receiver) := by
  unfold releaseRights releaseRights.releasePort
  infer_instance

instance : Tame (ipcRightDestroy space name) := by
  refine .bind inferInstance fun bits => .bind inferInstance fun _ => ?_
  split <;> infer_instance

instance (bits : Right) : Tame (ipcRightDelta.deltaReceive space name bits) := by
  unfold ipcRightDelta.deltaReceive
  infer_instance

instance (delta : Int) : Tame (ipcRightDelta space name .receive delta) := by
  unfold ipcRightDelta
  infer_instance

instance (deadok : Bool) : Tame (ipcRightCopyin space name .moveReceive deadok) := by
  unfold ipcRightCopyin
  infer_instance

instance : Tame (ipcRightReverse space p) := by
  refine .bind inferInstance fun _ => .bind inferInstance fun _ => .bind inferInstance fun _ =>
    .bind inferInstance fun port => ?_
  split
  . infer_instance
  . split
    . infer_instance
    . refine .bind inferInstance fun found => ?_
      split <;> infer_instance

instance (bits : Right) (dest : Nat) : Tame (ipcRightCopyout.addReceive space name bits dest) := by
  unfold ipcRightCopyout.addReceive
  infer_instance

instance (overflow : Bool) (object : Nat)
    : Tame (ipcRightCopyout space name .portReceive overflow object) := by
  refine ⟨fun {count t} h => wp_getEntry fun bits => wp_getPort (wp_kassert fun _ => wp_kassert fun _ =>
    wp_require fun _ => wp_kassert fun _ => wp_kassert fun _ => wp_setPort ?_)⟩
  have hsteady : (t object).Steady { t object with ipReceiverName := name, data := .receiver space } :=
    ⟨id, .inl (Port.isBase_of_limbo rfl)⟩
  have hrest : Tame (do
      kassert (bits.type.hasReceive = false)
      if bits.type.hasSend then
        require (0 < bits.urefs)
        kassert (0 < (t object).ipSrights)
        ipRelease object
        hashDelete space object name
        ipcRightCopyout.addReceive space name bits (t object).ipDestination
      else
        require (bits.type = .none)
        require (bits.urefs = 0)
        ipcRightCopyout.addReceive space name bits (t object).ipDestination) := inferInstance
  exact hrest.tame (h.setPort object hsteady)

instance {α : Type} (body : KProg (Except KernReturn α)) [Tame body]
    : Tame (withEntry space name body) := by
  unfold withEntry ipcRightLookupWrite
  refine .bind inferInstance fun kr => ?_
  split <;> infer_instance

instance (prog : KProg KernReturn) [Tame prog] : Tame (returnCode prog) := by
  refine .bind inferInstance fun kr => ?_
  split <;> infer_instance

instance : Tame (objectCopyin space name .moveReceive) := by
  have hbody : Tame (do
      let copied ← ipcRightCopyin space name .moveReceive true
      deallocIfNone space name
      match copied with
      | .error kr => return .error kr
      | .ok (object, soright) =>
        ipcNotifyPortDeleted object soright name
        return .ok (object, ipNull) : KProg Copied) := by
    refine .bind inferInstance fun copied => .bind inferInstance fun _ => ?_
    split <;> infer_instance
  unfold objectCopyin
  infer_instance

instance (object : Nat) (overflow : Bool)
    : Tame (copyoutNew space name object .portReceive overflow) := by
  unfold copyoutNew
  infer_instance

instance (object : Nat) (overflow : Bool)
    : Tame (objectCopyout space object .portReceive overflow) := by
  refine .bind inferInstance fun _ => .bind inferInstance fun active => ?_
  split
  . refine .bind (by unfold findRight; infer_instance) fun found => ?_
    split
    . infer_instance
    . refine .bind inferInstance fun got => ?_
      split <;> infer_instance
  . infer_instance

end Functions

end Tame

inductive TransitOp where
  | move (space name : Nat)
  | checkCircularity (port dest : Nat)
  | receive (space object : Nat) (overflow : Bool)
  | destroy (space name : Nat)
  | delta (space name : Nat) (d : Int32)
  | releaseReceive (port : Nat)

def TransitOp.prog : TransitOp → KProg Unit
  | .move space name => discard (objectCopyin space name .moveReceive)
  | .checkCircularity port dest => discard (ipcPortCheckCircularity port dest)
  | .receive space object overflow => discard (objectCopyout space object .portReceive overflow)
  | .destroy space name => discard (rightDestroy space name)
  | .delta space name d => discard (rightDelta space name .receive d.toInt)
  | .releaseReceive port => ipcPortReleaseReceive port

instance {α : Type} (p : KProg α) [Tame p] : Tame (discard p) := (inferInstance : Tame (p >>= fun _ => pure ()))

theorem TransitOp.tame (op : TransitOp) : Tame op.prog := by
  cases op with
  | move | checkCircularity | receive | releaseReceive =>
    unfold TransitOp.prog
    infer_instance
  | destroy =>
    unfold TransitOp.prog rightDestroy
    infer_instance
  | delta =>
    unfold TransitOp.prog rightDelta
    infer_instance

section Total

variable {α : Type} {s : Kernel} {Q : α → Kernel → Prop} {port dest : Nat}

theorem returns_getPort {f : Port → KProg α} (h : Returns Kernel.machine (f (s.world.ports port)) s Q)
    : Returns Kernel.machine (getPort port >>= f) s Q := h

variable {f : Unit → KProg α}

theorem returns_kassert {b : Prop} [Decidable b] (hb : b)
    (h : Returns Kernel.machine (f ()) s Q) : Returns Kernel.machine (kassert b >>= f) s Q := by
  refine .bind (Q := fun _ s' => s' = s) ⟨(), s, ?_, rfl⟩ fun _ s' hs' => hs' ▸ h
  unfold kassert
  rw [decide_eq_true hb]
  rfl

theorem returns_ipLock (hs : s.world.schedule = [])
    (h : Returns Kernel.machine (f ()) s Q) : Returns Kernel.machine (ipLock port >>= f) s Q := by
  refine .bind (Q := fun _ s' => s' = s) ⟨(), s, ?_, rfl⟩ fun _ s' hs' => hs' ▸ h
  have hyield : s.world.yield = s.world := by
    unfold World.yield
    rw [hs]
  show Except.ok ((), { s with world := s.world.yield }) = _
  rw [hyield]

theorem returns_chainBase (hs : s.world.schedule = []) {fuel base b : Nat}
    (h : Chain.follow (transit s.world.ports) fuel base = some b)
    : Returns Kernel.machine (chainBase fuel base) s fun b' s' => b' = b ∧ s' = s := by
  induction fuel generalizing base with
  | zero => contradiction
  | succ fuel ih =>
    refine returns_ipLock hs (returns_getPort ?_)
    unfold Chain.follow transit at h
    split
    . next hbase =>
      rw [if_pos hbase] at h
      exact .pure ⟨Option.some.inj h, rfl⟩
    . next hbase =>
      rw [if_neg hbase] at h
      exact ih h

structure Port.Limbo (p : Port) : Prop where
  active : p.ipActive = true
  receiverName : p.ipReceiverName = machPortNull
  destination : p.ipDestination = ipNull

theorem returns_kassertLimbo (hlimbo : (s.world.ports port).Limbo) (h : Returns Kernel.machine (f ()) s Q)
    : Returns Kernel.machine (kassertLimbo port >>= f) s Q := by
  refine .bind (Q := fun _ s' => s' = s) ?_ fun _ s' hs' => hs' ▸ h
  refine returns_getPort (returns_kassert hlimbo.active (returns_kassert hlimbo.receiverName ?_))
  refine ⟨(), s, ?_, rfl⟩
  unfold kassert
  rw [decide_eq_true hlimbo.destination]
  rfl

theorem returns_notCircular (hlimbo : (s.world.ports port).Limbo)
    : Returns Kernel.machine (ipcPortCheckCircularity.notCircular port dest) s fun _ _ => True :=
  returns_kassertLimbo hlimbo ⟨_, _, rfl, trivial⟩

theorem returns_checkChain (hs : s.world.schedule = [])
    (h : TransitInv s.world.portCount s.world.ports) (hlimbo : (s.world.ports port).Limbo)
    : Returns Kernel.machine (ipcPortCheckCircularity.checkChain port dest) s fun _ _ => True := by
  -- only ports that have been allocated are in transit
  have hbound : ∀ c, transit s.world.ports c ≠ none → c ∈ Finset.range s.world.portCount := by
    intro c hc
    rw [Finset.mem_range]
    by_contra hge
    have hdead := h.allocated c (Nat.not_lt.mp hge)
    apply hc
    rw [transit_eq_none]
    unfold Port.isBase
    rw [hdead]
    rfl
  obtain ⟨b, hfollow, -, -⟩ := Chain.follow_spec (a := dest) h.acyclic
    (Finset.range s.world.portCount) fun c _ => hbound c
  rw [Finset.card_range] at hfollow
  show Returns Kernel.machine (chainBase (s.world.portCount + 1) dest >>= _) s _
  refine .bind (returns_chainBase hs hfollow) fun base s' ⟨_, hs'⟩ => ?_
  subst hs'
  split
  . exact returns_kassertLimbo hlimbo (.pure trivial)
  . exact returns_ipLock hs (returns_notCircular hlimbo)

theorem returns_ipLockTry {f : Bool → KProg α}
    (h : ∀ b s', s'.world = { s.world with lockTries := s.world.lockTries.tail } → Returns Kernel.machine (f b) s' Q)
    : Returns Kernel.machine (ipLockTry port >>= f) s Q := by
  refine .bind (Q := fun _ s' => s'.world = { s.world with lockTries := s.world.lockTries.tail })
    ⟨_, _, rfl, rfl⟩ h

theorem returns_checkCircularity (hs : s.world.schedule = [])
    (h : TransitInv s.world.portCount s.world.ports) (hport : port ≠ ipNull) (hdest : dest ≠ ipNull)
    (hlimbo : (s.world.ports port).Limbo)
    : Returns Kernel.machine (ipcPortCheckCircularity port dest) s fun _ _ => True := by
  refine returns_kassert hport (returns_kassert hdest ?_)
  split
  . exact .pure trivial
  . refine returns_ipLock hs (returns_ipLockTry fun b s' hworld => ?_)
    -- the attempt to take a lock changes no port
    have hchain : Returns Kernel.machine (ipcPortCheckCircularity.checkChain port dest) s'
        fun _ _ => True := by
      apply returns_checkChain
      . rw [hworld]
        exact hs
      . rw [hworld]
        exact h
      . rw [hworld]
        exact hlimbo
    split
    . refine returns_getPort ?_
      split
      . apply returns_notCircular
        rw [hworld]
        exact hlimbo
      . exact hchain
    . exact hchain

end Total

theorem TransitInv.of_isBase {count : Nat} {t : Ports} (h : ∀ p, count ≤ p → (t p).ipActive = false)
    (hbase : ∀ p, (t p).isBase = true) : TransitInv count t := by
  refine ⟨h, ⟨fun p => ⟨p, fun q hq => ?_⟩⟩⟩
  rw [transit_eq_none.mpr (hbase _)] at hq
  contradiction

theorem run_transit {s s' : Kernel} {ops : List TransitOp} (hs : s.world.schedule = [])
    (h : TransitInv s.world.portCount s.world.ports) (hrun : s.run (ops.map TransitOp.prog) = .ok s')
    : (∀ p, ∃ q, Chain.Reaches (transit s'.world.ports) p q ∧ (s'.world.ports q).isBase = true) ∧
      ∀ port dest, port ≠ ipNull → dest ≠ ipNull → (s'.world.ports port).Limbo →
        ∃ circular s'', exec Kernel.machine (ipcPortCheckCircularity port dest) s' = .ok (circular, s'') ∧
          Checked s'.world.ports port dest circular s''.world.ports := by
  have hinv : s'.world.schedule = [] ∧ TransitInv s'.world.portCount s'.world.ports := by
    refine Kernel.run_induction (P := fun s => s.world.schedule = [] ∧
      TransitInv s.world.portCount s.world.ports) ⟨hs, h⟩ ?_ hrun
    intro prog hprog s s' u ⟨hs, h⟩ hstep
    obtain ⟨op, -, rfl⟩ := List.mem_map.mp hprog
    obtain ⟨t', hr, hinv⟩ := (Kernel.machine_alone s.world.portCount).ok
      ⟨rfl, rfl, hs⟩ ((TransitOp.tame op).tame h) hstep
    refine ⟨hr.schedule, ?_⟩
    rw [hr.portCount, hr.ports]
    exact hinv
  obtain ⟨hs', h'⟩ := hinv
  constructor
  . intro p
    obtain ⟨q, hreach, hend⟩ := h'.acyclic.exists_end p
    exact ⟨q, hreach, transit_eq_none.mp hend⟩
  . intro port dest hport hdest hlimbo
    obtain ⟨circular, s'', hexec, -⟩ := returns_checkCircularity hs' h' hport hdest hlimbo
    obtain ⟨t', hr, hchecked⟩ := (Kernel.machine_alone s'.world.portCount).ok ⟨rfl, rfl, hs'⟩ wp_checkCircularity hexec
    rw [← hr.ports] at hchecked
    exact ⟨circular, s'', hexec, hchecked⟩

-- slots 2 and 3 hold the receive rights for ports 1 and 2
def twoReceivers : Kernel where
  spaces := fun space => { Kernel.firstSpace space with
    isTable := fun index =>
      if index < 2 then ⟨.ofGen genMask, ioNull, 1 - index⟩
      else ⟨{ IeBits.ofGen 0 with type := .receive }, index - 1, 0⟩ }
  held := fun _ _ => .table 0
  world :=
    { ports := fun p => { Kernel.livePort with ipActive := p < 3, ipReceiverName := 256 * (p + 1), data := .receiver 1 }
      portCount := 3, isNotify := fun _ => ipNull, ipcPortTimestampData := 0, schedule := [],
      lockTries := [], memory := [], marequests := Kernel.noRequests, log := [] }

theorem twoReceivers_inv : TransitInv twoReceivers.world.portCount twoReceivers.world.ports := by
  apply TransitInv.of_isBase
  . intro p hp
    exact decide_eq_false (Nat.not_lt.mpr hp)
  . intro p
    simp [Port.isBase, twoReceivers, machPortNull]

theorem run_transit_cycle
    : ∃ s' s'', twoReceivers.run ([.move 1 512, .checkCircularity 1 2, .move 1 768].map
        TransitOp.prog) = .ok s' ∧ exec Kernel.machine (ipcPortCheckCircularity 2 1) s' = .ok (true, s'') ∧
      Checked s'.world.ports 2 1 true s''.world.ports := by
  have hrun : ∃ s', twoReceivers.run
      ([.move 1 512, .checkCircularity 1 2, .move 1 768].map TransitOp.prog) = .ok s' ∧
      (∃ r, exec Kernel.machine (ipcPortCheckCircularity 2 1) s' = .ok r ∧ r.1 = true) ∧
      (s'.world.ports 2).ipActive = true ∧ (s'.world.ports 2).ipReceiverName = machPortNull ∧
      (s'.world.ports 2).ipDestination = ipNull := by decide +kernel
  obtain ⟨s', hok, ⟨⟨_, s''⟩, hexec, rfl⟩, hactive, hname, hdest⟩ := hrun
  have hlimbo : (s'.world.ports 2).Limbo := ⟨hactive, hname, hdest⟩
  obtain ⟨circular, t, hexec', hchecked⟩ := (run_transit rfl twoReceivers_inv hok).2 2 1 (by decide) (by decide) hlimbo
  rw [hexec] at hexec'
  cases hexec'
  exact ⟨s', s'', hok, hexec, hchecked⟩

end Ipc
