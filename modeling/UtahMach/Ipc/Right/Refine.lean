import UtahMach.Ipc.Entry.Run
import UtahMach.Ipc.Right.Keep

/-!
This module contains the proof that the functions on spaces do to entries what the functions on
rights assume of them.
-/

namespace Ipc

open Function (update update_of_ne update_self update_eq_self comp_update)

def Cells.row (t : Cells) (space : Nat) : Nat → Cell := fun n => t (space, n)

theorem Cells.row_update (t : Cells) (space name : Nat) (cell : Cell)
    : Cells.row (update t (space, name) cell) space = update (t.row space) name cell := by
  funext n
  by_cases hn : n = name
  . subst hn
    rw [update_self]
    exact update_self ..
  . rw [update_of_ne hn]
    exact update_of_ne (fun heq => hn (congrArg Prod.snd heq)) ..

structure SpaceRel (s : Space) (held : Nat → Loc) (row : Nat → Cell) : Prop where
  rep : ∃ free, Rep s (Cell.right ∘ row) (Cell.hashed ∘ row) free
  head : (row headName).right = none
  held : ∀ n, (row n).held = true → held n = s.loc n

theorem loc_of_toList {s : Space} {tree : Splay.SplayTree Nat Entry} (hlist : tree.toList = s.isTree.toList) (n : Nat)
    : ({ s with isTree := tree } : Space).loc n = s.loc n := by
  simp only [Space.loc, Splay.SplayTree.get?_of_toList_eq hlist]

namespace SpaceRel

variable {s s' : Space} {held held' : Nat → Loc} {row : Nat → Cell} {name : Nat}

section

variable (h : SpaceRel s held row)
include h

theorem congr_tree {tree : Splay.SplayTree Nat Entry} (hwf : tree.WF) (hlist : tree.toList = s.isTree.toList)
    : SpaceRel { s with isTree := tree } held row := by
  obtain ⟨free, hrep⟩ := h.rep
  refine ⟨⟨free, hrep.congr_tree hwf hlist⟩, h.head, fun n hn => ?_⟩
  rw [loc_of_toList hlist]
  exact h.held n hn

theorem update {cell : Cell}
    (hrep : ∃ free, Rep s' (update (Cell.right ∘ row) name cell.right)
      (update (Cell.hashed ∘ row) name cell.hashed) free)
    (hname : cell.right ≠ none → name ≠ headName) (hself : cell.held = true → held' name = s'.loc name)
    (hothers : ∀ n, n ≠ name → (row n).held = true → held' n = s'.loc n)
    : SpaceRel s' held' (update row name cell) := by
  refine ⟨?_, ?_, fun n hn => ?_⟩
  . rw [comp_update, comp_update]
    exact hrep
  . by_cases hhead : headName = name
    . rw [hhead, update_self]
      by_contra hne
      exact hname hne hhead.symm
    . rw [update_of_ne hhead]
      exact h.head
  . by_cases heq : n = name
    . subst heq
      rw [update_self] at hn
      exact hself hn
    . rw [update_of_ne heq] at hn
      exact hothers n heq hn

theorem name_ne (hr : (row name).right ≠ none) : name ≠ headName := by
  rintro rfl
  exact hr h.head

theorem hold {loc : Loc} (hloc : loc = s.loc name)
    : SpaceRel s (Function.update held name loc) (Function.update row name { row name with held := true }) := by
  subst hloc
  refine h.update ?_ h.name_ne (fun _ => update_self ..) fun n hn hheld => ?_
  case refine_2 =>
    rw [update_of_ne hn]
    exact h.held n hheld
  show ∃ free, Rep s (Function.update (Cell.right ∘ row) name ((Cell.right ∘ row) name))
    (Function.update (Cell.hashed ∘ row) name ((Cell.hashed ∘ row) name)) free
  rw [update_eq_self, update_eq_self]
  exact h.rep

theorem store (hheld : (row name).held = true) (hr : (row name).right = some r0)
    (hobj : (row name).hashed = true → r.object = r0.object)
    : ∃ e, s.entry (held name) = some e ∧ e.right = r0 ∧ SpaceRel (s.setEntry (e.setRight r) (held name)) held
        (Function.update row name { row name with right := some r }) := by
  obtain ⟨free, hrep⟩ := h.rep
  obtain ⟨e, he, her, hstored⟩ := hrep.store (n := name) (r := r) hr hobj
  have hloc := loc_setEntry hrep.tree_wf (e.setRight r) (s.loc name)
  rw [h.held name hheld]
  refine ⟨e, he, her, h.update ⟨free, ?_⟩ (fun _ => h.name_ne (by simp [hr])) (fun hn => ?_) fun n _ hn => ?_⟩
  . show Rep _ _ (Function.update (Cell.hashed ∘ row) name ((Cell.hashed ∘ row) name)) _
    rw [update_eq_self]
    exact hstored
  . rw [hloc, h.held name hn]
  . rw [hloc, h.held n hn]

theorem setHash (hheld : (row name).held = true) (b : Bool) {isIndex : Nat → Nat} {buckets : Nat → List Nat}
    {count : Nat} (hrep : ∃ free, Rep (s.setHash isIndex buckets count) (Cell.right ∘ row)
      (Function.update (Cell.hashed ∘ row) name b) free)
    : SpaceRel (s.setHash isIndex buckets count) held (Function.update row name { row name with hashed := b }) := by
  refine h.update ?_ h.name_ne (fun _ => h.held name hheld) fun n _ hn => h.held n hn
  show ∃ free, Rep _ (Function.update (Cell.right ∘ row) name ((Cell.right ∘ row) name)) _ free
  rw [update_eq_self]
  exact hrep

theorem enter {free : List Nat} {r : Right}
    (hrep : Rep s' (Function.update (Cell.right ∘ row) name (some r)) (Cell.hashed ∘ row) free)
    (hname : name ≠ headName) (hothers : ∀ n, (row n).held = true → s'.loc n = s.loc n)
    : SpaceRel s' (Function.update held name (s'.loc name))
        (Function.update row name { row name with right := some r, held := true }) := by
  refine h.update ⟨free, ?_⟩ (fun _ => hname) (fun _ => update_self ..) fun n hn hheld => ?_
  . show Rep _ _ (Function.update (Cell.hashed ∘ row) name ((Cell.hashed ∘ row) name)) _
    rw [update_eq_self]
    exact hrep
  . rw [update_of_ne hn, hothers n hheld]
    exact h.held n hheld

end

theorem of_not_held {row' : Nat → Cell} (hrep : ∃ free, Rep s (Cell.right ∘ row) (Cell.hashed ∘ row) free)
    (hhead : (row headName).right = none) (hrow : ∀ n, row' n = { row n with held := false })
    : SpaceRel s held row' := by
  have hright : Cell.right ∘ row' = Cell.right ∘ row := by
    funext n
    simp [hrow]
  have hhashed : Cell.hashed ∘ row' = Cell.hashed ∘ row := by
    funext n
    simp [hrow]
  refine ⟨?_, ?_, fun n hn => ?_⟩
  . rw [hright, hhashed]
    exact hrep
  . rw [hrow]
    exact hhead
  . rw [hrow] at hn
    contradiction

end SpaceRel

namespace Kernel

def gone : Cell := ⟨none, false, false, false⟩

structure Rel (active : Nat → Bool) (k : Kernel) (t : Cells) : Prop where
  isActive : ∀ space, (k.spaces space).isActive = active space
  space : ∀ space, active space = true → SpaceRel (k.spaces space) (k.held space) (t.row space)
  wf : k.world.marequests.WF
  request : ∀ key : Nat × Nat, active key.1 = true →
    ((t key).request = true ↔ k.world.marequests.Has key.1 key.2)
  dead : ∀ key : Nat × Nat, active key.1 = false → t key = gone

@[simp]
theorem setSpace_self (k : Kernel) (space : Nat) : k.setSpace space (k.spaces space) = k := by
  unfold setSpace
  rw [update_eq_self]

variable {active : Nat → Bool} {k : Kernel} {t t' : Cells} {space name : Nat}

namespace Rel

section

variable (h : Rel active k t)
include h

theorem setWorld {w : World} (hm : w.marequests = k.world.marequests) : Rel active { k with world := w } t :=
  ⟨h.isActive, h.space, hm ▸ h.wf, hm ▸ h.request, h.dead⟩

theorem active_of_used {key : Nat × Nat} (hused : (t key).held = true ∨ (t key).request = true)
    : active key.1 = true := by
  cases hact : active key.1 with
  | true => rfl
  | false =>
    rw [h.dead key hact] at hused
    obtain hused | hused := hused <;> contradiction

theorem setHeld (hact : active space = true) {s : Space} {held : Nat → Loc} (hspace : SpaceRel s held (t'.row space))
    (hreq : ∀ n, (t' (space, n)).request = (t (space, n)).request) (hothers : ∀ key, key.1 ≠ space → t' key = t key)
    : Rel active { k with spaces := update k.spaces space s, held := update k.held space held } t' := by
  refine ⟨fun space' => ?_, fun space' hact' => ?_, h.wf, fun key hkey => ?_, fun key hkey => ?_⟩
  . by_cases heq : space' = space
    . obtain ⟨free, hrep⟩ := hspace.rep
      subst heq
      simp only [update_self]
      rw [hrep.active, hact]
    . simp only [update_of_ne heq]
      exact h.isActive space'
  . by_cases heq : space' = space
    . subst heq
      simp only [update_self]
      exact hspace
    . have hrow : t'.row space' = t.row space' := funext fun n => hothers (space', n) heq
      simp only [update_of_ne heq, hrow]
      exact h.space space' hact'
  . rw [← h.request key hkey]
    by_cases heq : key.1 = space
    . subst heq
      rw [hreq]
    . rw [hothers key heq]
  . rw [hothers key, h.dead key hkey]
    rintro rfl
    rw [hact] at hkey
    contradiction

theorem setSpace (hact : active space = true) {s : Space} (hspace : SpaceRel s (k.held space) (t'.row space))
    (hreq : ∀ n, (t' (space, n)).request = (t (space, n)).request) (hothers : ∀ key, key.1 ≠ space → t' key = t key)
    : Rel active (k.setSpace space s) t' := by
  have hrel := h.setHeld hact hspace hreq hothers
  rw [update_eq_self] at hrel
  exact hrel

end

theorem update_request {cell : Cell} (hreq : cell.request = (t (space, name)).request) (n : Nat)
    : (update t (space, name) cell (space, n)).request = (t (space, n)).request := by
  by_cases hn : n = name
  . subst hn
    rw [update_self]
    exact hreq
  . rw [update_of_ne fun heq => hn (congrArg Prod.snd heq)]

theorem update_others (t : Cells) (cell : Cell) (key : Nat × Nat) (hkey : key.1 ≠ space)
    : update t (space, name) cell key = t key :=
  update_of_ne (fun heq => hkey (congrArg Prod.fst heq)) ..

section

variable (h : Rel active k t) (cell : Cell) (hact : active space = true) {s : Space}
  (hreq : cell.request = (t (space, name)).request)
include h hact hreq

theorem setCellHeld {held : Nat → Loc} (hspace : SpaceRel s held (update (t.row space) name cell))
    : Rel active { k with spaces := update k.spaces space s, held := update k.held space held }
        (update t (space, name) cell) := by
  refine h.setHeld hact ?_ (update_request hreq) (update_others t cell)
  rw [Cells.row_update]
  exact hspace

theorem setCell (hspace : SpaceRel s (k.held space) (update (t.row space) name cell))
    : Rel active (k.setSpace space s) (update t (space, name) cell) := by
  refine h.setSpace hact ?_ (update_request hreq) (update_others t cell)
  rw [Cells.row_update]
  exact hspace

end

theorem hold (h : Rel active k t) (hact : active space = true) {s : Space} {loc : Loc}
    (hspace : SpaceRel s (k.held space) (t.row space)) (hloc : loc = s.loc name)
    : Rel active ((k.setSpace space s).hold space name loc) (t.hold (space, name)) :=
  h.setCellHeld { t (space, name) with held := true } hact rfl (hspace.hold hloc)

theorem enter (h : Rel active k t) (hact : active space = true) {s : Space} {free : List Nat}
    (hrep : Rep s (entered (Cell.right ∘ t.row space) name) (Cell.hashed ∘ t.row space) free)
    (hname : name ≠ headName) (hothers : ∀ n, (t (space, n)).held = true → s.loc n = (k.spaces space).loc n)
    : Rel active ((k.setSpace space s).hold space name (s.loc name)) (t.enter (space, name)) := by
  have hspace := (h.space space hact).enter hrep hname hothers
  exact h.setCellHeld { t (space, name) with
    right := some ((t (space, name)).right.getD Right.null), held := true } hact rfl hspace

theorem unhold (h : Rel active k t) (space : Nat) : Rel active k (t.unhold space) := by
  refine ⟨h.isActive, fun space' hact => ?_, h.wf, fun key hkey => ?_, fun key hkey => ?_⟩
  . by_cases heq : space' = space
    . refine .of_not_held (h.space space' hact).rep (h.space space' hact).head fun n => ?_
      exact if_pos heq
    . have hrow : (t.unhold space).row space' = t.row space' := funext fun n => if_neg heq
      rw [hrow]
      exact h.space space' hact
  . rw [← h.request key hkey]
    unfold Cells.unhold
    split <;> rfl
  . unfold Cells.unhold
    rw [h.dead key hkey]
    split <;> rfl

end Rel

abbrev After {α : Type} (active : Nat → Bool) (Q : α → Cells → Prop) : α → Kernel → Prop :=
  fun a k => ∃ t, Rel active k t ∧ Q a t

theorem AllOk.settled (ha : AllOk t) (space : Nat) : Settled (Cell.right ∘ t.row space) := by
  intro n r hr
  exact (ha.cell (k := (space, n)) hr).ok.type_ne

theorem AllOk.agree (ha : AllOk t) (space : Nat) : Agree (Cell.right ∘ t.row space) (Cell.hashed ∘ t.row space) := by
  intro n r hr
  exact (ha.cell (k := (space, n)) hr).hashed

section Spaces

variable (h : Rel active k t)
include h

theorem lookup_sound {Q : Bool → Cells → Prop} (hc : cellHandler active (.lookup space name) Q t)
    : Prog.Safe (machine (.lookup space name) k) (After active Q) := by
  obtain ⟨hact, htype, hnone, hsome⟩ := hc
  have hspace := h.space space hact
  obtain ⟨free, hrep⟩ := hspace.rep
  show Prog.Safe ((orUndefined (ipcEntryLookup (k.spaces space) name)).map _) _
  by_cases hname : name = headName
  . subst hname
    rw [ipcEntryLookup_head hrep]
    refine ⟨t, ?_, hnone hspace.head⟩
    rw [setSpace_self]
    exact h
  . obtain ⟨tree, hlook, hwf, hlist⟩ := ipcEntryLookup_spec hrep htype hname
    have hspace' := hspace.congr_tree hwf hlist
    by_cases hr : (Cell.right ∘ t.row space) name = none
    . rw [if_pos hr] at hlook
      rw [hlook]
      exact ⟨t, h.setSpace hact hspace' (fun _ => rfl) fun _ _ => rfl, hnone hr⟩
    . rw [if_neg hr] at hlook
      rw [hlook]
      exact ⟨_, h.hold hact hspace' (loc_of_toList hlist name).symm, hsome hr⟩

theorem entryGet_sound {Q : Option Nat → Cells → Prop} (hc : cellHandler active (.entryGet space) Q t)
    : Prog.Safe (machine (.entryGet space) k) (After active Q) := by
  obtain ⟨hact, hnone, hsome⟩ := hc
  have hspace := h.space space hact
  obtain ⟨free, hrep⟩ := hspace.rep
  show Prog.Safe ((orUndefined (ipcEntryGet (k.spaces space))).map _) _
  rcases ipcEntryGet_spec hrep with ⟨hget, -⟩ | ⟨n, s', free', hget, hnew, hvalid, hpos, htree, hrep'⟩
  . rw [hget]
    refine ⟨t, ?_, hnone⟩
    rw [setSpace_self]
    exact h
  . have hname : n ≠ headName := by
      rintro rfl
      contradiction
    have hnull : n ≠ machPortNull := by
      simp only [machPortValid, Bool.and_eq_true, bne_iff_ne] at hvalid
      exact hvalid.1
    rw [← entered_of_none hnew] at hrep'
    rw [hget]
    refine ⟨_, h.enter hact hrep' hname fun n' _ => ?_, hsome n hnew hnull⟩
    simp only [Space.loc, htree]

theorem growTable_sound {Q : KernReturn → Cells → Prop} (hc : cellHandler active (.growTable space) Q t)
    : Prog.Safe (machine (.growTable space) k) (After active Q) := by
  obtain ⟨hact, ha, hq⟩ := hc
  have hspace := h.space space hact
  obtain ⟨free, hrep⟩ := hspace.rep
  obtain ⟨kr, mem, s', hgrow, ⟨free', hrep'⟩, -, -⟩ := ipcEntryGrowTable_spec hrep (AllOk.settled ha space)
    (AllOk.agree ha space) ipcTableEntriesSize (by simp only [ipcTableEntriesSize]; omega) k.world.memory
  show Prog.Safe ((orUndefined (ipcEntryGrowTable ipcTableEntriesSize k.world.memory (k.spaces space))).map _) _
  rw [hgrow]
  refine ⟨_, ((h.unhold space).setSpace hact ?_ (fun _ => rfl) fun _ _ => rfl).setWorld rfl, hq kr⟩
  exact .of_not_held ⟨free', hrep'⟩ hspace.head fun n => if_pos rfl

theorem allocName_sound {Q : KernReturn → Cells → Prop} (hc : cellHandler active (.allocName space name) Q t)
    : Prog.Safe (machine (.allocName space name) k) (After active Q) := by
  obtain ⟨⟨hpos, hlt, hname⟩, ha, herr, hok⟩ := hc
  show Prog.Safe ((orUndefined (ipcEntryAllocName name 4 false k.world.memory (k.spaces space))).map _) _
  cases hact : active space with
  | false =>
    have halloc : ipcEntryAllocName name 4 false k.world.memory (k.spaces space) =
        some (.error .invalidTask, k.world.memory, k.spaces space) := by
      simp [ipcEntryAllocName, ipcEntryAllocNameStep, h.isActive, hact]
    rw [halloc]
    refine ⟨t.unhold space, ?_, herr _ KernReturn.noConfusion⟩
    simp only [setSpace_self]
    exact h.unhold space
  | true =>
    have hspace := h.space space hact
    obtain ⟨free, hrep⟩ := hspace.rep
    have hfuel : allocNameRounds name false (k.spaces space) ≤ 4 := by
      unfold allocNameRounds
      split <;> simp
    obtain ⟨res, mem, s', halloc, hres⟩ := ipcEntryAllocName_spec hrep (AllOk.settled ha space)
      (AllOk.agree ha space) ⟨hpos, hlt⟩ 4 false hfuel k.world.memory
    rw [halloc]
    cases res with
    | error kr =>
      obtain ⟨hkr, free', hrep'⟩ := hres
      have hrel : Rel active (k.setSpace space s') (t.unhold space) := by
        refine (h.unhold space).setSpace hact ?_ (fun _ => rfl) fun _ _ => rfl
        exact .of_not_held ⟨free', hrep'⟩ hspace.head fun n => if_pos rfl
      exact ⟨_, hrel.setWorld rfl, herr kr hkr⟩
    | ok loc =>
      obtain ⟨rfl, free', hrep'⟩ := hres
      have hrow : ∀ n, (t.unhold space).row space n = { t.row space n with held := false } := fun n => if_pos rfl
      have hright : Cell.right ∘ (t.unhold space).row space = Cell.right ∘ t.row space := by
        funext n
        simp [hrow]
      have hhashed : Cell.hashed ∘ (t.unhold space).row space = Cell.hashed ∘ t.row space := by
        funext n
        simp [hrow]
      rw [← hright, ← hhashed] at hrep'
      have hrel : Rel active ((k.setSpace space s').hold space name (s'.loc name))
          ((t.unhold space).enter (space, name)) := by
        refine (h.unhold space).enter hact hrep' hname fun n hn => ?_
        have hrown := hrow n
        unfold Cells.row at hrown
        rw [hrown] at hn
        contradiction
      exact ⟨_, hrel.setWorld rfl, hok hact⟩

theorem hashLookup_sound {Q : Option Nat → Cells → Prop} (hc : cellHandler active (.hashLookup space obj) Q t)
    : Prog.Safe (machine (.hashLookup space obj) k) (After active Q) := by
  obtain ⟨hact, hobj, ha, hnone, hsome⟩ := hc
  have hspace := h.space space hact
  obtain ⟨free, hrep⟩ := hspace.rep
  obtain ⟨found, buckets, hlook, hrep', hfound, -⟩ := hrep.hashLookup_spec hobj
  generalize hs' : (k.spaces space).setHash (k.spaces space).isIndex buckets (k.spaces space).isTreeHash = s' at *
  have hloc : ∀ n, s'.loc n = (k.spaces space).loc n := by
    intro n
    rw [← hs', loc_setHash]
  have hspace' : SpaceRel s' (k.held space) (t.row space) := by
    refine ⟨⟨free, hrep'⟩, hspace.head, fun n hn => ?_⟩
    rw [hloc]
    exact hspace.held n hn
  show Prog.Safe ((orUndefined (ipcHashLookup (k.spaces space) obj)).map _) _
  rw [hlook]
  cases found with
  | none => exact ⟨t, h.setSpace hact hspace' (fun _ => rfl) fun _ _ => rfl, hnone⟩
  | some found =>
    obtain ⟨n, loc⟩ := found
    obtain ⟨rfl, hin, r, hr, hro⟩ := hfound n loc rfl
    have ht : r.type = .send := (AllOk.agree ha space n r hr).mp hin
    refine ⟨_, h.hold hact hspace' (hloc n).symm, hsome n r ?_ hr ht hro⟩
    exact (hrep.bound n (hr ▸ Option.some_ne_none r)).1.ne'

theorem entry_eq (space name : Nat) (hheld : (t (space, name)).held = true) (hr : (t (space, name)).right = some r)
    : ∃ e, (k.spaces space).entry (k.held space name) = some e ∧ e.right = r := by
  have hspace := h.space space (h.active_of_used (.inl hheld))
  obtain ⟨free, hrep⟩ := hspace.rep
  rw [hspace.held name hheld]
  exact hrep.entry_loc hr

theorem store_sound {Q : Unit → Cells → Prop} (hc : cellHandler active (.store space name r) Q t)
    : Prog.Safe (machine (.store space name r) k) (After active Q) := by
  obtain ⟨hheld, r0, hr, hobj, hq⟩ := hc
  have hact := h.active_of_used (.inl hheld)
  obtain ⟨e, he, -, hspace⟩ := (h.space space hact).store (r := r) hheld hr hobj
  show Prog.Safe ((orUndefined ((k.spaces space).entry (k.held space name))).map _) _
  rw [he]
  exact ⟨_, h.setCell { t (space, name) with right := some r } hact rfl hspace, hq⟩

theorem hashInsert_sound {Q : Unit → Cells → Prop} (hc : cellHandler active (.hashInsert space obj name) Q t)
    : Prog.Safe (machine (.hashInsert space obj name) k) (After active Q) := by
  obtain ⟨⟨hheld, hnew, hobj, r, hr, rfl⟩, hq⟩ := hc
  have hact := h.active_of_used (.inl hheld)
  have hspace := h.space space hact
  obtain ⟨free, hrep⟩ := hspace.rep
  obtain ⟨isIndex, buckets, count, hins, hrep'⟩ := hrep.hashInsert (n := name) hr hobj hnew
  show Prog.Safe ((orUndefined (ipcHashInsert (k.spaces space) r.object name (k.held space name))).map _) _
  rw [hspace.held name hheld, hins]
  refine ⟨_, h.setCell { t (space, name) with hashed := true } hact rfl ?_, hq⟩
  exact hspace.setHash hheld true ⟨free, hrep'⟩

theorem hashDelete_sound {Q : Unit → Cells → Prop} (hc : cellHandler active (.hashDelete space obj name) Q t)
    : Prog.Safe (machine (.hashDelete space obj name) k) (After active Q) := by
  obtain ⟨⟨hheld, hin, r, hr, rfl⟩, hq⟩ := hc
  have hact := h.active_of_used (.inl hheld)
  have hspace := h.space space hact
  obtain ⟨free, hrep⟩ := hspace.rep
  obtain ⟨isIndex, buckets, count, hdel, hrep'⟩ := hrep.hashDelete (n := name) hr hin
  show Prog.Safe ((orUndefined (ipcHashDelete (k.spaces space) r.object name (k.held space name))).map _) _
  rw [hspace.held name hheld, hdel]
  refine ⟨_, h.setCell { t (space, name) with hashed := false } hact rfl ?_, hq⟩
  exact hspace.setHash hheld false ⟨free, hrep'⟩

theorem Rel.dealloc (hact : active space = true) {s : Space} {free : List Nat}
    (hrep : Rep s (update (Cell.right ∘ t.row space) name none) (Cell.hashed ∘ t.row space) free)
    (hlocs : KeepsLocs (machPortIndex name) (k.spaces space) s)
    : Rel active (k.setSpace space s) (t.dealloc space name) := by
  have hspace := h.space space hact
  have hright : Cell.right ∘ (t.dealloc space name).row space = update (Cell.right ∘ t.row space) name none := by
    funext n
    unfold Cells.dealloc Cells.row
    by_cases hn : n = name
    . simp [hn]
    . by_cases hindex : machPortIndex n = machPortIndex name <;> simp [hn, hindex]
  have hhashed : Cell.hashed ∘ (t.dealloc space name).row space = Cell.hashed ∘ t.row space := by
    funext n
    unfold Cells.dealloc Cells.row
    by_cases hn : n = name
    . simp [hn]
    . by_cases hindex : machPortIndex n = machPortIndex name <;> simp [hn, hindex]
  refine h.setSpace hact ⟨⟨free, ?_⟩, ?_, fun n hn => ?_⟩ (fun n => ?_) fun key hkey => ?_
  . rw [hright, hhashed]
    exact hrep
  . show (Cell.right ∘ (t.dealloc space name).row space) headName = none
    rw [hright]
    by_cases hname : headName = name
    . rw [hname, update_self]
    . rw [update_of_ne hname]
      exact hspace.head
  . unfold Cells.dealloc Cells.row at hn
    by_cases hindex : machPortIndex n = machPortIndex name
    . by_cases hname : n = name <;> simp [hname, hindex] at hn
    . have hname : n ≠ name := fun heq => hindex (congrArg machPortIndex heq)
      simp only [Prod.mk.injEq, hname, hindex, and_false, if_false] at hn
      rw [hlocs n hindex]
      exact hspace.held n hn
  . unfold Cells.dealloc
    split
    . rfl
    . split <;> rfl
  . unfold Cells.dealloc
    rw [if_neg fun heq => hkey (congrArg Prod.fst heq), if_neg fun heq => hkey heq.1]

theorem dealloc_sound {Q : Unit → Cells → Prop} (hc : cellHandler active (.dealloc space name) Q t)
    : Prog.Safe (machine (.dealloc space name) k) (After active Q) := by
  obtain ⟨hheld, ⟨r, hr, hobj, hreq⟩, hfine, hq⟩ := hc
  have hact := h.active_of_used (.inl hheld)
  have hspace := h.space space hact
  obtain ⟨free, hrep⟩ := hspace.rep
  have hagree : ∀ n r', n ≠ name → (t (space, n)).right = some r' →
      ((t (space, n)).hashed = true ↔ r'.type = .send) := by
    intro n r' hn hr'
    obtain hok | ⟨⟨r'', hr'', ht⟩, hno, -⟩ := hfine (space, n) fun heq => hn (congrArg Prod.snd heq)
    . unfold CellOk at hok
      rw [hr'] at hok
      exact hok.2.1
    . rw [hr'] at hr''
      cases hr''
      simp [hno, ht]
  obtain ⟨s', free', hdealloc, hrep', hlocs⟩ := ipcEntryDealloc_spec hrep hr hobj hreq hagree
  show Prog.Safe ((orUndefined (ipcEntryDealloc (k.spaces space) name (k.held space name))).map _) _
  rw [hspace.held name hheld, hdealloc]
  exact ⟨_, h.dealloc hact hrep' hlocs, hq⟩

end Spaces

section Requests

def onWorld {α : Type} (k : Kernel) (x : Except Stop (α × World)) : Except Stop (α × Kernel) :=
  x.map fun (r, w) => (r, { k with world := w })

variable {m : Marequests} {key : Nat × Nat} (h : Rel active k t)
include h

theorem Rel.marequests (hwf : m.WF) (hreq : ∀ key : Nat × Nat, active key.1 = true →
      ((t key).request = true ↔ m.Has key.1 key.2))
    : Rel active { k with world := { k.world with marequests := m } } t :=
  ⟨h.isActive, h.space, hwf, hreq, h.dead⟩

theorem Rel.mapRequest {f : Nat × Nat → Bool} (hwf : m.WF)
    (hreq : ∀ key, active key.1 = true → (f key = true ↔ m.Has key.1 key.2))
    (hdead : ∀ key, active key.1 = false → f key = false)
    : Rel active { k with world := { k.world with marequests := m } } fun key => { t key with request := f key } := by
  refine ⟨h.isActive, fun space hact => ?_, hwf, hreq, fun key hkey => ?_⟩
  . have hspace := h.space space hact
    exact ⟨hspace.rep, hspace.head, hspace.held⟩
  . rw [h.dead key hkey, hdead key hkey]
    rfl

theorem Rel.setRequest {b : Bool} (key : Nat × Nat) (hact : active key.1 = true) (hwf : m.WF)
    (hself : b = true ↔ m.Has key.1 key.2)
    (hothers : ∀ key' : Nat × Nat, key' ≠ key → (m.Has key'.1 key'.2 ↔ k.world.marequests.Has key'.1 key'.2))
    : Rel active { k with world := { k.world with marequests := m } }
        (update t key { t key with request := b }) := by
  have heq : update t key { t key with request := b } =
      fun key' => { t key' with request := if key' = key then b else (t key').request } := by
    funext key'
    by_cases hkey : key' = key
    . rw [hkey, update_self, if_pos rfl]
    . rw [update_of_ne hkey, if_neg hkey]
  rw [heq]
  refine h.mapRequest hwf (fun key' hkey' => ?_) fun key' hkey' => ?_
  . split
    . next hkey =>
      rw [hkey]
      exact hself
    . next hkey =>
      rw [hothers key' hkey]
      exact h.request key' hkey'
  . rw [if_neg, h.dead key' hkey']
    . rfl
    . rintro rfl
      rw [hact] at hkey'
      contradiction

theorem Rel.request_of_false (key : Nat × Nat) (hact : active key.1 = true)
    (hreq : (t key).request = false) : ¬ k.world.marequests.Has key.1 key.2 := by
  rw [← h.request key hact, hreq]
  exact Bool.noConfusion

variable {Q : Unit → Cells → Prop}

theorem marequestCreate_sound (hc : cellHandler active (.marequestCreate marequest space name soright) Q t)
    : Prog.Safe (k.onWorld (k.world.marequestCreate marequest space name soright)) (After active Q) := by
  obtain ⟨hunnamed, hnamed⟩ := hc
  unfold World.marequestCreate
  by_cases hi : k.world.marequests.imar marequest = none
  . by_cases hnull : name = machPortNull
    . have hno : ¬ k.world.marequests.Has space name := fun hhas => hhas.1 hnull
      obtain ⟨m, hm, hwf, hiff⟩ := Marequests.create_spec h.wf hi space soright hno
      rw [hm]
      refine ⟨t, h.marequests hwf fun key hkey => ?_, hunnamed hnull⟩
      rw [hiff, h.request key hkey]
      simp [hnull]
    . obtain ⟨hact, hreq, hq⟩ := hnamed hnull
      obtain ⟨m, hm, hwf, hiff⟩ := Marequests.create_spec h.wf hi space soright
        (h.request_of_false (space, name) hact hreq)
      rw [hm]
      refine ⟨_, h.setRequest (space, name) hact hwf ?_ fun key hne => ?_, hq⟩
      . simp [hiff, hnull]
      . rw [hiff]
        exact ⟨fun hhas => hhas.resolve_left fun heq => hne heq.2, .inr⟩
  . rw [Marequests.create_eq_none hi]
    exact trivial

theorem marequestCancel_sound (hc : cellHandler active (.marequestCancel space name) Q t)
    : Prog.Safe (k.onWorld (k.world.marequestCancel space name)) (After active Q) := by
  obtain ⟨hreq, hq⟩ := hc
  have hact := h.active_of_used (.inr hreq)
  obtain ⟨m, hm, hwf, hiff⟩ := Marequests.cancel_spec h.wf ((h.request _ hact).mp hreq)
  unfold World.marequestCancel
  rw [hm]
  refine ⟨_, h.setRequest (space, name) hact hwf ?_ fun key hne => ?_, hq⟩
  . simp [hiff]
  . rw [hiff]
    exact ⟨And.left, fun hhas => ⟨hhas, hne⟩⟩

theorem marequestRename_sound (hc : cellHandler active (.marequestRename space oname nname) Q t)
    : Prog.Safe (k.onWorld (k.world.marequestRename space oname nname)) (After active Q) := by
  obtain ⟨hne, hnull, hreq, hno, hq⟩ := hc
  have hact := h.active_of_used (.inr hreq)
  obtain ⟨m, hm, hwf, hiff⟩ := Marequests.rename_spec h.wf ((h.request _ hact).mp hreq) hnull
    (h.request_of_false (space, nname) hact hno)
  unfold World.marequestRename
  rw [hm]
  refine ⟨_, ?_, hq⟩
  have heq : update (update t (space, oname) { t (space, oname) with request := false })
        (space, nname) { t (space, nname) with request := true } =
      fun key => { t key with request := if key = (space, nname) then true
                                         else if key = (space, oname) then false else (t key).request } := by
    funext key
    by_cases hkn : key = (space, nname)
    . rw [hkn, update_self, if_pos rfl]
    . rw [update_of_ne hkn, if_neg hkn]
      by_cases hko : key = (space, oname)
      . rw [hko, update_self, if_pos rfl]
      . rw [update_of_ne hko, if_neg hko]
  rw [heq]
  refine h.mapRequest hwf (fun key hkey => ?_) fun key hkey => ?_
  . rw [hiff]
    split
    . next hkn => simp [hkn]
    . next hkn =>
      split
      . next hko => simp [hko, hne]
      . next hko =>
        rw [h.request key hkey]
        exact ⟨fun hhas => .inr ⟨hhas, hko⟩, fun hhas => (hhas.resolve_left hkn).1⟩
  . rw [if_neg fun hkn => by rw [hkn, hact] at hkey; contradiction,
      if_neg fun hko => by rw [hko, hact] at hkey; contradiction, h.dead key hkey]
    rfl

theorem marequestRemove_sound {Q : Imar → Cells → Prop} (hc : cellHandler active (.marequestRemove marequest) Q t)
    : Prog.Safe (k.onWorld (k.world.marequestRemove marequest)) (After active Q) := by
  unfold World.marequestRemove
  cases hi : k.world.marequests.imar marequest with
  | none => exact trivial
  | some r =>
    obtain ⟨m, hm, hwf, hiff⟩ := Marequests.remove_spec h.wf hi
    obtain ⟨hgone, hnamed⟩ := hc r
    rw [hm]
    by_cases hlive : r.imarName ≠ machPortNull ∧ active r.imarSpace = true
    . have hhas : k.world.marequests.Has r.imarSpace r.imarName := ⟨hlive.1, marequest, r, hi, rfl, rfl⟩
      refine ⟨_, h.setRequest (r.imarSpace, r.imarName) hlive.2 hwf ?_ fun key hne => ?_,
        hnamed hlive.1 hlive.2 ((h.request _ hlive.2).mpr hhas)⟩
      . simp [hiff]
      . rw [hiff]
        exact ⟨And.left, fun hhas => ⟨hhas, hne⟩⟩
    . refine ⟨t, h.marequests hwf fun key hkey => ?_, hgone ?_⟩
      . rw [hiff, h.request key hkey]
        refine ⟨fun hhas => ⟨hhas, fun heq => hlive ⟨?_, ?_⟩⟩, And.left⟩
        . rw [← (Prod.mk.inj heq).2]
          exact hhas.1
        . rw [← (Prod.mk.inj heq).1]
          exact hkey
      . by_cases hnull : r.imarName = machPortNull
        . exact .inl hnull
        . exact .inr (Bool.eq_false_iff.mpr fun hact => hlive ⟨hnull, hact⟩)

end Requests

theorem foldl_die_marequests (ports : List Nat) (w : World)
    : (ports.foldl (fun w port => if (w.ports port).ipActive then w.die port else w) w).marequests =
        w.marequests := by
  induction ports generalizing w with
  | nil => rfl
  | cons port ports ih =>
    rw [List.foldl_cons, ih]
    split <;> rfl

theorem yield_marequests (w : World) : w.yield.marequests = w.marequests := by
  unfold World.yield
  split
  . rfl
  . rw [foldl_die_marequests]

theorem machine_sound (active : Nat → Bool) : Prog.Sound (Rel active) machine (cellHandler active) := by
  intro cmd k t Q h hc
  cases cmd with
  | isActive space =>
    refine ⟨t, h, ?_⟩
    rw [h.isActive]
    exact hc
  | lookup => exact lookup_sound h hc
  | entryGet => exact entryGet_sound h hc
  | allocName => exact allocName_sound h hc
  | growTable => exact growTable_sound h hc
  | hashLookup => exact hashLookup_sound h hc
  | entry space name =>
    obtain ⟨hheld, r, hr, hq⟩ := hc
    obtain ⟨e, he, rfl⟩ := entry_eq h _ _ hheld hr
    show Prog.Safe ((orUndefined ((k.spaces space).entry (k.held space name))).map _) _
    rw [he]
    exact ⟨t, h, hq⟩
  | store => exact store_sound h hc
  | hashInsert => exact hashInsert_sound h hc
  | hashDelete => exact hashDelete_sound h hc
  | dealloc => exact dealloc_sound h hc
  | isNotify | portCount | port | lockTry => exact ⟨t, h.setWorld rfl, hc _⟩
  | setPort | die | tell => exact ⟨t, h.setWorld rfl, hc⟩
  | yield => exact ⟨t, h.setWorld (yield_marequests k.world), hc⟩
  | assert b =>
    cases b with
    | false => exact trivial
    | true => exact ⟨t, h.setWorld rfl, hc rfl⟩
  | require b =>
    obtain ⟨rfl, hq⟩ := hc
    exact ⟨t, h.setWorld rfl, hq⟩
  | marequestCreate => exact marequestCreate_sound h hc
  | marequestCancel => exact marequestCancel_sound h hc
  | marequestRename => exact marequestRename_sound h hc
  | marequestRemove => exact marequestRemove_sound h hc

end Kernel

end Ipc
