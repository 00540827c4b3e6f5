import UtahMach.Ipc.Entry.Basic

/-!
This module contains message-accepted requests.
-/

namespace Ipc

open Function (update update_of_ne update_self)

structure Imar where
  imarSpace : Nat
  imarName : Nat
  imarSoright : Nat
deriving DecidableEq, Repr

structure Marequests where
  ipcMarequestMask : Nat
  ipcMarequestTable : Nat → List Nat
  imar : Nat → Option Imar

namespace Marequests

def imarHash (m : Marequests) (space name : Nat) : Nat :=
  ((space >>> 4) + machPortIndex name + name % 256) &&& m.ipcMarequestMask

def isFor (m : Marequests) (space name marequest : Nat) : Bool :=
  match m.imar marequest with
  | some r => r.imarSpace = space ∧ r.imarName = name
  | none => false

def search (m : Marequests) (space name : Nat) : Option Nat :=
  (m.ipcMarequestTable (m.imarHash space name)).find? (m.isFor space name)

def link (m : Marequests) (bucket marequest : Nat) : Marequests :=
  { m with
    ipcMarequestTable := update m.ipcMarequestTable bucket (marequest :: m.ipcMarequestTable bucket) }

def unlink (m : Marequests) (bucket marequest : Nat) : Marequests :=
  { m with
    ipcMarequestTable := update m.ipcMarequestTable bucket ((m.ipcMarequestTable bucket).erase marequest) }

def store (m : Marequests) (marequest : Nat) (r : Option Imar) : Marequests :=
  { m with imar := update m.imar marequest r }

def create (m : Marequests) (marequest space name soright : Nat) : Option Marequests := do
  assert (m.imar marequest = none)
  let m := m.store marequest (some ⟨space, name, soright⟩)
  return if name = machPortNull then m else m.link (m.imarHash space name) marequest

def cancel (m : Marequests) (space name : Nat) : Option Marequests := do
  let marequest ← m.search space name
  let r ← m.imar marequest
  let m := m.unlink (m.imarHash space name) marequest
  return m.store marequest (some { r with imarName := machPortNull })

def rename (m : Marequests) (space old new : Nat) : Option Marequests := do
  let marequest ← m.search space old
  let r ← m.imar marequest
  let m := m.unlink (m.imarHash space old) marequest
  let m := m.store marequest (some { r with imarName := new })
  return m.link (m.imarHash space new) marequest

def remove (m : Marequests) (marequest : Nat) : Option (Imar × Marequests) := do
  let r ← m.imar marequest
  if r.imarName = machPortNull then
    return (r, m.store marequest none)
  else
    let this ← m.search r.imarSpace r.imarName
    assert (this = marequest)
    let m := m.unlink (m.imarHash r.imarSpace r.imarName) marequest
    return (r, m.store marequest none)

def Has (m : Marequests) (space name : Nat) : Prop :=
  name ≠ machPortNull ∧
    ∃ marequest r, m.imar marequest = some r ∧ r.imarSpace = space ∧ r.imarName = name

structure WF (m : Marequests) : Prop where
  linked : ∀ b i, i ∈ m.ipcMarequestTable b →
    ∃ r, m.imar i = some r ∧ r.imarName ≠ machPortNull ∧ m.imarHash r.imarSpace r.imarName = b
  nodup : ∀ b, (m.ipcMarequestTable b).Nodup
  listed : ∀ i r, m.imar i = some r → r.imarName ≠ machPortNull →
    i ∈ m.ipcMarequestTable (m.imarHash r.imarSpace r.imarName)
  unique : ∀ i j r r', m.imar i = some r → m.imar j = some r' → r.imarName ≠ machPortNull →
    r.imarSpace = r'.imarSpace → r.imarName = r'.imarName → i = j

variable {m : Marequests} {i : Nat} {r : Imar} {space name : Nat}

theorem isFor_iff : m.isFor space name i = true ↔
        ∃ r, m.imar i = some r ∧ r.imarSpace = space ∧ r.imarName = name := by
  unfold isFor
  cases hi : m.imar i with
  | none => simp
  | some r => simp

theorem WF.search_eq (h : WF m) (hi : m.imar i = some r) (hn : r.imarName ≠ machPortNull)
    : m.search r.imarSpace r.imarName = some i := by
  have hmem := h.listed i r hi hn
  have hfor : m.isFor r.imarSpace r.imarName i = true := isFor_iff.mpr ⟨r, hi, rfl, rfl⟩
  cases hs : m.search r.imarSpace r.imarName with
  | none =>
    have hnone := List.find?_eq_none.mp hs i hmem
    exact absurd hfor hnone
  | some j =>
    obtain ⟨r', hj, hspace, hname⟩ := isFor_iff.mp (List.find?_some hs)
    rw [h.unique i j r r' hi hj hn hspace.symm hname.symm]

def records (m : Marequests) (space name : Nat) : List Nat :=
  (m.ipcMarequestTable (m.imarHash space name)).filter (m.isFor space name)

theorem WF.records_of_has (h : WF m) (hhas : m.Has space name) : ∃ i, m.records space name = [i] := by
  obtain ⟨hn, i, r, hi, rfl, rfl⟩ := hhas
  have hmem : i ∈ m.records r.imarSpace r.imarName :=
    List.mem_filter.mpr ⟨h.listed i r hi hn, isFor_iff.mpr ⟨r, hi, rfl, rfl⟩⟩
  have hall : ∀ j ∈ m.records r.imarSpace r.imarName, j = i := by
    intro j hj
    obtain ⟨r', hj, hspace, hname⟩ := isFor_iff.mp (List.mem_filter.mp hj).2
    exact (h.unique i j r r' hi hj hn hspace.symm hname.symm).symm
  refine ⟨i, ?_⟩
  have hnodup : (m.records r.imarSpace r.imarName).Nodup := (h.nodup _).filter _
  match hlist : m.records r.imarSpace r.imarName with
  | [] =>
    rw [hlist] at hmem
    exact absurd hmem List.not_mem_nil
  | [j] =>
    rw [hlist] at hall
    rw [hall j (List.mem_singleton_self j)]
  | j :: l :: rest =>
    rw [hlist] at hall hnodup
    have hj := hall j List.mem_cons_self
    have hl := hall l (List.mem_cons_of_mem _ List.mem_cons_self)
    rw [hj, hl] at hnodup
    exact absurd List.mem_cons_self (List.nodup_cons.mp hnodup).1

theorem WF.records_of_not_has (h : WF m) (hno : ¬ m.Has space name) : m.records space name = [] := by
  refine List.filter_eq_nil_iff.mpr fun i hi hfor => hno ?_
  obtain ⟨r, hr, hspace, hname⟩ := isFor_iff.mp hfor
  obtain ⟨r', hr', hn, -⟩ := h.linked _ i hi
  rw [hr] at hr'
  injection hr' with hr'
  subst hr'
  exact ⟨hname ▸ hn, i, r, hr, hspace, hname⟩

section

variable (h : WF m) {r' : Option Imar}
include h

-- one record changes, and with it its place in the table
theorem WF.store {table : Nat → List Nat} (hnodup : ∀ b, (table b).Nodup)
    (hself : ∀ b, i ∈ table b ↔ ∃ r ∈ r', r.imarName ≠ machPortNull ∧ m.imarHash r.imarSpace r.imarName = b)
    (hothers : ∀ b, ∀ j ≠ i, j ∈ table b ↔ j ∈ m.ipcMarequestTable b)
    (hnew : ∀ r ∈ r', r.imarName ≠ machPortNull → ∀ j r1, m.imar j = some r1 → r1.imarSpace = r.imarSpace →
      r1.imarName = r.imarName → j = i) : WF { m.store i r' with ipcMarequestTable := table } := by
  have hsame : update m.imar i r' i = r' := update_self ..
  refine ⟨?_, hnodup, ?_, ?_⟩
  . intro b j hj
    by_cases hji : j = i
    . subst hji
      obtain ⟨r1, hr1, hne, hb⟩ := (hself b).mp hj
      exact ⟨r1, hsame.trans hr1, hne, hb⟩
    . obtain ⟨r1, hr1, hne, hb⟩ := h.linked b j ((hothers b j hji).mp hj)
      exact ⟨r1, (update_of_ne hji _ _).trans hr1, hne, hb⟩
  . intro j r1 hj hne
    by_cases hji : j = i
    . subst hji
      exact (hself _).mpr ⟨r1, hsame.symm.trans hj, hne, rfl⟩
    . exact (hothers _ j hji).mpr (h.listed j r1 ((update_of_ne hji _ _).symm.trans hj) hne)
  . intro j k r1 r2 hj hk hne hspace hname
    by_cases hji : j = i <;> by_cases hki : k = i
    . rw [hji, hki]
    . subst hji
      exact (hnew r1 (hsame.symm.trans hj) hne k r2 ((update_of_ne hki _ _).symm.trans hk) hspace.symm hname.symm).symm
    . subst hki
      exact hnew r2 (hsame.symm.trans hk) (hname ▸ hne) j r1 ((update_of_ne hji _ _).symm.trans hj) hspace hname
    . exact h.unique j k r1 r2 ((update_of_ne hji _ _).symm.trans hj) ((update_of_ne hki _ _).symm.trans hk) hne
        hspace hname

theorem WF.forget (hi : m.imar i = some r) (r' : Option Imar) (hr' : ∀ r1 ∈ r', r1.imarName = machPortNull)
    : WF ((m.unlink (m.imarHash r.imarSpace r.imarName) i).store i r') ∧
      ∀ space name, ((m.unlink (m.imarHash r.imarSpace r.imarName) i).store i r').Has space name ↔
        m.Has space name ∧ (space, name) ≠ (r.imarSpace, r.imarName) := by
  refine ⟨h.store (fun b => ?_) (fun b => iff_of_false ?_ ?_) (fun b j hji => ?_) fun r1 hr1 hne => ?_, ?_⟩
  . show (update m.ipcMarequestTable _ _ b).Nodup
    rw [Function.update_apply]
    split
    . exact (h.nodup _).erase i
    . exact h.nodup b
  . intro hmem
    change i ∈ update m.ipcMarequestTable _ _ b at hmem
    by_cases heq : b = m.imarHash r.imarSpace r.imarName
    . subst heq
      rw [update_self] at hmem
      exact (h.nodup _).not_mem_erase hmem
    . rw [update_of_ne heq] at hmem
      obtain ⟨r1, hr1, -, hb⟩ := h.linked b i hmem
      rw [hi] at hr1
      cases hr1
      exact heq hb.symm
  . rintro ⟨r1, hr1, hne, -⟩
    exact hne (hr' r1 hr1)
  . show j ∈ update m.ipcMarequestTable _ _ b ↔ _
    rw [Function.update_apply]
    split
    . next hb => rw [List.mem_erase_of_ne hji, hb]
    . rfl
  . exact absurd (hr' r1 hr1) hne
  . intro space name
    constructor
    . rintro ⟨hne, j, r1, hj, rfl, rfl⟩
      have hji : j ≠ i := by
        rintro rfl
        change update _ _ _ j = _ at hj
        rw [update_self] at hj
        exact hne (hr' r1 hj)
      have hj : m.imar j = some r1 := (update_of_ne hji _ _).symm.trans hj
      refine ⟨⟨hne, j, r1, hj, rfl, rfl⟩, fun heq => hji ?_⟩
      cases Prod.mk.inj heq with
      | intro hspace hname => exact h.unique j i r1 r hj hi hne hspace hname
    . rintro ⟨⟨hne, j, r1, hj, rfl, rfl⟩, hkey⟩
      have hji : j ≠ i := by
        rintro rfl
        rw [hi] at hj
        cases hj
        exact hkey rfl
      exact ⟨hne, j, r1, (update_of_ne hji _ _).trans hj, rfl, rfl⟩

variable (hi : ∀ r ∈ m.imar i, r.imarName = machPortNull)
include hi

theorem WF.not_listed (b : Nat) : i ∉ m.ipcMarequestTable b := by
  intro hmem
  obtain ⟨r1, hr1, hne, -⟩ := h.linked b i hmem
  exact hne (hi r1 hr1)

theorem WF.enter (hn : r.imarName ≠ machPortNull) (hnew : ¬ m.Has r.imarSpace r.imarName)
    : WF ((m.store i (some r)).link (m.imarHash r.imarSpace r.imarName) i) ∧ ∀ space name,
        ((m.store i (some r)).link (m.imarHash r.imarSpace r.imarName) i).Has space name ↔
          (space, name) = (r.imarSpace, r.imarName) ∨ m.Has space name := by
  have hnot := h.not_listed hi
  refine ⟨h.store (fun b => ?_) (fun b => ?_) (fun b j hji => ?_) fun r1 hr1 _ j r2 hj hspace hname => ?_, ?_⟩
  . rw [Function.update_apply]
    split
    . exact List.nodup_cons.mpr ⟨hnot _, h.nodup _⟩
    . exact h.nodup b
  . rw [Function.update_apply]
    split
    . next hb => exact iff_of_true List.mem_cons_self ⟨r, rfl, hn, hb.symm⟩
    . next hb =>
      refine iff_of_false (hnot b) ?_
      rintro ⟨r1, hr1, -, hb'⟩
      cases hr1
      exact hb hb'.symm
  . rw [Function.update_apply]
    split
    . next hb =>
      rw [List.mem_cons, or_iff_right hji, hb]
      rfl
    . rfl
  . cases hr1
    exact absurd ⟨hn, j, r2, hj, hspace, hname⟩ hnew
  . intro space name
    constructor
    . rintro ⟨hne, j, r1, hj, rfl, rfl⟩
      by_cases hji : j = i
      . subst hji
        change update _ _ _ j = _ at hj
        rw [update_self] at hj
        cases hj
        exact .inl rfl
      . exact .inr ⟨hne, j, r1, (update_of_ne hji _ _).symm.trans hj, rfl, rfl⟩
    . rintro (heq | ⟨hne, j, r1, hj, rfl, rfl⟩)
      . cases heq
        exact ⟨hn, i, r, update_self _ _ _, rfl, rfl⟩
      . have hji : j ≠ i := by
          rintro rfl
          exact hne (hi r1 hj)
        exact ⟨hne, j, r1, (update_of_ne hji _ _).trans hj, rfl, rfl⟩

theorem WF.storeUnnamed (r' : Option Imar) (hr' : ∀ r1 ∈ r', r1.imarName = machPortNull)
    : WF (m.store i r') ∧ ∀ space name, (m.store i r').Has space name ↔ m.Has space name := by
  refine ⟨h.store h.nodup (fun b => iff_of_false (h.not_listed hi b) ?_) (fun _ _ _ => Iff.rfl)
    fun r1 hr1 hne => absurd (hr' r1 hr1) hne, fun space name => and_congr_right fun hne => ?_⟩
  . rintro ⟨r1, hr1, hne, -⟩
    exact hne (hr' r1 hr1)
  . refine exists_congr fun j => exists_congr fun r1 => and_congr_left ?_
    rintro ⟨-, rfl⟩
    show update m.imar i r' j = some r1 ↔ _
    rw [Function.update_apply]
    split
    . next hji =>
      rw [hji]
      exact iff_of_false (fun hj => hne (hr' r1 hj)) fun hj => hne (hi r1 hj)
    . rfl

end

theorem Has.exists_record (h : m.Has space name)
    : ∃ i r, m.imar i = some r ∧ r.imarName ≠ machPortNull ∧ r.imarSpace = space ∧ r.imarName = name := by
  obtain ⟨hne, i, r, hi, rfl, rfl⟩ := h
  exact ⟨i, r, hi, hne, rfl, rfl⟩

theorem create_spec (h : WF m) (hi : m.imar i = none) (space soright : Nat) (hnew : ¬ m.Has space name)
    : ∃ m', m.create i space name soright = some m' ∧ WF m' ∧ ∀ space' name', m'.Has space' name' ↔
          (name ≠ machPortNull ∧ (space', name') = (space, name)) ∨ m.Has space' name' := by
  unfold create
  by_cases hn : name = machPortNull
  . obtain ⟨hwf, hhas⟩ := h.storeUnnamed (i := i) (by simp [hi]) (some ⟨space, name, soright⟩) (by simp [hn])
    refine ⟨m.store i (some ⟨space, name, soright⟩), by simp [hi, hn], hwf, fun space' name' => ?_⟩
    rw [hhas]
    simp [hn]
  . have hnone : ∀ r ∈ m.imar i, r.imarName = machPortNull := by simp [hi]
    obtain ⟨hwf, hhas⟩ := h.enter (r := ⟨space, name, soright⟩) hnone hn hnew
    refine ⟨_, by simp [hi, hn]; rfl, hwf, fun space' name' => ?_⟩
    rw [hhas]
    simp [hn]

theorem create_eq_none (hi : m.imar i ≠ none) : m.create i space name soright = none := by
  unfold create
  simp [assert, hi]

theorem cancel_spec (h : WF m) (hhas : m.Has space name) : ∃ m', m.cancel space name = some m' ∧ WF m' ∧
        ∀ space' name', m'.Has space' name' ↔ m.Has space' name' ∧ (space', name') ≠ (space, name) := by
  obtain ⟨i, r, hi, hn, rfl, rfl⟩ := hhas.exists_record
  obtain ⟨hwf, hhas'⟩ := h.forget hi (some { r with imarName := machPortNull }) (by simp)
  refine ⟨_, ?_, hwf, hhas'⟩
  simp [cancel, h.search_eq hi hn, hi]

theorem rename_spec (h : WF m) (hhas : m.Has space old)
    (hnew : new ≠ machPortNull) (hno : ¬ m.Has space new) : ∃ m', m.rename space old new = some m' ∧ WF m' ∧
        ∀ space' name', m'.Has space' name' ↔ (space', name') = (space, new) ∨
            (m.Has space' name' ∧ (space', name') ≠ (space, old)) := by
  obtain ⟨i, r, hi, hn, rfl, rfl⟩ := hhas.exists_record
  obtain ⟨hwf, hhas'⟩ := h.forget hi none (by simp)
  obtain ⟨hwf', hhas''⟩ := hwf.enter (i := i) (r := { r with imarName := new })
    (by simp [store]) hnew fun hc => hno ((hhas' _ _).mp hc).1
  refine ⟨_, ?_, hwf', fun space' name' => ?_⟩
  . simp [rename, h.search_eq hi hn, hi, store, link, unlink, imarHash]
  . rw [hhas'', hhas']

theorem remove_spec (h : WF m) (hi : m.imar i = some r) : ∃ m', m.remove i = some (r, m') ∧ WF m' ∧
        ∀ space' name', m'.Has space' name' ↔ m.Has space' name' ∧ (space', name') ≠ (r.imarSpace, r.imarName) := by
  unfold remove
  by_cases hn : r.imarName = machPortNull
  . obtain ⟨hwf, hhas⟩ := h.storeUnnamed (i := i) (by simp [hi, hn]) none (by simp)
    refine ⟨m.store i none, by simp [hi, hn], hwf, fun space' name' => ?_⟩
    rw [hhas]
    refine ⟨fun hc => ⟨hc, fun heq => ?_⟩, And.left⟩
    cases heq
    exact hc.1 hn
  . obtain ⟨hwf, hhas⟩ := h.forget hi none (by simp)
    exact ⟨_, by simp [hi, hn, h.search_eq hi hn], hwf, hhas⟩

end Marequests

end Ipc
