import Mathlib

/-!
This module contains programs over an interface of commands, the machines that run them, and weakest preconditions.
-/

structure Iface where
  Cmd : Type
  Res : Cmd → Type

inductive Prog (I : Iface) (α : Type) where
  | ret (a : α)
  | step (c : I.Cmd) (k : I.Res c → Prog I α)

inductive Stop where
  | panic
  | undefined
deriving DecidableEq, Repr

namespace Stop

def check (p : Prop) [Decidable p] : Except Stop Unit := if p then .ok () else .error .panic

theorem check_bind {p : Prop} [Decidable p] (h : p) (f : Unit → Except Stop α) : (check p >>= f) = f () := by
  rw [check, if_pos h]
  rfl

theorem ok_bind (a : α) (f : α → Except Stop β) : (.ok a >>= f) = f a := rfl

theorem bind_ok {f : α → Except Stop β} {b : β} : (x >>= f) = .ok b ↔ ∃ a, x = .ok a ∧ f a = .ok b := by
  cases x with
  | error e => exact ⟨nofun, nofun⟩
  | ok a => exact ⟨fun h => ⟨a, rfl, h⟩, fun ⟨_, ha, h⟩ => by cases ha; exact h⟩

theorem check_bind_ok {p : Prop} [Decidable p] {f : Unit → Except Stop α}
    : (check p >>= f) = .ok a ↔ p ∧ f () = .ok a := by
  by_cases h : p
  . rw [check_bind h]
    simp [h]
  . rw [check, if_neg h]
    simp only [h, false_and, iff_false]
    nofun

end Stop

-- a run on a fixed input is checked by evaluating it
instance decidableExistsOk {ε α : Type} {P : α → Prop} [DecidablePred P]
    : (x : Except ε α) → Decidable (∃ a, x = .ok a ∧ P a)
  | .ok a => decidable_of_iff (P a) (by simp)
  | .error _ => isFalse nofun

instance decidableEqError {ε α : Type} [DecidableEq ε] (e : ε) : (x : Except ε α) → Decidable (x = .error e)
  | .ok _ => isFalse nofun
  | .error e' => decidable_of_iff (e' = e) (by simp)

namespace Prog

variable {I : Iface} {α β : Type}

def bind (p : Prog I α) (f : α → Prog I β) : Prog I β :=
  match p with
  | .ret a => f a
  | .step c k => .step c fun r => (k r).bind f

instance : Monad (Prog I) where
  pure := .ret
  bind := bind

def call (c : I.Cmd) : Prog I (I.Res c) := .step c .ret

abbrev Machine (I : Iface) (σ : Type) := (c : I.Cmd) → σ → Except Stop (I.Res c × σ)

section Exec

variable {σ : Type} (M : Machine I σ)

def exec : Prog I α → σ → Except Stop (α × σ)
  | .ret a, s => .ok (a, s)
  | .step c k, s =>
    match M c s with
    | .error e => .error e
    | .ok (r, s) => exec (k r) s

theorem exec_bind (p : Prog I α) (f : α → Prog I β) (s : σ) : exec M (p >>= f) s = match exec M p s with
        | .error e => .error e
        | .ok (a, s) => exec M (f a) s := by
  induction p generalizing s with
  | ret a => rfl
  | step c k ih =>
    show exec M (.step c fun r => (k r).bind f) s = _
    rw [exec, exec]
    cases M c s with
    | error e => rfl
    | ok r => exact ih r.1 r.2

def Safe (x : Except Stop (α × σ)) (Q : α → σ → Prop) : Prop :=
  match x with
  | .ok (a, s) => Q a s
  | .error .panic => True
  | .error .undefined => False

theorem Safe.mono (h : Safe x Q) (hle : ∀ a s, Q a s → Q' a s) : Safe x Q' := by
  cases x with
  | error e => cases e <;> exact h
  | ok r => exact hle r.1 r.2 h

variable {M}

theorem exec_call {c : I.Cmd} {s s' : σ} {r : I.Res c} : exec M (call c) s = .ok (r, s') ↔ M c s = .ok (r, s') := by
  unfold call exec
  cases M c s with
  | error e => exact Iff.rfl
  | ok r => exact Iff.rfl

theorem exec_bind_ok {p : Prog I α} {f : α → Prog I β} {s s' : σ}
    : exec M (p >>= f) s = .ok (b, s') ↔ ∃ a s1, exec M p s = .ok (a, s1) ∧ exec M (f a) s1 = .ok (b, s') := by
  rw [exec_bind]
  cases exec M p s with
  | error e => exact ⟨nofun, nofun⟩
  | ok r => exact ⟨fun h => ⟨r.1, r.2, rfl, h⟩, fun ⟨_, _, hr, h⟩ => by cases hr; exact h⟩

theorem Safe.bind {p : Prog I α} {f : α → Prog I β} {s : σ} (h : Safe (exec M p s) Q)
    (hf : ∀ a s', exec M p s = .ok (a, s') → Q a s' → Safe (exec M (f a) s') Q') : Safe (exec M (p >>= f) s) Q' := by
  rw [exec_bind]
  cases hp : exec M p s with
  | error e =>
    rw [hp] at h
    cases e <;> exact h
  | ok r =>
    rw [hp] at h
    exact hf r.1 r.2 hp h

def Leaves (P : α → Prop) : Prog I α → Prop
  | .ret a => P a
  | .step _ k => ∀ r, Leaves P (k r)

theorem Leaves.bind {P : β → Prop} {f : α → Prog I β} (p : Prog I α) (h : ∀ a, Leaves P (f a))
    : Leaves P (p >>= f) := by
  induction p with
  | ret a => exact h a
  | step c k ih => exact fun r => ih r

theorem Leaves.ite {P : α → Prop} {p q : Prog I α} {c : Prop} [Decidable c] (hp : Leaves P p) (hq : Leaves P q)
    : Leaves P (if c then p else q) := by
  split
  . exact hp
  . exact hq

theorem Leaves.exec {P : α → Prop} {p : Prog I α} {s s' : σ} (h : Leaves P p) (hexec : exec M p s = .ok (a, s'))
    : P a := by
  induction p generalizing s with
  | ret b =>
    cases hexec
    exact h
  | step c k ih =>
    unfold Prog.exec at hexec
    cases hM : M c s with
    | error e =>
      rw [hM] at hexec
      contradiction
    | ok r =>
      rw [hM] at hexec
      exact ih r.1 (h r.1) hexec

def Returns (M : Machine I σ) (p : Prog I α) (s : σ) (Q : α → σ → Prop) : Prop :=
  ∃ a s', exec M p s = .ok (a, s') ∧ Q a s'

theorem Returns.pure {s : σ} (h : Q a s) : Returns M (Pure.pure a) s Q := ⟨a, s, rfl, h⟩

theorem Returns.bind {p : Prog I α} {f : α → Prog I β} {s : σ} (h : Returns M p s Q)
    (hf : ∀ a s, Q a s → Returns M (f a) s Q')
    : Returns M (p >>= f) s Q' := by
  obtain ⟨a, s', hp, hq⟩ := h
  obtain ⟨b, s'', hfa, hq'⟩ := hf a s' hq
  refine ⟨b, s'', ?_, hq'⟩
  rw [exec_bind, hp]
  exact hfa

end Exec

section WeakestPrecondition

variable {τ : Type}

abbrev Handler (I : Iface) (τ : Type) := (c : I.Cmd) → (I.Res c → τ → Prop) → τ → Prop

variable (H : Handler I τ)

def wp : Prog I α → (α → τ → Prop) → τ → Prop
  | .ret a, Q, t => Q a t
  | .step c k, Q, t => H c (fun r t => wp (k r) Q t) t

@[simp]
theorem wp_bind (p : Prog I α) (f : α → Prog I β) (Q : β → τ → Prop) (t : τ)
    : wp H (p >>= f) Q t = wp H p (fun a t => wp H (f a) Q t) t := by
  induction p generalizing t with
  | ret a => rfl
  | step c k ih =>
    show H c (fun r t => wp H ((k r).bind f) Q t) t = H c (fun r t => wp H (k r) _ t) t
    congr 1
    funext r t
    exact ih r t

def Monotone : Prop := ∀ c Q Q' t, (∀ r t, Q r t → Q' r t) → H c Q t → H c Q' t

variable {H}

theorem wp_mono (hmono : Monotone H) {p : Prog I α} {t : τ}
    (hle : ∀ a t, Q a t → Q' a t) (h : wp H p Q t) : wp H p Q' t := by
  induction p generalizing t with
  | ret a => exact hle a t h
  | step c k ih => exact hmono c _ _ t (fun r t => ih r) h

end WeakestPrecondition

section Soundness

variable {σ τ : Type} {R : σ → τ → Prop} {M : Machine I σ} {H : Handler I τ}

def Sound (R : σ → τ → Prop) (M : Machine I σ) (H : Handler I τ) : Prop :=
  ∀ c s t Q, R s t → H c Q t → Safe (M c s) fun r s => ∃ t, R s t ∧ Q r t

theorem Sound.safe (hsound : Sound R M H) {p : Prog I α} {s : σ} {t : τ}
    (h : R s t) (hp : wp H p Q t) : Safe (exec M p s) fun a s => ∃ t, R s t ∧ Q a t := by
  induction p generalizing s t with
  | ret a => exact ⟨t, h, hp⟩
  | step c k ih =>
    have hc := hsound c s t _ h hp
    unfold exec
    cases hM : M c s with
    | error e =>
      rw [hM] at hc
      cases e <;> exact hc
    | ok r =>
      rw [hM] at hc
      obtain ⟨t', h', hk⟩ := hc
      exact ih r.1 h' hk

def SoundOk (R : σ → τ → Prop) (M : Machine I σ) (H : Handler I τ) : Prop :=
  ∀ c s t Q r s', R s t → H c Q t → M c s = .ok (r, s') → ∃ t', R s' t' ∧ Q r t'

theorem SoundOk.ok (hsound : SoundOk R M H) {p : Prog I α} {s s' : σ} {t : τ} (h : R s t)
    (hp : wp H p Q t) (hexec : exec M p s = .ok (a, s')) : ∃ t', R s' t' ∧ Q a t' := by
  induction p generalizing s t with
  | ret a =>
    cases hexec
    exact ⟨t, h, hp⟩
  | step c k ih =>
    unfold exec at hexec
    cases hM : M c s with
    | error e =>
      rw [hM] at hexec
      contradiction
    | ok r =>
      rw [hM] at hexec
      obtain ⟨t', h', hk⟩ := hsound c s t _ r.1 r.2 h hp hM
      exact ih r.1 h' hk hexec

end Soundness

end Prog
