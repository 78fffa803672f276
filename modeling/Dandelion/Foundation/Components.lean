import Dandelion.Foundation.Triples

/-! # Programs over two components

A program may work on two states, each with faults of its own, and it may end before
its last action. As long as it only asks the second component, which answers and stays
what it is, it is a program of the first one.
-/

namespace Dandelion.Foundation.Components

open Triples

set_option autoImplicit false

universe u

/-- Why a program stops before its last action. -/
inductive Halt (σ τ ε δ : Type u) where
  | first (fault : ε)
  | second (fault : δ)
  | ended (s : σ) (t : τ)

abbrev Joint (σ τ ε δ : Type u) := StateT (σ × τ) (Except (Halt σ τ ε δ))

variable {σ τ ε δ α β γ : Type u}

def onFirst (x : StateT σ (Except ε) α) : Joint σ τ ε δ α := fun p =>
  match x p.1 with
  | .ok r => .ok (r.1, r.2, p.2)
  | .error e => .error (.first e)

def onSecond (x : StateT τ (Except δ) α) : Joint σ τ ε δ α := fun p =>
  match x p.2 with
  | .ok r => .ok (r.1, p.1, r.2)
  | .error e => .error (.second e)

/-- The program ends with a last action on the second state. -/
def endWith (x : StateT τ (Except δ) β) : Joint σ τ ε δ α := fun p =>
  match x p.2 with
  | .ok r => .error (.ended p.1 r.2)
  | .error e => .error (.second e)

section Parts

variable {x : StateT σ (Except ε) α} {y : StateT τ (Except δ) α} {a : α} {s s' : σ} {t t' : τ}

theorem onFirst_ok (h : x s = .ok (a, s')) :
    (onFirst x : Joint σ τ ε δ α) (s, t) = .ok (a, s', t) := by
  rw [onFirst, h]

theorem onFirst_error {e : ε} (h : x s = .error e) :
    (onFirst x : Joint σ τ ε δ α) (s, t) = .error (.first e) := by
  rw [onFirst, h]

theorem onSecond_ok (h : y t = .ok (a, t')) :
    (onSecond y : Joint σ τ ε δ α) (s, t) = .ok (a, s, t') := by
  rw [onSecond, h]

theorem onSecond_error {e : δ} (h : y t = .error e) :
    (onSecond y : Joint σ τ ε δ α) (s, t) = .error (.second e) := by
  rw [onSecond, h]

theorem onFirst_bind (x : StateT σ (Except ε) α) (f : α → StateT σ (Except ε) β) :
    (onFirst (x >>= f) : Joint σ τ ε δ β) = onFirst x >>= fun a => onFirst (f a) := by
  funext p
  cases hx : x p.1 with
  | error e => rw [onFirst_error (bind_error hx), bind_error (onFirst_error hx)]
  | ok r =>
    obtain ⟨a, s'⟩ := r
    rw [bind_ok (onFirst_ok hx), onFirst, onFirst, bind_ok hx]

theorem endWith_bind (y : StateT τ (Except δ) γ) (g : α → Joint σ τ ε δ β) :
    (endWith y >>= g : Joint σ τ ε δ β) = endWith y := by
  funext p
  cases hy : y p.2 with
  | error e =>
    have hEnd : ∀ {α : Type u}, (endWith y : Joint σ τ ε δ α) p = .error (.second e) := by
      intro α
      rw [endWith, hy]
    rw [bind_error hEnd, hEnd]
  | ok r =>
    have hEnd : ∀ {α : Type u}, (endWith y : Joint σ τ ε δ α) p = .error (.ended p.1 r.2) := by
      intro α
      rw [endWith, hy]
    rw [bind_error hEnd, hEnd]

end Parts

section Mirroring

/-- As long as the second state is `t`, the program is one of the first component. -/
def Mirrors (t : τ) (x : Joint σ τ ε δ α) (z : StateT σ (Except ε) α) : Prop :=
  ∀ s, x (s, t) = onFirst z (s, t)

variable {t : τ} {x : Joint σ τ ε δ α} {z : StateT σ (Except ε) α} {f : α → Joint σ τ ε δ β}
  {g : α → StateT σ (Except ε) β}

theorem Mirrors.onFirst (z : StateT σ (Except ε) α) : Mirrors t (onFirst z : Joint σ τ ε δ α) z :=
  fun _ => rfl

theorem Mirrors.pure (a : α) : Mirrors t (pure a : Joint σ τ ε δ α) (pure a) := fun _ => rfl

theorem Mirrors.ite {c : Prop} [Decidable c] {x' : Joint σ τ ε δ α} {z' : StateT σ (Except ε) α}
    (h : c → Mirrors t x z) (h' : ¬ c → Mirrors t x' z') :
    Mirrors t (if c then x else x') (if c then z else z') := by
  split
  · exact h ‹_›
  · exact h' ‹_›

theorem Mirrors.bind (hx : Mirrors t x z) (hf : ∀ a, Mirrors t (f a) (g a)) :
    Mirrors t (x >>= f) (z >>= g) := by
  intro s
  rw [onFirst_bind]
  cases hz : z s with
  | error e => rw [bind_error ((hx s).trans (onFirst_error hz)), bind_error (onFirst_error hz)]
  | ok r =>
    obtain ⟨a, s'⟩ := r
    rw [bind_ok ((hx s).trans (onFirst_ok hz)), bind_ok (onFirst_ok hz), hf a s']

theorem Mirrors.answered {y : StateT τ (Except δ) α} {a : α} {z : StateT σ (Except ε) β}
    (hy : y t = .ok (a, t)) (hf : Mirrors t (f a) z) : Mirrors t (onSecond y >>= f) z := by
  intro s
  rw [bind_ok (onSecond_ok hy), hf s]

end Mirroring

end Dandelion.Foundation.Components
