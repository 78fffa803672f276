import Mathlib.Logic.Basic

/-! # Programs with a state and faults

A program takes a state to a value and a new state, or to a fault. Results are
computed by rewriting with the rules for sequencing. Postconditions say what
holds of every result and which faults may occur.
-/

namespace Dandelion.Foundation.Triples

set_option autoImplicit false

universe u

variable {σ ε α β : Type u} {x : StateT σ (Except ε) α} {f : α → StateT σ (Except ε) β} {s s' : σ}

theorem bind_ok {a : α} (h : x s = .ok (a, s')) : (x >>= f) s = f a s' := by
  change Except.bind (x s) _ = _
  rw [h]
  rfl

theorem bind_error {e : ε} (h : x s = .error e) : (x >>= f) s = .error e := by
  change Except.bind (x s) _ = _
  rw [h]
  rfl

theorem bind_congr_at {y : StateT σ (Except ε) α} (h : x s = y s') :
    (x >>= f) s = (y >>= f) s' := by
  change Except.bind (x s) _ = Except.bind (y s') _
  rw [h]

theorem pure_ok (a : α) : (pure a : StateT σ (Except ε) α) s = .ok (a, s) := rfl

theorem ok_unique {r : Except ε (α × σ)} {a b : α} (h : r = .ok (a, s)) (h' : r = .ok (b, s')) :
    a = b ∧ s = s' :=
  Prod.mk.inj (Except.ok.inj (h.symm.trans h'))

/-- Every result meets `post` and every fault meets `fault`. -/
def Meets (x : StateT σ (Except ε) α) (s : σ) (post : α → σ → Prop) (fault : ε → Prop) : Prop :=
  match x s with
  | .ok r => post r.1 r.2
  | .error e => fault e

variable {post post' : α → σ → Prop} {postB : β → σ → Prop} {fault fault' : ε → Prop}

theorem Meets.of_ok {a : α} (h : x s = .ok (a, s')) (hPost : post a s') : Meets x s post fault := by
  rw [Meets, h]
  exact hPost

theorem Meets.of_error {e : ε} (h : x s = .error e) (hFault : fault e) : Meets x s post fault := by
  rw [Meets, h]
  exact hFault

theorem Meets.of_eq {y : StateT σ (Except ε) α} (h : x s = y s') (hy : Meets y s' post fault) :
    Meets x s post fault := by
  unfold Meets at hy ⊢
  rwa [h]

theorem Meets.pure {a : α} (hPost : post a s) : Meets (pure a) s post fault := hPost

theorem Meets.bind (hx : Meets x s post fault)
    (hf : ∀ a s', post a s' → Meets (f a) s' postB fault) :
    Meets (x >>= f) s postB fault := by
  unfold Meets at hx
  split at hx
  · rename_i r hr
    obtain ⟨a, s₁⟩ := r
    rw [Meets, bind_ok hr]
    exact hf _ _ hx
  · rename_i e he
    rw [Meets, bind_error he]
    exact hx

theorem Meets.after {a : α} (h : x s = .ok (a, s')) (hf : Meets (f a) s' postB fault) :
    Meets (x >>= f) s postB fault := by
  rw [Meets, bind_ok h]
  exact hf

theorem Meets.after_error {e : ε} (h : x s = .error e) (hFault : fault e) :
    Meets (x >>= f) s postB fault :=
  .of_error (bind_error h) hFault

theorem Meets.any (x : StateT σ (Except ε) α) (s : σ) :
    Meets x s (fun _ _ => True) fun _ => True := by
  unfold Meets
  split <;> trivial

theorem Meets.self (x : StateT σ (Except ε) α) (s : σ) :
    Meets x s (fun a s' => x s = .ok (a, s')) fun _ => True := by
  cases hx : x s with
  | error e => exact .of_error hx trivial
  | ok r => exact .of_ok hx rfl

theorem Meets.after_any (hf : ∀ a s', Meets (f a) s' postB fun _ => True) :
    Meets (x >>= f) s postB fun _ => True := by
  cases hx : x s with
  | error e => exact .after_error hx trivial
  | ok r => exact .after hx (hf r.1 r.2)

theorem Meets.mono (hx : Meets x s post fault) (hPost : ∀ a s', post a s' → post' a s')
    (hFault : ∀ e, fault e → fault' e) : Meets x s post' fault' := by
  unfold Meets at hx ⊢
  split at hx
  · exact hPost _ _ hx
  · exact hFault _ hx

theorem Meets.imp (hx : Meets x s post fault) (hPost : ∀ a s', post a s' → post' a s') :
    Meets x s post' fault :=
  hx.mono hPost fun _ h => h

theorem Meets.and (hx : Meets x s post fault) (hx' : Meets x s post' fun _ => True) :
    Meets x s (fun a s' => post a s' ∧ post' a s') fault := by
  unfold Meets at hx hx' ⊢
  split at hx
  · rename_i hr
    rw [hr] at hx'
    exact ⟨hx, hx'⟩
  · exact hx

theorem Meets.result (hx : Meets x s post fault) {a : α} (h : x s = .ok (a, s')) : post a s' := by
  rw [Meets, h] at hx
  exact hx

theorem Meets.failure (hx : Meets x s post fault) {e : ε} (h : x s = .error e) : fault e := by
  rw [Meets, h] at hx
  exact hx

theorem Meets.exists_ok (hx : Meets x s post fun _ => False) :
    ∃ a s', x s = .ok (a, s') ∧ post a s' := by
  cases hr : x s with
  | ok r => exact ⟨r.1, r.2, rfl, hx.result hr⟩
  | error e => exact (hx.failure hr).elim

theorem Meets.ite {c : Prop} [Decidable c] {y : StateT σ (Except ε) α}
    (hThen : c → Meets x s post fault) (hElse : ¬ c → Meets y s post fault) :
    Meets (if c then x else y) s post fault := by
  split
  · exact hThen ‹_›
  · exact hElse ‹_›

section Invariants

def Preserves (I : σ → Prop) (x : StateT σ (Except ε) α) : Prop :=
  ∀ s, I s → Meets x s (fun _ s' => I s') fun _ => True

variable {I : σ → Prop}

theorem Preserves.pure (a : α) : Preserves I (pure a : StateT σ (Except ε) α) := fun _ h => .pure h

theorem Preserves.bind (hx : Preserves I x) (hf : ∀ a, Preserves I (f a)) : Preserves I (x >>= f) :=
  fun s h =>
  (hx s h).bind fun a s' h' => hf a s' h'

theorem Preserves.ite {c : Prop} [Decidable c] {y : StateT σ (Except ε) α} (hx : Preserves I x)
    (hy : Preserves I y) :
    Preserves I (if c then x else y) := by
  split
  · exact hx
  · exact hy

end Invariants

section Tests

variable {r : Except ε α} {t : α → Bool} {u : ε → Bool}

/-- A test of the result. A fault does not pass it. -/
def passes (r : Except ε α) (t : α → Bool) : Bool :=
  match r with
  | .ok a => t a
  | .error _ => false

def faults (r : Except ε α) (u : ε → Bool) : Bool :=
  match r with
  | .ok _ => false
  | .error e => u e

theorem exists_of_passes (h : passes r t = true) : ∃ a, r = .ok a ∧ t a = true := by
  cases r with
  | ok a => exact ⟨a, rfl, h⟩
  | error e => cases h

theorem exists_of_faults (h : faults r u = true) : ∃ e, r = .error e ∧ u e = true := by
  cases r with
  | ok a => cases h
  | error e => exact ⟨e, rfl, h⟩

end Tests

end Dandelion.Foundation.Triples
