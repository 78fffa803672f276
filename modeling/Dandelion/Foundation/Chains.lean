import Mathlib.Data.List.Nodup
import Mathlib.Data.Finset.Card
import Mathlib.Tactic.Linarith

/-! # Linked lists over a partial successor map

Nodes are non-zero numbers and zero ends a list. A segment is the list of nodes
met on the way from one pointer to another. Lists are changed by splicing: the
nodes before a place keep their successors and the rest is given anew.
-/

namespace Dandelion.Foundation.Chains

set_option autoImplicit false

/-- Following `next` from `p` through the nodes of the list leads to `q`. -/
def Segment (next : Nat → Option Nat) : Nat → List Nat → Nat → Prop
  | p, [], q => p = q
  | p, a :: l, q => p = a ∧ a ≠ 0 ∧ ∃ r, next a = some r ∧ Segment next r l q

abbrev Chain (next : Nat → Option Nat) (p : Nat) (l : List Nat) : Prop := Segment next p l 0

variable {next next' : Nat → Option Nat} {p q r a : Nat} {l k : List Nat}

@[simp] theorem segment_nil : Segment next p [] q ↔ p = q := Iff.rfl

@[simp] theorem segment_cons :
    Segment next p (a :: l) q ↔ p = a ∧ a ≠ 0 ∧ ∃ r, next a = some r ∧ Segment next r l q := Iff.rfl

theorem segment_append :
    Segment next p (l ++ k) q ↔ ∃ m, Segment next p l m ∧ Segment next m k q := by
  induction l generalizing p with
  | nil => simp
  | cons a l ih =>
    simp only [List.cons_append, segment_cons, ih]
    constructor
    · rintro ⟨rfl, hne, r, hNext, m, hLeft, hRight⟩
      exact ⟨m, ⟨rfl, hne, r, hNext, hLeft⟩, hRight⟩
    · rintro ⟨m, ⟨rfl, hne, r, hNext, hLeft⟩, hRight⟩
      exact ⟨rfl, hne, r, hNext, m, hLeft, hRight⟩

theorem Segment.ne_zero (h : Segment next p l q) (ha : a ∈ l) : a ≠ 0 := by
  induction l generalizing p with
  | nil => exact absurd ha List.not_mem_nil
  | cons b l ih =>
    obtain ⟨_, hne, r, _, hRest⟩ := h
    rcases List.mem_cons.mp ha with rfl | ha
    · exact hne
    · exact ih hRest ha

theorem Segment.defined (h : Segment next p l q) (ha : a ∈ l) : ∃ r, next a = some r := by
  induction l generalizing p with
  | nil => exact absurd ha List.not_mem_nil
  | cons b l ih =>
    obtain ⟨_, _, r, hNext, hRest⟩ := h
    rcases List.mem_cons.mp ha with rfl | ha
    · exact ⟨r, hNext⟩
    · exact ih hRest ha

theorem Segment.congr (h : Segment next p l q) (hSame : ∀ a ∈ l, next' a = next a) :
    Segment next' p l q := by
  induction l generalizing p with
  | nil => exact h
  | cons a l ih =>
    obtain ⟨hp, hne, r, hNext, hRest⟩ := h
    refine ⟨hp, hne, r, ?_, ih hRest fun b hb => hSame b (List.mem_cons_of_mem _ hb)⟩
    rw [hSame a List.mem_cons_self, hNext]

theorem chain_zero : Chain next 0 l ↔ l = [] := by
  cases l with
  | nil => simp
  | cons a l =>
    simp only [segment_cons, reduceCtorEq, iff_false, not_and]
    intro h hne
    exact absurd h.symm hne

theorem Chain.head (h : Chain next p l) (hp : p ≠ 0) :
    ∃ r rest, l = p :: rest ∧ next p = some r ∧ Chain next r rest := by
  cases l with
  | nil => exact absurd h hp
  | cons a l =>
    obtain ⟨rfl, _, r, hNext, hRest⟩ := h
    exact ⟨r, l, rfl, hNext, hRest⟩

theorem Chain.unique (h : Chain next p l) (h' : Chain next p k) : l = k := by
  induction l generalizing p k with
  | nil =>
    obtain rfl : p = 0 := h
    exact (chain_zero.mp h').symm
  | cons a l ih =>
    obtain ⟨rfl, hne, r, hNext, hRest⟩ := h
    obtain ⟨r', rest, rfl, hNext', hRest'⟩ := h'.head hne
    rw [hNext] at hNext'
    obtain rfl := Option.some.inj hNext'
    rw [ih hRest hRest']

theorem Chain.suffix (h : Chain next p (l ++ k)) : ∃ m, Segment next p l m ∧ Chain next m k :=
  segment_append.mp h

theorem Chain.drop_to (h : Chain next p (l ++ a :: k)) : Chain next a (a :: k) := by
  obtain ⟨m, _, hRest⟩ := h.suffix
  obtain rfl : m = a := hRest.1
  exact hRest

theorem Chain.nodup (h : Chain next p l) : l.Nodup := by
  induction l generalizing p with
  | nil => exact List.nodup_nil
  | cons a l ih =>
    obtain ⟨rfl, hne, r, hNext, hRest⟩ := h
    refine List.nodup_cons.mpr ⟨fun hMem => ?_, ih hRest⟩
    obtain ⟨before, after, rfl⟩ := List.append_of_mem hMem
    have hAgain : Chain next p (p :: (before ++ p :: after)) := ⟨rfl, hne, r, hNext, hRest⟩
    have hEq := congrArg List.length (hAgain.unique (Chain.drop_to hRest))
    simp only [List.length_cons, List.length_append] at hEq
    omega

theorem exists_chain_update_iff (ha : a ≠ 0) (hNone : next a = none) :
    (∃ l, Chain (Function.update next a (some 0)) p l) ↔
      ∃ l, Segment next p l 0 ∨ Segment next p l a := by
  constructor
  · rintro ⟨l, hl⟩
    induction l generalizing p with
    | nil => exact ⟨[], Or.inl hl⟩
    | cons b l ih =>
      obtain ⟨rfl, hne, r, hNext, hRest⟩ := hl
      by_cases hp : p = a
      · exact ⟨[], Or.inr hp⟩
      · rw [Function.update_of_ne hp] at hNext
        obtain ⟨k, hk⟩ := ih hRest
        exact ⟨p :: k, hk.imp (fun h => ⟨rfl, hne, r, hNext, h⟩) fun h => ⟨rfl, hne, r, hNext, h⟩⟩
  · rintro ⟨l, hl⟩
    have hApart : ∀ {q}, Segment next p l q → Segment (Function.update next a (some 0)) p l q := by
      intro q hq
      refine hq.congr fun b hb => Function.update_of_ne ?_ _ _
      rintro rfl
      obtain ⟨r, hr⟩ := hq.defined hb
      rw [hNone] at hr
      cases hr
    rcases hl with hl | hl
    · exact ⟨l, hApart hl⟩
    · exact ⟨l ++ [a], segment_append.mpr
        ⟨a, hApart hl, rfl, ha, 0, Function.update_self _ _ _, rfl⟩⟩

theorem Chain.head_eq (h : Chain next p l) : p = l.headD 0 := by
  cases l with
  | nil => exact h
  | cons a l => exact h.1

theorem Segment.redirect (h : Segment next p (l ++ [a]) q) (hSame : ∀ b ∈ l, next' b = next b)
    (hNext : next' a = some r) : Segment next' p (l ++ [a]) r := by
  obtain ⟨m, hBefore, rfl, hne, _⟩ := segment_append.mp h
  exact segment_append.mpr ⟨m, hBefore.congr hSame, rfl, hne, r, hNext, rfl⟩

theorem Chain.insert (next' : Nat → Option Nat) (h : Chain next p (l ++ k)) (ha : a ≠ 0)
    (hNew : next' a = some (k.headD 0)) (hBefore : ∀ b ∈ l.dropLast, next' b = next b)
    (hLast : ∀ b, l.getLast? = some b → next' b = some a) (hAfter : ∀ b ∈ k, next' b = next b) :
    Chain next' (if l = [] then a else p) (l ++ a :: k) := by
  obtain ⟨m, hLeft, hRight⟩ := segment_append.mp h
  have hRest : Chain next' a (a :: k) :=
    ⟨rfl, ha, _, hNew, Chain.head_eq hRight ▸ Segment.congr hRight hAfter⟩
  rcases List.eq_nil_or_concat l with rfl | ⟨l, b, rfl⟩
  · exact hRest
  · rw [List.concat_eq_append] at *
    rw [if_neg (by simp)]
    rw [List.dropLast_concat] at hBefore
    exact segment_append.mpr ⟨a, hLeft.redirect hBefore (hLast b List.getLast?_concat), hRest⟩

theorem Chain.remove (next' : Nat → Option Nat) (h : Chain next p (l ++ a :: k))
    (hBefore : ∀ b ∈ l.dropLast, next' b = next b)
    (hLast : ∀ b, l.getLast? = some b → next' b = some (k.headD 0))
    (hAfter : ∀ b ∈ k, next' b = next b) :
    Chain next' (if l = [] then k.headD 0 else p) (l ++ k) := by
  obtain ⟨m, hLeft, rfl, _, r, _, hRight⟩ := segment_append.mp h
  have hRest : Chain next' (k.headD 0) k := Chain.head_eq hRight ▸ Segment.congr hRight hAfter
  rcases List.eq_nil_or_concat l with rfl | ⟨l, b, rfl⟩
  · exact hRest
  · rw [List.concat_eq_append] at *
    rw [if_neg (by simp)]
    rw [List.dropLast_concat] at hBefore
    exact segment_append.mpr ⟨_, hLeft.redirect hBefore (hLast b List.getLast?_concat), hRest⟩

theorem Chain.length_le {n : Nat} (h : Chain next p l) (hLt : ∀ a ∈ l, a < n) : l.length ≤ n := by
  have hSub : l.toFinset ⊆ Finset.range n := by
    intro a ha
    exact Finset.mem_range.mpr (hLt a (List.mem_toFinset.mp ha))
  have hCard := Finset.card_le_card hSub
  rwa [List.toFinset_card_of_nodup h.nodup, Finset.card_range] at hCard

/-- The nodes from `p` on, if the list ends within the given number of steps. -/
def follow (next : Nat → Option Nat) : Nat → Nat → Option (List Nat)
  | 0, p => if p = 0 then some [] else none
  | fuel + 1, p =>
    if p = 0 then some []
    else (next p).bind fun r => (follow next fuel r).map (p :: ·)

theorem follow_zero (fuel : Nat) : follow next fuel 0 = some [] := by
  cases fuel <;> rfl

theorem Chain.follow_eq (h : Chain next p l) {fuel : Nat} (hFuel : l.length ≤ fuel) :
    follow next fuel p = some l := by
  induction l generalizing p fuel with
  | nil =>
    obtain rfl : p = 0 := h
    exact follow_zero fuel
  | cons a l ih =>
    obtain ⟨rfl, hne, r, hNext, hRest⟩ := h
    obtain ⟨fuel, rfl⟩ := Nat.exists_eq_add_one.mpr (Nat.zero_lt_of_lt hFuel)
    rw [follow, if_neg hne, hNext, Option.bind_some, ih hRest (Nat.le_of_succ_le_succ hFuel),
      Option.map_some]

end Dandelion.Foundation.Chains
