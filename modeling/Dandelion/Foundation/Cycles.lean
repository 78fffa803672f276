import Mathlib.Algebra.Group.Nat.Defs
import Mathlib.Data.List.Chain
import Mathlib.Data.List.Nodup

/-! # Words in cyclic order

Counting up from a base word, around the end of the words if need be. A list
that ascends from a base has no duplicates, and it ascends from any later word
once the words before that are dropped.
-/

namespace Dandelion.Foundation.Cycles

set_option autoImplicit false

def distance (base k : UInt32) : Nat := (k - base).toNat

def Ascends (base : UInt32) (l : List UInt32) : Prop :=
  l.IsChain fun a b => distance base a < distance base b

variable {base m k j : UInt32} {l : List UInt32}

theorem distance_eq (base k : UInt32) :
    distance base k = (2 ^ 32 - base.toNat + k.toNat) % 2 ^ 32 := UInt32.toNat_sub k base

theorem distance_self (base : UInt32) : distance base base = 0 := by
  rw [distance, UInt32.sub_self]
  rfl

theorem distance_inj (h : distance base j = distance base k) : j = k := by
  rw [distance_eq, distance_eq] at h
  have hBase := base.toNat_lt
  have hj := j.toNat_lt
  have hk := k.toNat_lt
  exact UInt32.toNat_inj.mp (by omega)

theorem distance_succ (h : distance base k + 1 < 2 ^ 32) :
    distance base (k + 1) = distance base k + 1 := by
  have hOne : (1 : UInt32).toNat = 1 := rfl
  have hBase := base.toNat_lt
  have hk := k.toNat_lt
  rw [distance_eq] at h ⊢
  rw [distance_eq, UInt32.toNat_add, hOne]
  omega

theorem distance_rebase (h : distance base m ≤ distance base k) :
    distance m k = distance base k - distance base m := by
  have hBase := base.toNat_lt
  have hm := m.toNat_lt
  have hk := k.toNat_lt
  rw [distance_eq, distance_eq] at h
  rw [distance_eq, distance_eq, distance_eq]
  omega

theorem Ascends.pairwise (h : Ascends base l) :
    l.Pairwise fun a b => distance base a < distance base b :=
  haveI : Trans (fun a b => distance base a < distance base b)
    (fun a b => distance base a < distance base b)
      (fun a b => distance base a < distance base b) := ⟨Nat.lt_trans⟩
  List.isChain_iff_pairwise.mp h

theorem Ascends.nodup (h : Ascends base l) : l.Nodup := by
  refine h.pairwise.imp fun {a b} hLt hEq => ?_
  rw [hEq] at hLt
  exact Nat.lt_irrefl _ hLt

theorem Ascends.sublist {l' : List UInt32} (h : Ascends base l) (hSub : l'.Sublist l) :
    Ascends base l' :=
  (h.pairwise.sublist hSub).isChain

theorem Ascends.rebase (h : Ascends base (m :: l)) : Ascends m (m :: l) := by
  have hPairs := h.pairwise
  have hFirst : ∀ k ∈ m :: l, distance base m ≤ distance base k := by
    intro k hk
    rcases List.mem_cons.mp hk with rfl | hk
    · exact le_rfl
    · exact ((List.pairwise_cons.mp hPairs).1 k hk).le
  refine (hPairs.imp_of_mem fun {a b} ha hb hLt => ?_).isChain
  rw [distance_rebase (hFirst a ha), distance_rebase (hFirst b hb)]
  exact Nat.sub_lt_sub_right (hFirst a ha) hLt

theorem Ascends.between (h : Ascends base (k :: j :: l)) (hGap : j ≠ k + 1) :
    Ascends base (k :: (k + 1) :: j :: l) := by
  obtain ⟨hLt, hRest⟩ := List.isChain_cons_cons.mp h
  have hj : distance base j < 2 ^ 32 := (j - base).toNat_lt
  have hNext : distance base (k + 1) = distance base k + 1 := distance_succ (by omega)
  have hne : distance base j ≠ distance base (k + 1) := fun hEq => hGap (distance_inj hEq)
  exact List.isChain_cons_cons.mpr ⟨by omega, List.isChain_cons_cons.mpr ⟨by omega, hRest⟩⟩

end Dandelion.Foundation.Cycles
