import Dandelion.Foundation.Cycles
import Mathlib.Logic.Function.Basic

/-! # Thread-specific keys

The shim keeps the keys of `pthread_key_create` in a linked list and gives out
the first number that is free when counting up from the first key of the list.
Deleting that one moves the start of the count. A node that cannot be allocated
is not modelled; the list stands for the nodes behind `key_root`.
-/

namespace Dandelion.NewlibShim

open Foundation.Cycles

/-- A node of the list; `content = 0` is `NULL`. -/
structure ThreadKey where
  key : UInt32
  content : Nat
  deriving DecidableEq

def eINVAL : Nat := 22

/-- From a node on, put a new one before the first gap: its key, and the nodes behind `current`. -/
def insertGap : ThreadKey → List ThreadKey → UInt32 × List ThreadKey
  | current, [] => (current.key + 1, [⟨current.key + 1, 0⟩])
  | current, next :: rest =>
    if next.key ≠ current.key + 1 then (current.key + 1, ⟨current.key + 1, 0⟩ :: next :: rest)
    else
      let r := insertGap next rest
      (r.1, next :: r.2)

/-- The status, the new key and the list after the call. -/
def pthreadKeyCreate : List ThreadKey → (Nat × UInt32) × List ThreadKey
  | [] => ((0, 0), [⟨0, 0⟩])
  | root :: rest =>
    let r := insertGap root rest
    ((0, r.1), root :: r.2)

def pthreadGetspecific (key : UInt32) : List ThreadKey → Nat
  | [] => 0
  | current :: rest => if current.key = key then current.content else pthreadGetspecific key rest

def pthreadSetspecific (key : UInt32) (value : Nat) : List ThreadKey → Nat × List ThreadKey
  | [] => (eINVAL, [])
  | current :: rest =>
    if current.key = key then (0, { current with content := value } :: rest)
    else
      let r := pthreadSetspecific key value rest
      (r.1, current :: r.2)

/-- Take the node with the key out of the nodes behind the first one. -/
def unlinkKey (key : UInt32) : List ThreadKey → Nat × List ThreadKey
  | [] => (eINVAL, [])
  | next :: rest =>
    if next.key ≠ key then
      let r := unlinkKey key rest
      (r.1, next :: r.2)
    else (0, rest)

def pthreadKeyDelete (key : UInt32) : List ThreadKey → Nat × List ThreadKey
  | [] => (eINVAL, [])
  | root :: rest =>
    if root.key = key then (0, rest)
    else
      let r := unlinkKey key rest
      (r.1, root :: r.2)

def valueAt : List ThreadKey → UInt32 → Option Nat
  | [], _ => none
  | node :: rest, key => if node.key = key then some node.content else valueAt rest key

def Ordered (l : List ThreadKey) : Prop := ∃ base, Ascends base (l.map ThreadKey.key)

variable {l rest : List ThreadKey} {current root : ThreadKey} {base key j : UInt32} {value : Nat}

theorem valueAt_eq_none : valueAt l key = none ↔ key ∉ l.map ThreadKey.key := by
  induction l with
  | nil => simp [valueAt]
  | cons node l ih =>
    rw [valueAt, List.map_cons, List.mem_cons, not_or]
    split
    · rename_i hKey
      simp [hKey]
    · rename_i hKey
      rw [ih, and_iff_right (Ne.symm hKey)]

theorem Ordered.nodup (h : Ordered l) : (l.map ThreadKey.key).Nodup := by
  obtain ⟨base, hAscends⟩ := h
  exact hAscends.nodup

section Create

theorem insertGap_spec (h : Ascends base ((current :: rest).map ThreadKey.key))
    (hRoom : distance base current.key + (current :: rest).length < 2 ^ 32) :
    Ascends base ((current :: (insertGap current rest).2).map ThreadKey.key) ∧
      ∃ a t, rest = a ++ t ∧ (insertGap current rest).2 =
        a ++ ⟨(insertGap current rest).1, 0⟩ :: t := by
  induction rest generalizing current with
  | nil =>
    rw [List.length_singleton] at hRoom
    refine ⟨List.isChain_cons_cons.mpr ⟨?_, List.isChain_singleton _⟩, [], [], rfl, rfl⟩
    rw [distance_succ hRoom]
    exact Nat.lt_succ_self _
  | cons next rest ih =>
    by_cases hGap : next.key ≠ current.key + 1
    · rw [insertGap, if_pos hGap]
      exact ⟨Ascends.between h hGap, [], next :: rest, rfl, rfl⟩
    · obtain ⟨hLt, hRest⟩ := List.isChain_cons_cons.mp h
      have hNext : distance base (current.key + 1) = distance base current.key + 1 :=
        distance_succ (by rw [List.length_cons] at hRoom; omega)
      rw [← not_not.mp hGap] at hNext
      obtain ⟨hAscends, a, t, hSplit, hInsert⟩ :=
        ih hRest (by rw [List.length_cons] at hRoom; omega)
      rw [insertGap, if_neg hGap]
      refine ⟨List.isChain_cons_cons.mpr ⟨hLt, hAscends⟩, next :: a, t, ?_, ?_⟩
      · rw [hSplit]
        rfl
      · exact congrArg (next :: ·) hInsert

theorem valueAt_insert {a t : List ThreadKey} (node : ThreadKey)
    (hFresh : node.key ∉ a.map ThreadKey.key) :
    valueAt (a ++ node :: t) = Function.update (valueAt (a ++ t)) node.key (some node.content) := by
  funext j
  induction a with
  | nil =>
    rw [List.nil_append, List.nil_append, valueAt]
    by_cases hj : node.key = j
    · rw [if_pos hj, ← hj, Function.update_self]
    · rw [if_neg hj, Function.update_of_ne (Ne.symm hj)]
  | cons n a ih =>
    rw [List.map_cons, List.mem_cons, not_or] at hFresh
    rw [List.cons_append, List.cons_append, valueAt, ih hFresh.2]
    by_cases hn : n.key = j
    · rw [if_pos hn, Function.update_of_ne (by rw [← hn]; exact Ne.symm hFresh.1), valueAt,
        if_pos hn]
    · rw [if_neg hn]
      by_cases hj : j = node.key
      · rw [hj, Function.update_self, Function.update_self]
      · rw [Function.update_of_ne hj, Function.update_of_ne hj, valueAt, if_neg hn]

theorem pthreadKeyCreate_spec (h : Ordered l) (hRoom : l.length < 2 ^ 32) :
    (pthreadKeyCreate l).1.1 = 0 ∧ valueAt l (pthreadKeyCreate l).1.2 = none ∧
      Ordered (pthreadKeyCreate l).2 ∧
      valueAt (pthreadKeyCreate l).2 =
        Function.update (valueAt l) (pthreadKeyCreate l).1.2 (some 0) := by
  cases l with
  | nil =>
    refine ⟨rfl, rfl, ⟨0, List.isChain_singleton _⟩, ?_⟩
    exact valueAt_insert (a := []) (t := []) ⟨0, 0⟩ List.not_mem_nil
  | cons root rest =>
    -- whatever the keys ascend from, they also ascend from the first one
    obtain ⟨base, hBase⟩ := h
    obtain ⟨hAscends, a, t, hSplit, hInsert⟩ :=
      insertGap_spec hBase.rebase (by rw [distance_self, Nat.zero_add]; exact hRoom)
    have hCreate : pthreadKeyCreate (root :: rest) =
        ((0, (insertGap root rest).1), root :: (insertGap root rest).2) := rfl
    rw [hCreate]
    have hList : root :: (insertGap root rest).2 =
        (root :: a) ++ ⟨(insertGap root rest).1, 0⟩ :: t := by
      rw [hInsert]
      rfl
    have hFresh : (insertGap root rest).1 ∉ ((root :: a) ++ t).map ThreadKey.key := by
      have hNodup := Ascends.nodup hAscends
      rw [hList, (List.perm_middle.map ThreadKey.key).nodup_iff, List.map_cons,
        List.nodup_cons] at hNodup
      exact hNodup.1
    have hOld : root :: rest = (root :: a) ++ t := by
      rw [hSplit]
      rfl
    refine ⟨rfl, ?_, ⟨root.key, hAscends⟩, ?_⟩
    · rw [valueAt_eq_none, hOld]
      exact hFresh
    · rw [hList, hOld]
      refine valueAt_insert _ fun hMem => hFresh ?_
      rw [List.map_append]
      exact List.mem_append_left _ hMem

end Create

section Access

theorem pthreadGetspecific_eq (key : UInt32) (l : List ThreadKey) :
    pthreadGetspecific key l = (valueAt l key).getD 0 := by
  induction l with
  | nil => rfl
  | cons node l ih =>
    rw [pthreadGetspecific, valueAt]
    split
    · rfl
    · exact ih

theorem pthreadSetspecific_spec (key : UInt32) (value : Nat) (l : List ThreadKey) :
    (pthreadSetspecific key value l).2.map ThreadKey.key = l.map ThreadKey.key ∧
      (pthreadSetspecific key value l).1 = (if valueAt l key = none then eINVAL else 0) ∧
      valueAt (pthreadSetspecific key value l).2 =
        if valueAt l key = none then valueAt l
          else Function.update (valueAt l) key (some value) := by
  induction l with
  | nil => exact ⟨rfl, rfl, rfl⟩
  | cons node l ih =>
    obtain ⟨hKeys, hStatus, hValue⟩ := ih
    by_cases hKey : node.key = key
    · have hLive : valueAt (node :: l) key = some node.content := if_pos hKey
      simp only [pthreadSetspecific, if_pos hKey, hLive, Option.some_ne_none, if_false]
      refine ⟨rfl, trivial, funext fun j => ?_⟩
      by_cases hj : j = key
      · rw [hj, Function.update_self]
        exact if_pos hKey
      · rw [Function.update_of_ne hj, valueAt, valueAt, if_neg (by rw [hKey]; exact Ne.symm hj),
          if_neg (by rw [hKey]; exact Ne.symm hj)]
    · have hSkip : valueAt (node :: l) key = valueAt l key := if_neg hKey
      simp only [pthreadSetspecific, if_neg hKey, hSkip]
      refine ⟨by rw [List.map_cons, hKeys, List.map_cons], hStatus, funext fun j => ?_⟩
      rw [valueAt, hValue]
      by_cases hNone : valueAt l key = none
      · rw [if_pos hNone, if_pos hNone, valueAt]
      · rw [if_neg hNone, if_neg hNone]
        by_cases hj : j = key
        · rw [hj, Function.update_self, Function.update_self, if_neg hKey]
        · rw [Function.update_of_ne hj, Function.update_of_ne hj, valueAt]

end Access

section Delete

theorem pthreadKeyDelete_eq (key : UInt32) (l : List ThreadKey) :
    pthreadKeyDelete key l = unlinkKey key l := by
  cases l with
  | nil => rfl
  | cons root rest =>
    rw [pthreadKeyDelete, unlinkKey]
    by_cases hKey : root.key = key
    · rw [if_pos hKey, if_neg (not_not.mpr hKey)]
    · rw [if_neg hKey, if_pos hKey]

theorem unlinkKey_spec (h : (l.map ThreadKey.key).Nodup) (key : UInt32) :
    (unlinkKey key l).2.Sublist l ∧
      (unlinkKey key l).1 = (if valueAt l key = none then eINVAL else 0) ∧
      valueAt (unlinkKey key l).2 = Function.update (valueAt l) key none := by
  induction l with
  | nil => exact ⟨List.Sublist.refl _, rfl, (Function.update_eq_self key _).symm⟩
  | cons node l ih =>
    rw [List.map_cons, List.nodup_cons] at h
    obtain ⟨hSub, hStatus, hValue⟩ := ih h.2
    by_cases hKey : node.key = key
    · have hLive : valueAt (node :: l) key = some node.content := if_pos hKey
      have hGone : valueAt l key = none := valueAt_eq_none.mpr (hKey ▸ h.1)
      simp only [unlinkKey, hKey, ne_eq, not_true_eq_false, if_false, hLive, Option.some_ne_none]
      refine ⟨List.sublist_cons_self _ _, trivial, funext fun j => ?_⟩
      by_cases hj : j = key
      · rw [hj, Function.update_self, hGone]
      · rw [Function.update_of_ne hj, valueAt, if_neg (by rw [hKey]; exact Ne.symm hj)]
    · have hSkip : valueAt (node :: l) key = valueAt l key := if_neg hKey
      simp only [unlinkKey, ne_eq, hKey, not_false_eq_true, if_true, hSkip]
      refine ⟨hSub.cons_cons node, hStatus, funext fun j => ?_⟩
      rw [valueAt, hValue]
      by_cases hj : j = key
      · rw [hj, Function.update_self, Function.update_self, if_neg hKey]
      · rw [Function.update_of_ne hj, Function.update_of_ne hj, valueAt]

theorem pthreadKeyDelete_spec (h : Ordered l) (key : UInt32) :
    Ordered (pthreadKeyDelete key l).2 ∧
      (pthreadKeyDelete key l).1 = (if valueAt l key = none then eINVAL else 0) ∧
      valueAt (pthreadKeyDelete key l).2 = Function.update (valueAt l) key none := by
  rw [pthreadKeyDelete_eq]
  obtain ⟨hSub, hStatus, hValue⟩ := unlinkKey_spec h.nodup key
  obtain ⟨base, hAscends⟩ := h
  exact ⟨⟨base, hAscends.sublist (hSub.map ThreadKey.key)⟩, hStatus, hValue⟩

end Delete

end Dandelion.NewlibShim
