import Dandelion.Foundation.Runs
import Dandelion.NewlibShim.ThreadKeys

/-! # Thread-specific keys as a map

The calls so far and their answers say which keys are live and with which
values. In every run the list agrees with that, so every answer is the one of a
map from keys to pointers.
-/

namespace Dandelion.NewlibShim

open Foundation.Runs

inductive KeyCall where
  | create
  | setspecific (key : UInt32) (value : Nat)
  | getspecific (key : UInt32)
  | delete (key : UInt32)
  deriving DecidableEq

inductive Answer where
  | created (status : Nat) (key : UInt32)
  | status (code : Nat)
  | value (content : Nat)
  deriving DecidableEq

def answer : KeyCall → List ThreadKey → Answer × List ThreadKey
  | .create, l =>
    (.created (pthreadKeyCreate l).1.1 (pthreadKeyCreate l).1.2, (pthreadKeyCreate l).2)
  | .setspecific key value, l =>
    (.status (pthreadSetspecific key value l).1, (pthreadSetspecific key value l).2)
  | .getspecific key, l => (.value (pthreadGetspecific key l), l)
  | .delete key, l => (.status (pthreadKeyDelete key l).1, (pthreadKeyDelete key l).2)

/-- The value of a live key by the calls so far, the latest one first: what the last successful
`pthread_setspecific` since its creation stored. -/
def heldValue : List (KeyCall × Answer) → UInt32 → Option Nat
  | [], _ => none
  | (.create, .created _ k) :: history, key => if k = key then some 0 else heldValue history key
  | (.setspecific k value, .status 0) :: history, key =>
    if k = key then some value else heldValue history key
  | (.delete k, .status 0) :: history, key => if k = key then none else heldValue history key
  | _ :: history, key => heldValue history key

def Expected (history : List (KeyCall × Answer)) : KeyCall → Answer → Prop
  | .create, .created status key => status = 0 ∧ heldValue history key = none
  | .setspecific key _, .status code => code = if heldValue history key = none then eINVAL else 0
  | .getspecific key, .value content => content = (heldValue history key).getD 0
  | .delete key, .status code => code = if heldValue history key = none then eINVAL else 0
  | _, _ => False

structure KeySession where
  keys : List ThreadKey
  history : List (KeyCall × Answer)

def KeySession.after (s : KeySession) (call : KeyCall) : KeySession :=
  ⟨(answer call s.keys).2, (call, (answer call s.keys).1) :: s.history⟩

/-- There are fewer live keys than numbers when a key is created. -/
def Affordable (s : KeySession) (call : KeyCall) : Prop := call = .create → s.keys.length < 2 ^ 32

def Performs (s : KeySession) (call : KeyCall) (s' : KeySession) : Prop :=
  Affordable s call ∧ s' = s.after call

def Blank (s : KeySession) : Prop := s = ⟨[], []⟩

structure Consistent (s : KeySession) : Prop where
  ordered : Ordered s.keys
  values : valueAt s.keys = heldValue s.history

variable {s : KeySession} {call : KeyCall}

theorem heldValue_set (key : UInt32) (value code : Nat) (history : List (KeyCall × Answer))
    (hCode : code = if heldValue history key = none then eINVAL else 0) :
    heldValue ((.setspecific key value, .status code) :: history) =
      if heldValue history key = none then heldValue history
      else Function.update (heldValue history) key (some value) := by
  funext j
  by_cases hNone : heldValue history key = none
  · rw [if_pos hNone] at hCode ⊢
    rw [hCode]
    rfl
  · rw [if_neg hNone] at hCode ⊢
    rw [hCode, heldValue]
    by_cases hj : key = j
    · rw [if_pos hj, hj, Function.update_self]
    · rw [if_neg hj, Function.update_of_ne (Ne.symm hj)]

theorem heldValue_delete (key : UInt32) (code : Nat) (history : List (KeyCall × Answer))
    (hCode : code = if heldValue history key = none then eINVAL else 0) :
    heldValue ((.delete key, .status code) :: history) =
      Function.update (heldValue history) key none := by
  funext j
  by_cases hNone : heldValue history key = none
  · rw [if_pos hNone] at hCode
    have hSame : Function.update (heldValue history) key none = heldValue history := by
      rw [← hNone, Function.update_eq_self]
    rw [hSame, hCode]
    rfl
  · rw [if_neg hNone] at hCode
    rw [hCode, heldValue]
    by_cases hj : key = j
    · rw [if_pos hj, hj, Function.update_self]
    · rw [if_neg hj, Function.update_of_ne (Ne.symm hj)]

theorem Consistent.after (h : Consistent s) (hCall : Affordable s call) :
    Expected s.history call (answer call s.keys).1 ∧ Consistent (s.after call) := by
  cases call with
  | create =>
    obtain ⟨hStatus, hFresh, hOrdered, hValue⟩ := pthreadKeyCreate_spec h.ordered (hCall rfl)
    rw [h.values] at hFresh hValue
    refine ⟨⟨hStatus, hFresh⟩, hOrdered, hValue.trans (funext fun j => ?_)⟩
    show _ = if (pthreadKeyCreate s.keys).1.2 = j then some 0 else heldValue s.history j
    by_cases hj : (pthreadKeyCreate s.keys).1.2 = j
    · rw [if_pos hj, ← hj, Function.update_self]
    · rw [if_neg hj, Function.update_of_ne (Ne.symm hj)]
  | setspecific key value =>
    obtain ⟨hKeys, hStatus, hValue⟩ := pthreadSetspecific_spec key value s.keys
    rw [h.values] at hStatus hValue
    obtain ⟨base, hAscends⟩ := h.ordered
    refine ⟨hStatus, ⟨base, ?_⟩, hValue.trans (heldValue_set key value _ s.history hStatus).symm⟩
    rw [← hKeys] at hAscends
    exact hAscends
  | getspecific key =>
    have hContent := pthreadGetspecific_eq key s.keys
    rw [h.values] at hContent
    exact ⟨hContent, h.ordered, h.values⟩
  | delete key =>
    obtain ⟨hOrdered, hStatus, hValue⟩ := pthreadKeyDelete_spec h.ordered key
    rw [h.values] at hStatus hValue
    exact ⟨hStatus, hOrdered, hValue.trans (heldValue_delete key _ s.history hStatus).symm⟩

theorem reachable_after (call : KeyCall) (hs : Reachable Blank Performs s)
    (hCall : Affordable s call) :
    Reachable Blank Performs (s.after call) := .step hs ⟨hCall, rfl⟩

theorem consistent_of_reachable (hs : Reachable Blank Performs s) : Consistent s := by
  refine hs.invariant Consistent ?_ ?_
  · rintro s rfl
    exact ⟨⟨0, List.isChain_nil⟩, rfl⟩
  · rintro s call s' hInv ⟨hCall, rfl⟩
    exact (hInv.after hCall).2

/-- In every run each call is answered as by a map, the nodes are the live keys, and setting or
deleting a key leaves all others as they are. -/
theorem keys_refine_map (call : KeyCall) (hs : Reachable Blank Performs s)
    (hCall : Affordable s call) :
    Expected s.history call (answer call s.keys).1 ∧
      ((s.keys.map ThreadKey.key).Nodup ∧ ∀ k, k ∈ s.keys.map ThreadKey.key ↔
        heldValue s.history k ≠ none) ∧
      ∀ k j value, j ≠ k →
        valueAt (pthreadSetspecific k value s.keys).2 j = valueAt s.keys j ∧
        valueAt (pthreadKeyDelete k s.keys).2 j = valueAt s.keys j := by
  have hConsistent := consistent_of_reachable hs
  refine ⟨(hConsistent.after hCall).1, ⟨hConsistent.ordered.nodup, fun k => ?_⟩,
    fun k j value hne => ⟨?_, ?_⟩⟩
  · rw [← hConsistent.values, Ne, valueAt_eq_none, not_not]
  · rw [(pthreadSetspecific_spec k value s.keys).2.2]
    split
    · rfl
    · rw [Function.update_of_ne hne]
  · rw [(pthreadKeyDelete_spec hConsistent.ordered k).2.2, Function.update_of_ne hne]

/-- Two keys, a value for the second, and the first one deleted: the next key is not the second. -/
theorem keys_refine_map_after_delete : ∃ s, Reachable Blank Performs s ∧
    s.history.map Prod.fst = [.delete 0, .setspecific 1 7, .create, .create] ∧
    Expected s.history .create (answer .create s.keys).1 ∧
    Expected s.history (.getspecific 1) (.value 7) := by
  have hBlank : Reachable Blank Performs ⟨[], []⟩ := .init rfl
  have hFirst := reachable_after .create hBlank fun _ => by decide
  have hSecond := reachable_after .create hFirst fun _ => by decide
  have hSet := reachable_after (.setspecific 1 7) hSecond nofun
  have hRun := reachable_after (.delete 0) hSet nofun
  exact ⟨_, hRun, by decide, (keys_refine_map .create hRun fun _ => by decide).1,
    (keys_refine_map (.getspecific 1) hRun nofun).1⟩

end Dandelion.NewlibShim
