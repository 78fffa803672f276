import Dandelion.Runtime.IoPrograms

/-! # Outputs while memory runs out

A set that is full needs a larger array for the next output. When there is none
the code copies the old buffers through a null pointer instead of keeping them.
-/

namespace Dandelion.Runtime.IoSets

/-- Every output set holds its buffers in order, in an array of its capacity. -/
def Kept (s : State) (outs : Nat → List IoBuffer) : Prop :=
  ∀ i < s.sysdata.outputSetsLen, ∃ x, getSet s.rtdata.outputSets i s = .ok (x, s) ∧
    Holds s.memory x (outs i)

/-- What the sets should hold after an output was added: the same if there is no memory for it. -/
def outsAfter (P : Platform) (s : State) (outs : Nat → List IoBuffer) (i : Nat) (buf : IoBuffer) :
    Nat → List IoBuffer :=
  if provides P s i then Function.update outs i (outs i ++ [buf]) else outs

/-- All calls return, the sets hold what they should at every time, and a call for which there
is no memory leaves its set as it was. -/
def OutputsSurvive (P : Platform) : State → (Nat → List IoBuffer) → List (Nat × IoBuffer) → Prop
  | s, outs, [] => Kept s outs
  | s, outs, call :: rest =>
    Kept s outs ∧ ∃ s', dandelionAddOutput P call.1 call.2 s = .ok ((), s') ∧
      (provides P s call.1 = false →
        ∃ x, getSet s.rtdata.outputSets call.1 s = .ok (x, s) ∧
          getSet s'.rtdata.outputSets call.1 s' = .ok (x, s')) ∧
      OutputsSurvive P s' (outsAfter P s outs call.1 call.2) rest

def eachProvided (P : Platform) : State → List (Nat × IoBuffer) → Bool
  | _, [] => true
  | s, call :: rest =>
    provides P s call.1 &&
      match dandelionAddOutput P call.1 call.2 s with
      | .ok r => eachProvided P r.2 rest
      | .error _ => true

variable {P : Platform} {s s₁ : State} {i : Nat} {xs ys : Nat → IoSet}
  {ins outs : Nat → List IoBuffer}

theorem Trees.kept (h : Trees s xs ys ins outs) : Kept s outs := fun i hi =>
  ⟨ys i, h.output.get_ok hi, h.outputs i hi⟩

theorem Trees.add (h : Trees s xs ys ins outs) (i : Nat) (buf : IoBuffer) :
    (provides P s i = true → ∃ s' ys', dandelionAddOutput P i buf s = .ok ((), s') ∧
      Trees s' xs ys' ins (outsAfter P s outs i buf)) ∧
    (¬ provides P s i = true → ∃ e, dandelionAddOutput P i buf s = .error e) := by
  by_cases hi : i < s.sysdata.outputSetsLen
  · refine ⟨fun hProvides => ?_, fun hProvides =>
      ⟨_, dandelionAddOutput_refused h hi buf hProvides⟩⟩
    obtain ⟨s', ys', hRun, hTrees, -⟩ := dandelionAddOutput_provided h hi buf hProvides
    refine ⟨s', ys', hRun, ?_⟩
    rwa [outsAfter, if_pos hProvides]
  · have hProvides : provides P s i = true := by
      rw [provides, decide_eq_true (Nat.le_of_not_lt hi), Bool.true_or]
    refine ⟨fun _ => ⟨s, ys, dandelionAddOutput_ignored (Nat.le_of_not_lt hi) buf,
      h.congr fun j hj => ?_⟩, fun hNot =>
      absurd hProvides hNot⟩
    rw [outsAfter, if_pos hProvides, Function.update_of_ne (show j ≠ i by omega)]

theorem Trees.survive_iff (h : Trees s xs ys ins outs) (calls : List (Nat × IoBuffer)) :
    OutputsSurvive P s outs calls ↔ eachProvided P s calls = true := by
  induction calls generalizing s ys outs with
  | nil => exact iff_of_true h.kept rfl
  | cons call rest ih =>
    obtain ⟨hAdds, hFails⟩ := h.add (P := P) call.1 call.2
    rw [eachProvided, Bool.and_eq_true]
    by_cases hProvides : provides P s call.1 = true
    · obtain ⟨s', ys', hRun, hTrees⟩ := hAdds hProvides
      rw [hRun]
      constructor
      · rintro ⟨-, s'', hRun', -, hRest⟩
        obtain rfl : s' = s'' := congrArg Prod.snd (Except.ok.inj (hRun.symm.trans hRun'))
        exact ⟨hProvides, (ih hTrees).mp hRest⟩
      · rintro ⟨-, hRest⟩
        refine ⟨h.kept, s', hRun, fun hNot => ?_, (ih hTrees).mpr hRest⟩
        rw [hProvides] at hNot
        cases hNot
    · obtain ⟨e, hError⟩ := hFails hProvides
      constructor
      · rintro ⟨-, s', hRun, -⟩
        rw [hError] at hRun
        cases hRun
      · exact fun hAll => absurd hAll.1 hProvides

/-- After initialisation any sequence of outputs survives exactly if there is memory for each. -/
theorem outputs_survive_iff (hDesc : Described s) (hInit : dandelionInit P s = .ok ((), s₁))
    (calls : List (Nat × IoBuffer)) : OutputsSurvive P s₁ (fun _ => []) calls ↔
    eachProvided P s₁ calls = true := by
  obtain ⟨-, -, xs, ys, hTrees⟩ := (dandelionInit_ok hDesc).result hInit
  exact hTrees.survive_iff calls

def initialised (P : Platform) (s : State) (test : State → Bool) : Bool :=
  match dandelionInit P s with
  | .ok r => test r.2
  | .error _ => false

theorem exists_of_initialised (test : State → Bool) (h : initialised P s test = true) :
    ∃ s₁, dandelionInit P s = .ok ((), s₁) ∧ test s₁ = true := by
  rw [initialised] at h
  split at h
  · rename_i r hRun
    exact ⟨r.2, hRun, h⟩
  · cases h

theorem outputs_survive_three_calls : ∃ s₁, dandelionInit .stacked twoSets = .ok ((), s₁) ∧
    OutputsSurvive .stacked s₁ (fun _ => []) [(0, ⟨1, 0, 0, 0, 0⟩), (0, ⟨2, 0, 0, 0, 0⟩),
      (5, ⟨3, 0, 0, 0, 0⟩)] := by
  obtain ⟨s₁, hInit, hTest⟩ := exists_of_initialised (P := .stacked) (s := twoSets)
    (fun s₁ =>
      eachProvided .stacked s₁ [(0, ⟨1, 0, 0, 0, 0⟩), (0, ⟨2, 0, 0, 0, 0⟩), (5, ⟨3, 0, 0, 0, 0⟩)])
    (by decide +kernel)
  exact ⟨s₁, hInit, (outputs_survive_iff described_twoSets hInit _).mpr hTest⟩

def Platform.limited (most : Nat) : Platform where
  junkSets := Platform.stacked.junkSets
  junkBuffers := Platform.stacked.junkBuffers
  answer m size alignment :=
    if m.inUse + size ≤ most then Platform.stacked.answer m size alignment else none
  vacant m size alignment p h := by
    split at h
    · exact Platform.stacked.vacant m size alignment p h
    · cases h
  fits m size alignment p h := by
    split at h
    · exact Platform.stacked.fits m size alignment p h
    · cases h
  empty m alignment := by rw [Platform.stacked.empty, ite_self]

/-- The array for a second buffer is refused, and the call goes to the null pointer. -/
theorem outputs_survive_fails : ∃ s₁, dandelionInit (.limited 4420) twoSets = .ok ((), s₁) ∧
    ¬ OutputsSurvive (.limited 4420) s₁ (fun _ => []) [(0, ⟨1, 0, 0, 0, 0⟩),
      (0, ⟨2, 0, 0, 0, 0⟩)] := by
  obtain ⟨s₁, hInit, hTest⟩ := exists_of_initialised (P := .limited 4420) (s := twoSets)
    (fun s₁ => provides (.limited 4420) s₁ 0 &&
      !eachProvided (.limited 4420) s₁ [(0, ⟨1, 0, 0, 0, 0⟩), (0, ⟨2, 0, 0, 0, 0⟩)])
        (by decide +kernel)
  rw [Bool.and_eq_true, Bool.not_eq_true'] at hTest
  obtain ⟨-, -, xs, ys, hTrees⟩ := (dandelionInit_ok described_twoSets).result hInit
  refine ⟨s₁, hInit, fun hSurvive => ?_⟩
  rw [hTrees.survive_iff, hTest.2] at hSurvive
  cases hSurvive

end Dandelion.Runtime.IoSets
