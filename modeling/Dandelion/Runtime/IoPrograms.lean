import Dandelion.Runtime.IoCodec

/-! # Nothing is lost between init and exit

Every output set ends up with the buffers that were added to it. A program that
forwards its inputs reproduces their flat description.
-/

namespace Dandelion.Runtime.IoSets

open Foundation.Triples

variable {P : Platform} {s s' : State} {i j n : Nat} {xs ys : Nat → IoSet}
  {ins outs outs' : Nat → List IoBuffer}

section Programs

def addOutputs (P : Platform) : List (Nat × IoBuffer) → M Unit
  | [] => pure ()
  | call :: rest => do
    dandelionAddOutput P call.1 call.2
    addOutputs P rest

def addedTo (i : Nat) (calls : List (Nat × IoBuffer)) : List IoBuffer :=
  (calls.filter fun call => call.1 = i).map fun call => call.2

theorem addedTo_self (i : Nat) (buf : IoBuffer) (calls : List (Nat × IoBuffer)) :
    addedTo i ((i, buf) :: calls) = buf :: addedTo i calls := by
  simp [addedTo]

theorem addedTo_of_ne {buf : IoBuffer} {calls : List (Nat × IoBuffer)} (h : j ≠ i) :
    addedTo i ((j, buf) :: calls) = addedTo i calls := by
  simp [addedTo, h]

theorem filter_lt_succ (calls : List (Nat × IoBuffer)) (n : Nat) :
    (calls.filter fun call => call.1 < n + 1).length =
      (calls.filter fun call => call.1 < n).length +
      (calls.filter fun call => call.1 = n).length := by
  induction calls with
  | nil => rfl
  | cons call rest ih =>
    simp only [List.filter_cons, decide_eq_true_eq]
    rcases Nat.lt_trichotomy call.1 n with hLt | hEq | hGt
    · rw [if_pos (by omega), if_pos hLt, if_neg (by omega), List.length_cons, List.length_cons, ih]
      omega
    · rw [if_pos (by omega), if_neg (by omega), if_pos hEq, List.length_cons, List.length_cons, ih]
      omega
    · rw [if_neg (by omega), if_neg (by omega), if_neg (by omega), ih]

theorem run_addedTo_length (calls : List (Nat × IoBuffer)) (n : Nat) :
    (run (fun i => addedTo i calls) 0 n).length = (calls.filter fun call => call.1 < n).length := by
  induction n with
  | zero =>
    rw [run_zero, List.filter_eq_nil_iff.mpr fun call _ => by simp]
    rfl
  | succ n ih =>
    rw [run_last, List.length_append, ih, addedTo, List.length_map, filter_lt_succ]

theorem Trees.congr (h : Trees s xs ys ins outs)
    (hSame : ∀ i < s.sysdata.outputSetsLen, outs i = outs' i) :
    Trees s xs ys ins outs' where
  input := h.input
  output := h.output
  arrays := h.arrays
  inputs := h.inputs
  outputs i hi := hSame i hi ▸ h.outputs i hi
  across := h.across
  apart := h.apart
  total := h.total
  bound := h.bound

theorem addOutputs_ok {calls : List (Nat × IoBuffer)} (h : Trees s xs ys ins outs) :
    Meets (addOutputs P calls) s
      (fun _ s' => (∃ ys', Trees s' xs ys' ins fun i => outs i ++ addedTo i calls) ∧
        s'.sysdata = s.sysdata ∧ s'.refused = s.refused)
      (fun e => s.refused < e.refused) := by
  induction calls generalizing s ys outs with
  | nil => exact Meets.pure ⟨⟨ys, h.congr fun i _ => (List.append_nil _).symm⟩, rfl, rfl⟩
  | cons call rest ih =>
    obtain ⟨j, buf⟩ := call
    rw [addOutputs]
    by_cases hj : j < s.sysdata.outputSetsLen
    · refine (dandelionAddOutput_ok h hj buf).bind fun _ s₁ h₁ => ?_
      obtain ⟨⟨ys₁, hTrees₁⟩, hSys₁, _, hRefused₁⟩ := h₁
      refine (ih hTrees₁).mono (fun _ s₂ h₂ => ?_) fun e he => by rwa [hRefused₁] at he
      obtain ⟨⟨ys₂, hTrees₂⟩, hSys₂, hRefused₂⟩ := h₂
      refine ⟨⟨ys₂, hTrees₂.congr fun i _ => ?_⟩, hSys₂.trans hSys₁, hRefused₂.trans hRefused₁⟩
      by_cases hij : i = j
      · subst hij
        rw [Function.update_self, addedTo_self, List.append_assoc, List.singleton_append]
      · rw [Function.update_of_ne hij, addedTo_of_ne (Ne.symm hij)]
    · refine .after (dandelionAddOutput_ignored (Nat.le_of_not_lt hj) buf) ?_
      refine (ih h).mono (fun _ s₂ h₂ => ?_) fun _ he => he
      obtain ⟨⟨ys₂, hTrees₂⟩, hSys₂, hRefused₂⟩ := h₂
      refine ⟨⟨ys₂, hTrees₂.congr fun i hi => ?_⟩, hSys₂, hRefused₂⟩
      rw [hSys₂] at hi
      rw [addedTo_of_ne (show j ≠ i by omega)]

def runOutputs (P : Platform) (calls : List (Nat × IoBuffer)) (code : Nat) : M Unit := do
  dandelionInit P
  addOutputs P calls
  dandelionExit P code

/-- The flat output between the offset of a set and the next one. -/
def outputPart (s : State) (i : Nat) : List (Option IoBuffer) :=
  (List.range (offsetAt s.sysdata.outputSets (i + 1) - offsetAt s.sysdata.outputSets i)).map
    fun j =>
    outputAt s (offsetAt s.sysdata.outputSets i + j)

theorem Encodes.part (h : Encodes s n outs) (hi : i < n) : outputPart s i = (outs i).map some := by
  have hSplit : run outs 0 n = run outs 0 i ++ (outs i ++ run outs (i + 1) (n - (i + 1))) := by
    rw [← run_succ, show n - (i + 1) + 1 = n - i by omega, show n = i + (n - i) by omega, run_add,
      Nat.add_sub_cancel_left, Nat.zero_add]
  have hNext : (run outs 0 (i + 1)).length = (run outs 0 i).length + (outs i).length := by
    rw [run_last, List.length_append]
  have hBuffers := h.buffers
  apply List.ext_getElem
  · rw [outputPart, h.offsets i (by omega), h.offsets (i + 1) (by omega), hNext]
    simp
  · intro j hj hj'
    rw [List.length_map] at hj'
    have hLt : (run outs 0 i).length + j < (run outs 0 n).length := by
      rw [hSplit, List.length_append, List.length_append]
      omega
    have hAt := congrArg (fun l => l[(run outs 0 i).length + j]?) hBuffers
    simp only [List.getElem?_map, List.getElem?_range hLt, Option.map_some] at hAt
    rw [hSplit, List.getElem?_append_right (by omega), Nat.add_sub_cancel_left,
      List.getElem?_append_left hj', List.getElem?_eq_getElem hj', Option.map_some,
      Option.some.injEq] at hAt
    simp only [outputPart, List.getElem_map, List.getElem_range, h.offsets i (Nat.le_of_lt hi), hAt]

theorem runOutputs_ok (hDesc : Described s) (calls : List (Nat × IoBuffer)) (code : Nat) :
    Meets (runOutputs P calls code) s
      (fun _ s' => Encodes s' s.sysdata.outputSetsLen fun i => addedTo i calls)
      (fun e => s.refused < e.refused) := by
  rw [runOutputs]
  refine (dandelionInit_ok hDesc).bind fun _ s₁ h₁ => ?_
  obtain ⟨hSys₁, hRefused₁, xs, ys, hTrees₁⟩ := h₁
  refine ((addOutputs_ok hTrees₁).mono (fun _ _ h => h) fun e he => by rwa [hRefused₁] at he).bind
    fun _ s₂ h₂ => ?_
  obtain ⟨⟨ys₂, hTrees₂⟩, hSys₂, hRefused₂⟩ := h₂
  have hSys : s₂.sysdata = s.sysdata := hSys₂.trans hSys₁
  have hExit := dandelionExit_ok (P := P) hTrees₂ (by rw [hSys]; exact hDesc.outputs) code
  refine hExit.mono (fun _ s₃ h₃ => ?_) fun e he => by rwa [hRefused₂, hRefused₁] at he
  rw [hSys] at h₃
  exact h₃.2.2.2

/-- Every output set gets the buffers that were added to it, in order, and nothing else. -/
theorem outputs_encoded (hDesc : Described s) (calls : List (Nat × IoBuffer)) (code : Nat) :
    (∀ s', runOutputs P calls code s = .ok ((), s') →
      (∀ i < s.sysdata.outputSetsLen, outputPart s' i = (addedTo i calls).map some) ∧
      offsetAt s'.sysdata.outputSets 0 = 0 ∧
      (∀ i < s.sysdata.outputSetsLen, offsetAt s'.sysdata.outputSets i ≤
        offsetAt s'.sysdata.outputSets (i + 1)) ∧
      offsetAt s'.sysdata.outputSets s.sysdata.outputSetsLen =
        (calls.filter fun call => call.1 < s.sysdata.outputSetsLen).length) ∧
    (∀ e, runOutputs P calls code s = .error e → s.refused < e.refused) ∧
    ∀ t i buf, t.sysdata.outputSetsLen ≤ i → dandelionAddOutput P i buf t = .ok ((), t) := by
  have hRun := runOutputs_ok (P := P) hDesc calls code
  refine ⟨fun s' hOk => ?_, fun e hError => hRun.failure hError,
    fun t i buf hi => dandelionAddOutput_ignored hi buf⟩
  have hEncodes := hRun.result hOk
  refine ⟨fun i hi => hEncodes.part hi, hEncodes.offsets 0 (Nat.zero_le _), fun i hi => ?_, ?_⟩
  · rw [hEncodes.offsets i (by omega), hEncodes.offsets (i + 1) hi, run_last, List.length_append]
    exact Nat.le_add_right _ _
  · rw [hEncodes.offsets _ le_rfl, run_addedTo_length]

/-- Memory is handed out upwards and new cells hold nonsense. -/
def Platform.stacked : Platform where
  junkSets _ := ⟨7, 7, 7, 7, 7⟩
  junkBuffers _ := ⟨9, 9, 9, 9, 9⟩
  answer m size _ :=
    if size = 0 ∨ addressSpace < m.inUse + size ∨ (m.sets (m.inUse + 1)).isSome ∨
      (m.buffers (m.inUse + 1)).isSome
    then none
    else some (m.inUse + 1)
  vacant m size _ p h := by
    split at h
    · cases h
    · rename_i hFree
      obtain rfl := Option.some.inj h
      simp only [not_or, Option.not_isSome_iff_eq_none] at hFree
      exact ⟨Nat.succ_ne_zero _, hFree.2.2.1, hFree.2.2.2⟩
  fits m size _ p h := by
    split at h
    · cases h
    · rename_i hFree
      simp only [not_or] at hFree
      exact Nat.le_of_not_lt hFree.2.1
  empty _ _ := if_pos (Or.inl rfl)

/-- Two input sets with two buffers and one buffer, and two output sets. -/
def twoSets : State where
  sysdata :=
    { exitCode := 256
      inputSetsLen := 2
      inputSets := [⟨0, 0, 1⟩, ⟨0, 0, 3⟩, ⟨0, 0, 4⟩]
      outputSetsLen := 2
      outputSets := [⟨0, 0, 0⟩, ⟨0, 0, 0⟩, ⟨0, 0, 0⟩]
      inputBufs := [⟨1, 1, 1, 1, 1⟩, ⟨2, 2, 2, 2, 2⟩, ⟨3, 3, 3, 3, 3⟩, ⟨4, 4, 4, 4, 4⟩]
      outputBufs := 0 }
  rtdata := ⟨0, 0⟩
  memory := ⟨fun _ => none, fun _ => none, 4096⟩
  refused := 0

theorem described_twoSets : Described twoSets :=
  ⟨rfl, rfl, by decide, by decide, by decide, by decide⟩

def completes {α : Type} : Except Fault (α × State) → Bool
  | .ok _ => true
  | .error _ => false

theorem exists_of_completes {r : Except Fault (Unit × State)} (h : completes r = true) :
    ∃ s', r = .ok ((), s') := by
  cases r with
  | ok r => exact ⟨r.2, rfl⟩
  | error e => cases h

theorem outputs_encoded_four_calls :
    ∃ s', runOutputs .stacked [(0, ⟨1, 0, 0, 0, 0⟩), (1, ⟨2, 0, 0, 0, 0⟩), (5, ⟨3, 0, 0, 0, 0⟩),
      (0, ⟨4, 0, 0, 0, 0⟩)] 0
        twoSets = .ok ((), s') ∧
      outputPart s' 0 = [some ⟨1, 0, 0, 0, 0⟩, some ⟨4, 0, 0, 0, 0⟩] := by
  obtain ⟨s', hRun⟩ := exists_of_completes (show completes (runOutputs .stacked
    [(0, ⟨1, 0, 0, 0, 0⟩), (1, ⟨2, 0, 0, 0, 0⟩), (5, ⟨3, 0, 0, 0, 0⟩), (0, ⟨4, 0, 0, 0, 0⟩)] 0
      twoSets) = true
    by decide +kernel)
  exact ⟨s', hRun, ((outputs_encoded described_twoSets _ 0).1 s' hRun).1 0 (by decide)⟩

end Programs

section Forwarding

/-- Look up an input buffer and add it to the output set of the same index. -/
def forward (P : Platform) (i j : Nat) : M Unit := do
  let address ← dandelionGetInput i j
  match address with
  | none => pure ()
  | some a => do
    let x ← getBuffer a.1 a.2
    dandelionAddOutput P i x

def forwards (P : Platform) : List (Nat × Nat) → M Unit
  | [] => pure ()
  | move :: rest => do
    forward P move.1 move.2
    forwards P rest

def runForwards (P : Platform) (moves : List (Nat × Nat)) (code : Nat) : M Unit := do
  dandelionInit P
  forwards P moves
  dandelionExit P code

/-- The indices of the buffers that are forwarded from a set. -/
def movesOf (i : Nat) (moves : List (Nat × Nat)) : List Nat :=
  (moves.filter fun move => move.1 = i).map fun move => move.2

theorem dandelionGetInput_ok (h : Trees s xs ys ins outs) (i j : Nat) :
    ∃ a, dandelionGetInput i j s = .ok (a, s) ∧
      (a ≠ none ↔ i < s.sysdata.inputSetsLen ∧ j < (ins i).length) ∧
      ∀ address, a = some address →
        ∃ x, (ins i)[j]? = some x ∧ getBuffer address.1 address.2 s = .ok (x, s) := by
  rw [dandelionGetInput, bind_ok (show getState s = .ok (s, s) from rfl)]
  by_cases hi : i < s.sysdata.inputSetsLen
  · rw [if_neg (Nat.not_le_of_lt hi), bind_ok (h.input.get_ok hi)]
    have hHolds := h.inputs i hi
    rw [hHolds.len]
    by_cases hj : j < (ins i).length
    · rw [if_neg (Nat.not_le_of_lt hj)]
      refine ⟨_, rfl, by simp [hi, hj], fun address hAddress => ?_⟩
      obtain rfl := Option.some.inj hAddress
      have hCap := hHolds.cap
      obtain ⟨hp, b, hb, hSize⟩ := hHolds.room (by omega)
      have hAt : (ins i)[j]? = some (ins i)[j] := List.getElem?_eq_getElem hj
      have hFit : sizeofIoBuffer * (j + 1) ≤ b.size :=
        Nat.le_trans (Nat.mul_le_mul_left _ (by omega)) hSize
      refine ⟨_, hAt, ?_⟩
      rw [getBuffer_ok hp hb hFit, hHolds.cells b (by omega) hb j _ hAt]
    · rw [if_pos (Nat.le_of_not_lt hj)]
      exact ⟨none, rfl, by simp [hj], fun _ hAddress => by cases hAddress⟩
  · rw [if_pos (Nat.le_of_not_lt hi)]
    exact ⟨none, rfl, by simp [hi], fun _ hAddress => by cases hAddress⟩

theorem forwards_ok (moves : List (Nat × Nat)) (h : Trees s xs ys ins outs)
    (hLen : s.sysdata.inputSetsLen = s.sysdata.outputSetsLen) :
    Meets (forwards P moves) s (fun _ s' => (∃ ys', Trees s' xs ys' ins fun i =>
        outs i ++ (movesOf i moves).filterMap fun j => (ins i)[j]?) ∧
        s'.sysdata = s.sysdata ∧ s'.refused = s.refused)
      (fun e => s.refused < e.refused) := by
  induction moves generalizing s ys outs with
  | nil => exact Meets.pure ⟨⟨ys, h.congr fun i _ => by simp [movesOf]⟩, rfl, rfl⟩
  | cons move rest ih =>
    obtain ⟨i, j⟩ := move
    have hSelf : movesOf i ((i, j) :: rest) = j :: movesOf i rest := by simp [movesOf]
    have hOther : ∀ t, t ≠ i → movesOf t ((i, j) :: rest) = movesOf t rest :=
      fun t ht => by simp [movesOf, ht.symm]
    obtain ⟨a, hRun, hFound, hValue⟩ := dandelionGetInput_ok h i j
    rw [forwards, forward, bind_assoc]
    refine .after hRun ?_
    cases a with
    | none =>
      refine (ih h hLen).mono (fun _ s₂ h₂ => ?_) fun _ he => he
      obtain ⟨⟨ys₂, hTrees₂⟩, hSys₂, hRefused₂⟩ := h₂
      refine ⟨⟨ys₂, hTrees₂.congr fun t ht => ?_⟩, hSys₂, hRefused₂⟩
      by_cases hti : t = i
      · subst hti
        have hNone : (ins t)[j]? = none := by
          rw [List.getElem?_eq_none_iff]
          by_contra hj
          rw [hSys₂, ← hLen] at ht
          exact absurd rfl (hFound.mpr ⟨ht, Nat.lt_of_not_le hj⟩)
        rw [hSelf, List.filterMap_cons_none hNone]
      · rw [hOther t hti]
    | some address =>
      obtain ⟨x, hx, hGet⟩ := hValue address rfl
      have hi : i < s.sysdata.outputSetsLen := hLen ▸ (hFound.mp (by simp)).1
      rw [bind_assoc]
      refine .after hGet ((dandelionAddOutput_ok h hi x).bind fun _ s₁ h₁ => ?_)
      obtain ⟨⟨ys₁, hTrees₁⟩, hSys₁, _, hRefused₁⟩ := h₁
      refine (ih hTrees₁ (by rw [hSys₁, hLen])).mono (fun _ s₂ h₂ => ?_)
        fun e he => by rwa [hRefused₁] at he
      obtain ⟨⟨ys₂, hTrees₂⟩, hSys₂, hRefused₂⟩ := h₂
      refine ⟨⟨ys₂, hTrees₂.congr fun t _ => ?_⟩, hSys₂.trans hSys₁, hRefused₂.trans hRefused₁⟩
      by_cases hti : t = i
      · subst hti
        rw [Function.update_self, hSelf, List.filterMap_cons_some hx, List.append_assoc,
          List.singleton_append]
      · rw [Function.update_of_ne hti, hOther t hti]

theorem filterMap_range (l : List IoBuffer) :
    (List.range l.length).filterMap (fun j => l[j]?) = l := by
  induction l with
  | nil => rfl
  | cons x l ih =>
    rw [List.length_cons, List.range_succ_eq_map,
      List.filterMap_cons_some (List.getElem?_cons_zero), List.filterMap_map]
    congr 1

theorem part_append (bufs : List IoBuffer) (start a b : Nat) :
    part bufs start a ++ part bufs (start + a) b = part bufs start (a + b) := by
  rw [part, part, part, List.take_add, List.drop_drop]

theorem Described.run_eq (h : Described s) (hi : i ≤ s.sysdata.inputSetsLen) :
    run (inputPart s.sysdata) 0 i = part s.sysdata.inputBufs (offsetAt s.sysdata.inputSets 0)
      (offsetAt s.sysdata.inputSets i - offsetAt s.sysdata.inputSets 0) := by
  induction i with
  | zero => rw [run_zero, Nat.sub_self, part, List.take_zero]
  | succ i ih =>
    have hFirst := h.offset_le (Nat.zero_le i) (by omega)
    have hNext := h.ordered i (by omega)
    rw [run_last, ih (by omega), inputPart]
    have hPart := part_append s.sysdata.inputBufs (offsetAt s.sysdata.inputSets 0)
      (offsetAt s.sysdata.inputSets i - offsetAt s.sysdata.inputSets 0)
      (offsetAt s.sysdata.inputSets (i + 1) - offsetAt s.sysdata.inputSets i)
    rw [Nat.add_sub_cancel' hFirst] at hPart
    rw [hPart, show offsetAt s.sysdata.inputSets i - offsetAt s.sysdata.inputSets 0 +
      (offsetAt s.sysdata.inputSets (i + 1) - offsetAt s.sysdata.inputSets i) =
        offsetAt s.sysdata.inputSets (i + 1) - offsetAt s.sysdata.inputSets 0 by omega]

theorem part_getElem? {bufs : List IoBuffer} {start count : Nat} (hj : j < count) :
    (part bufs start count)[j]? = bufs[start + j]? := by
  rw [part, List.getElem?_take_of_lt hj, List.getElem?_drop]

theorem runForwards_ok (hDesc : Described s)
    (hLen : s.sysdata.inputSetsLen = s.sysdata.outputSetsLen) (moves : List (Nat × Nat))
    (hMoves : ∀ i < s.sysdata.inputSetsLen, movesOf i moves =
      List.range (offsetAt s.sysdata.inputSets (i + 1) - offsetAt s.sysdata.inputSets i))
        (code : Nat) :
    Meets (runForwards P moves code) s
      (fun _ s' => Encodes s' s.sysdata.inputSetsLen (inputPart s.sysdata))
      (fun e => s.refused < e.refused) := by
  rw [runForwards]
  refine (dandelionInit_ok hDesc).bind fun _ s₁ h₁ => ?_
  obtain ⟨hSys₁, hRefused₁, xs, ys, hTrees₁⟩ := h₁
  have hForwards := forwards_ok (P := P) moves hTrees₁ (by rw [hSys₁, hLen])
  refine (hForwards.mono (fun _ _ h => h) fun e he => by rwa [hRefused₁] at he).bind
    fun _ s₂ h₂ => ?_
  obtain ⟨⟨ys₂, hTrees₂⟩, hSys₂, hRefused₂⟩ := h₂
  have hSys : s₂.sysdata = s.sysdata := hSys₂.trans hSys₁
  have hTrees : Trees s₂ xs ys₂ (inputPart s.sysdata) (inputPart s.sysdata) := by
    refine hTrees₂.congr fun i hi => ?_
    rw [hSys, ← hLen] at hi
    rw [List.nil_append, hMoves i hi, ← hDesc.part_length hi, filterMap_range]
  have hExit := dandelionExit_ok (P := P) hTrees (by rw [hSys]; exact hDesc.outputs) code
  refine hExit.mono (fun _ s₃ h₃ => ?_) fun e he => by rwa [hRefused₂, hRefused₁] at he
  rw [hSys, ← hLen] at h₃
  exact h₃.2.2.2

/-- Every input buffer is found at its place, and forwarding all of them in order
reproduces the flat description, with offsets counted from the first one. -/
theorem inputs_round_trip (hDesc : Described s)
    (hLen : s.sysdata.inputSetsLen = s.sysdata.outputSetsLen) (moves : List (Nat × Nat))
    (hMoves : ∀ i < s.sysdata.inputSetsLen, movesOf i moves =
      List.range (offsetAt s.sysdata.inputSets (i + 1) - offsetAt s.sysdata.inputSets i))
        (code : Nat) :
    (∀ s', dandelionInit P s = .ok ((), s') → ∀ i j, ∃ a, dandelionGetInput i j s' = .ok (a, s') ∧
      (a ≠ none ↔ i < s.sysdata.inputSetsLen ∧
        j < offsetAt s.sysdata.inputSets (i + 1) - offsetAt s.sysdata.inputSets i) ∧
      ∀ address, a = some address →
        ∃ x, s.sysdata.inputBufs[offsetAt s.sysdata.inputSets i + j]? = some x ∧
        getBuffer address.1 address.2 s' = .ok (x, s')) ∧
    (∀ s', runForwards P moves code s = .ok ((), s') →
      (∀ i ≤ s.sysdata.inputSetsLen, offsetAt s'.sysdata.outputSets i =
        offsetAt s.sysdata.inputSets i - offsetAt s.sysdata.inputSets 0) ∧
      (List.range (offsetAt s'.sysdata.outputSets s.sysdata.inputSetsLen)).map (outputAt s') =
        (part s.sysdata.inputBufs (offsetAt s.sysdata.inputSets 0)
          (offsetAt s.sysdata.inputSets s.sysdata.inputSetsLen - offsetAt s.sysdata.inputSets
            0)).map some) ∧
    ∀ e, dandelionInit P s = .error e ∨ runForwards P moves code s = .error e →
      s.refused < e.refused := by
  have hInit := dandelionInit_ok (P := P) hDesc
  have hRun := runForwards_ok (P := P) hDesc hLen moves hMoves code
  refine ⟨fun s' hOk i j => ?_, fun s' hOk => ?_, fun e hError => ?_⟩
  · obtain ⟨hSys, _, xs, ys, hTrees⟩ := hInit.result hOk
    obtain ⟨a, hGet, hFound, hValue⟩ := dandelionGetInput_ok hTrees i j
    rw [hSys] at hFound
    have hPart : i < s.sysdata.inputSetsLen ∧ j < (inputPart s.sysdata i).length ↔
        i < s.sysdata.inputSetsLen ∧
        j < offsetAt s.sysdata.inputSets (i + 1) - offsetAt s.sysdata.inputSets i :=
      and_congr_right fun hi => by rw [hDesc.part_length hi]
    refine ⟨a, hGet, hFound.trans hPart, fun address hAddress => ?_⟩
    obtain ⟨x, hx, hBuffer⟩ := hValue address hAddress
    have hj := hPart.mp (hFound.mp (by rw [hAddress]; simp))
    rw [inputPart, part_getElem? hj.2] at hx
    exact ⟨x, hx, hBuffer⟩
  · have hEncodes := hRun.result hOk
    have hBuffers := hEncodes.buffers
    have hOffsets : ∀ i ≤ s.sysdata.inputSetsLen, offsetAt s'.sysdata.outputSets i =
        offsetAt s.sysdata.inputSets i - offsetAt s.sysdata.inputSets 0 := by
      intro i hi
      have hInside := hDesc.offset_inside hi
      rw [hEncodes.offsets i hi, hDesc.run_eq hi, part, List.length_take, List.length_drop]
      omega
    refine ⟨hOffsets, ?_⟩
    rw [hEncodes.offsets _ le_rfl, hBuffers, hDesc.run_eq le_rfl]
  · rcases hError with hError | hError
    · exact hInit.failure hError
    · exact hRun.failure hError

theorem inputs_round_trip_two_sets :
    ∃ s', runForwards .stacked [(0, 0), (1, 0), (0, 1)] 0 twoSets = .ok ((), s') ∧
    (List.range (offsetAt s'.sysdata.outputSets 2)).map (outputAt s') =
      (part twoSets.sysdata.inputBufs 1 3).map some := by
  obtain ⟨s', hRun⟩ := exists_of_completes
    (show completes (runForwards .stacked [(0, 0), (1, 0), (0, 1)] 0 twoSets) =
      true by decide +kernel)
  have hMoves : ∀ i < twoSets.sysdata.inputSetsLen, movesOf i [(0, 0), (1, 0), (0, 1)] =
      List.range (offsetAt twoSets.sysdata.inputSets (i + 1) - offsetAt twoSets.sysdata.inputSets
        i) := by decide
  exact ⟨s', hRun, ((inputs_round_trip described_twoSets rfl _ hMoves 0).2.1 s' hRun).2⟩

end Forwarding

end Dandelion.Runtime.IoSets
