import Dandelion.Runtime.IoPrograms

/-! # Access to the sets

A program sees its sets through accessors. As long as it only adds outputs they answer
according to the flat description that the platform gave, and with zero for a set that
does not exist.
-/

namespace Dandelion.Runtime.IoSets

open Foundation.Triples

section Accessors

/-- A field of a set, or zero if there is no such set. -/
def fieldOf (len : SystemData → Nat) (sets : RuntimeData → Ptr) (field : IoSet → Nat)
    (setIdx : Nat) : M Nat := do
  let s ← getState
  if setIdx ≥ len s.sysdata then pure 0
  else do
    let set ← getSet (sets s.rtdata) setIdx
    pure (field set)

def dandelionInputSetCount : M Nat := do
  let s ← getState
  pure s.sysdata.inputSetsLen

def dandelionOutputSetCount : M Nat := do
  let s ← getState
  pure s.sysdata.outputSetsLen

def dandelionInputBufferCount : Nat → M Nat :=
  fieldOf SystemData.inputSetsLen RuntimeData.inputSets IoSet.buffersLen

def dandelionOutputBufferCount : Nat → M Nat :=
  fieldOf SystemData.outputSetsLen RuntimeData.outputSets IoSet.buffersLen

def dandelionInputSetIdent : Nat → M Nat :=
  fieldOf SystemData.inputSetsLen RuntimeData.inputSets IoSet.ident

def dandelionInputSetIdentLen : Nat → M Nat :=
  fieldOf SystemData.inputSetsLen RuntimeData.inputSets IoSet.identLen

def dandelionOutputSetIdent : Nat → M Nat :=
  fieldOf SystemData.outputSetsLen RuntimeData.outputSets IoSet.ident

def dandelionOutputSetIdentLen : Nat → M Nat :=
  fieldOf SystemData.outputSetsLen RuntimeData.outputSets IoSet.identLen

end Accessors

/-- The runtime has decoded the description `d`, and outputs were added to its sets. -/
structure Serves (d : SystemData) (outs : Nat → List IoBuffer) (s : State) : Prop where
  sysdata : s.sysdata = d
  infos : d.outputSets.length = d.outputSetsLen + 1
  trees : ∃ xs ys, Trees s xs ys (inputPart d) outs ∧ Labelled d xs ys

variable {P : Platform} {s s' : State} {d : SystemData} {i j : Nat} {xs ys : Nat → IoSet}
  {ins outs : Nat → List IoBuffer}

section Answers

theorem Trees.fieldOf_input (h : Trees s xs ys ins outs) (hi : i < s.sysdata.inputSetsLen)
    (field : IoSet → Nat) :
    fieldOf SystemData.inputSetsLen RuntimeData.inputSets field i s = .ok (field (xs i), s) := by
  rw [fieldOf, bind_ok (show getState s = .ok (s, s) from rfl), if_neg (Nat.not_le_of_lt hi),
    bind_ok (h.input.get_ok hi)]
  rfl

theorem Trees.fieldOf_output (h : Trees s xs ys ins outs) (hi : i < s.sysdata.outputSetsLen)
    (field : IoSet → Nat) :
    fieldOf SystemData.outputSetsLen RuntimeData.outputSets field i s = .ok (field (ys i), s) := by
  rw [fieldOf, bind_ok (show getState s = .ok (s, s) from rfl), if_neg (Nat.not_le_of_lt hi),
    bind_ok (h.output.get_ok hi)]
  rfl

theorem Serves.inputCount (h : Serves d outs s) :
    dandelionInputSetCount s = .ok (d.inputSetsLen, s) := by
  rw [← h.sysdata]
  rfl

theorem Serves.outputCount (h : Serves d outs s) :
    dandelionOutputSetCount s = .ok (d.outputSetsLen, s) := by
  rw [← h.sysdata]
  rfl

theorem Serves.inputLabel (h : Serves d outs s) (hi : i < d.inputSetsLen) :
    dandelionInputSetIdent i s = .ok ((labelAt d.inputSets i).1, s) ∧
      dandelionInputSetIdentLen i s = .ok ((labelAt d.inputSets i).2, s) := by
  obtain ⟨xs, ys, hTrees, hLabels⟩ := h.trees
  rw [← hLabels.input i hi]
  rw [← h.sysdata] at hi
  exact ⟨hTrees.fieldOf_input hi _, hTrees.fieldOf_input hi _⟩

theorem Serves.outputLabel (h : Serves d outs s) (hi : i < d.outputSetsLen) :
    dandelionOutputSetIdent i s = .ok ((labelAt d.outputSets i).1, s) ∧
      dandelionOutputSetIdentLen i s = .ok ((labelAt d.outputSets i).2, s) := by
  obtain ⟨xs, ys, hTrees, hLabels⟩ := h.trees
  rw [← hLabels.output i hi]
  rw [← h.sysdata] at hi
  exact ⟨hTrees.fieldOf_output hi _, hTrees.fieldOf_output hi _⟩

theorem Serves.bufferCount (h : Serves d outs s) (hi : i < d.inputSetsLen) :
    dandelionInputBufferCount i s = .ok ((inputPart d i).length, s) := by
  obtain ⟨xs, ys, hTrees, -⟩ := h.trees
  rw [← h.sysdata] at hi
  rw [dandelionInputBufferCount, hTrees.fieldOf_input hi, (hTrees.inputs i hi).len]

theorem Serves.getInput {x : IoBuffer} (h : Serves d outs s) (hi : i < d.inputSetsLen)
    (hx : (inputPart d i)[j]? = some x) :
    ∃ address, dandelionGetInput i j s = .ok (some address, s) ∧
      getBuffer address.1 address.2 s = .ok (x, s) := by
  obtain ⟨xs, ys, hTrees, -⟩ := h.trees
  obtain ⟨a, hRun, hFound, hValue⟩ := dandelionGetInput_ok hTrees i j
  have hj : j < (inputPart d i).length := (List.getElem?_eq_some_iff.mp hx).1
  obtain ⟨address, rfl⟩ := Option.ne_none_iff_exists'.mp (hFound.mpr ⟨by rwa [h.sysdata], hj⟩)
  obtain ⟨y, hy, hGet⟩ := hValue address rfl
  obtain rfl := Option.mem_unique hx hy
  exact ⟨address, hRun, hGet⟩

end Answers

section Lifetime

theorem dandelionInit_serves (hDesc : Described s) :
    Meets (dandelionInit P) s (fun _ s' => Serves s.sysdata (fun _ => []) s' ∧
      s'.refused = s.refused)
      (fun e => s.refused < e.refused) := by
  refine (dandelionInit_trees hDesc).mono (fun _ s' h => ?_) fun _ he => he
  obtain ⟨hSys, hRefused, xs, ys, hTrees, hLabels⟩ := h
  exact ⟨⟨hSys, hDesc.outputs, xs, ys, hTrees, hLabels⟩, hRefused⟩

theorem Serves.addOutput (h : Serves d outs s) (i : Nat) (buf : IoBuffer) :
    Meets (dandelionAddOutput P i buf) s
      (fun _ s' => Serves d (fun j => outs j ++ addedTo j [(i, buf)]) s' ∧ s'.refused = s.refused)
      (fun e => s.refused < e.refused) := by
  obtain ⟨xs, ys, hTrees, hLabels⟩ := h.trees
  by_cases hi : i < s.sysdata.outputSetsLen
  · by_cases hProvides : provides P s i = true
    · obtain ⟨s', ys', hRun, hLabel, hTrees', hSys, -, hRefused⟩ :=
        dandelionAddOutput_appends hTrees hi buf hProvides
      refine .of_ok hRun
        ⟨⟨hSys.trans h.sysdata, h.infos, xs, ys', hTrees'.congr fun j _ => ?_, hLabels.input,
        fun j hj => ?_⟩, hRefused⟩
      · by_cases hj : j = i
        · subst hj
          rw [Function.update_self, addedTo_self]
          rfl
        · rw [Function.update_of_ne hj, addedTo_of_ne (Ne.symm hj)]
          exact (List.append_nil _).symm
      · rw [hLabel j, hLabels.output j hj]
    · exact .of_error (dandelionAddOutput_refused hTrees hi buf hProvides) (Nat.lt_succ_self _)
  · refine .of_ok (dandelionAddOutput_ignored (Nat.le_of_not_lt hi) buf)
      ⟨⟨h.sysdata, h.infos, xs, ys, hTrees.congr fun j hj => ?_, hLabels⟩, rfl⟩
    rw [addedTo_of_ne (show i ≠ j by omega)]
    exact (List.append_nil _).symm

theorem Serves.exit (h : Serves d outs s) (code : Nat) :
    Meets (dandelionExit P code) s (fun _ s' => s'.sysdata.exitCode = code ∧
      Encodes s' d.outputSetsLen outs)
      (fun e => s.refused < e.refused) := by
  obtain ⟨xs, ys, hTrees, -⟩ := h.trees
  refine (dandelionExit_ok hTrees (by rw [h.sysdata]; exact h.infos) code).mono (fun _ s' h' => ?_)
    fun _ he => he
  rw [h.sysdata] at h'
  exact ⟨h'.1, h'.2.2.2⟩

end Lifetime

end Dandelion.Runtime.IoSets
