import Dandelion.Program.Process

/-! # Start of a program

Between `dandelion_init` and the first output the runtime answers from the flat
description. What `fs_initialize` builds is therefore a function of the description
alone, and the rules for lists of sets apply to it.
-/

namespace Dandelion.Program

open Foundation.Components
open Runtime.IoSets
  (IoBuffer SystemData Described Serves labelAt inputPart dandelionInit dandelionInit_serves)
open FileSystem (Ptr Arguments)

variable {H : Host} {d : SystemData} {outs : Nat → List IoBuffer} {t : Runtime.IoSets.State}
  {k j : Nat}

theorem importItems_mirrors {i : Nat} (h : Serves d outs t) (hi : i < d.inputSetsLen)
    (setDirectory : Ptr) (isStdio : Bool) (hCount : j + k = (inputPart d i).length)
    (a : Arguments) :
    Mirrors t (importItems H i setDirectory isStdio k j a)
      (FileSystem.importItems H.files setDirectory isStdio
        (((inputPart d i).drop j).map H.item) a) := by
  induction k generalizing j a with
  | zero =>
    rw [List.drop_eq_nil_of_le (by omega)]
    exact .pure _
  | succ k ih =>
    have hj : j < (inputPart d i).length := by omega
    obtain ⟨address, hInput, hBuffer⟩ := h.getInput hi (List.getElem?_eq_getElem hj)
    rw [List.drop_eq_getElem_cons hj]
    refine .answered hInput
      (.answered hBuffer (.bind (.onFirst _) fun r => .ite (fun _ => .pure _) fun _ => ?_))
    exact ih (by omega) r.2

theorem importSets_mirrors (h : Serves d outs t) (hCount : j + k = d.inputSetsLen) (a : Arguments) :
    Mirrors t (importSets H k j a) (FileSystem.importSets H.files ((H.inputSets d).drop j) a) := by
  have hLength : (H.inputSets d).length = d.inputSetsLen := by
    rw [Host.inputSets, List.length_map, List.length_range]
  induction k generalizing j a with
  | zero =>
    rw [List.drop_eq_nil_of_le (by omega)]
    exact .pure _
  | succ k ih =>
    obtain ⟨hIdent, hIdentLen⟩ := h.inputLabel (show j < d.inputSetsLen by omega)
    have hSet : (H.inputSets d)[j] =
        ⟨H.path (labelAt d.inputSets j), (inputPart d j).map H.item⟩ := by
      simp only [Host.inputSets, List.getElem_map, List.getElem_range]
    rw [List.drop_eq_getElem_cons (by omega), hSet]
    refine .answered hIdent (.answered hIdentLen (.ite (fun _ => ih (by omega) a) fun _ => ?_))
    refine .bind (.onFirst _) fun setDirectory => .ite (fun _ => .pure _) fun _ => ?_
    refine .answered (h.bufferCount (by omega))
      (.bind ?_ fun r => .ite (fun _ => .pure _) fun _ => ih (by omega) r.2)
    exact importItems_mirrors h (by omega) setDirectory _ (Nat.zero_add _) a

theorem createOutputSets_mirrors (h : Serves d outs t) (hCount : j + k = d.outputSetsLen) :
    Mirrors t (createOutputSets H k j)
      (FileSystem.createOutputSets H.files ((H.outputPaths d).drop j)) := by
  have hLength : (H.outputPaths d).length = d.outputSetsLen := by
    rw [Host.outputPaths, List.length_map, List.length_range]
  induction k generalizing j with
  | zero =>
    rw [List.drop_eq_nil_of_le (by omega)]
    exact .pure _
  | succ k ih =>
    obtain ⟨hIdent, hIdentLen⟩ := h.outputLabel (show j < d.outputSetsLen by omega)
    have hSet : (H.outputPaths d)[j] = H.path (labelAt d.outputSets j) := by
      simp only [Host.outputPaths, Host.outputPath, List.getElem_map, List.getElem_range]
    rw [List.drop_eq_getElem_cons (by omega), hSet]
    refine .answered hIdent (.answered hIdentLen (.ite (fun _ => ih (by omega)) fun _ => ?_))
    exact .bind (.onFirst _) fun setDirectory => .ite (fun _ => .pure _) fun _ => ih (by omega)

theorem fsInitialize_mirrors (h : Serves d outs t) :
    Mirrors t (fsInitialize H)
      (FileSystem.fsInitialize H.files (H.inputSets d) (H.outputPaths d)) := by
  refine .bind (.onFirst _) fun _ => .ite (fun _ => .pure _) fun _ => ?_
  refine .bind (.onFirst _) fun _ => .ite (fun _ => .pure _) fun _ => ?_
  refine .bind (.onFirst _) fun _ => .ite (fun _ => .pure _) fun _ => ?_
  refine .answered h.inputCount (.bind (importSets_mirrors h (Nat.zero_add _) _) fun r => ?_)
  refine .ite (fun _ => .pure _) fun _ => .answered h.outputCount ?_
  exact .bind (createOutputSets_mirrors h (Nat.zero_add _)) fun _ =>
    .ite (fun _ => .pure _) fun _ => .onFirst _

/-- What `fs_initialize` does after `dandelion_init` depends on the flat description alone, and
leaves the runtime as it is. Without memory `dandelion_init` does not return. -/
theorem initialize_reads_description {s : Runtime.IoSets.State} (hDesc : Described s) :
    (∀ t, dandelionInit H.sets s = .ok ((), t) → ∀ f, fsInitialize H (f, t) =
      onFirst (FileSystem.fsInitialize H.files (H.inputSets s.sysdata) (H.outputPaths s.sysdata))
        (f, t)) ∧
    ∀ e, dandelionInit H.sets s = .error e → s.refused < e.refused := by
  have hStart := dandelionInit_serves (P := H.sets) hDesc
  exact ⟨fun t hRun f => fsInitialize_mirrors (hStart.result hRun).1 f,
    fun e hError => hStart.failure hError⟩

/-- One input set `in` with an item `x`, and one output set `out`. -/
def inHost : Host where
  files := .bump 0
  sets := .stacked
  text p := ([105, 110, 120, 111, 117, 116][p]?).getD 0

def inState : Runtime.IoSets.State where
  sysdata :=
    { exitCode := 256
      inputSetsLen := 1
      inputSets := [⟨0, 2, 0⟩, ⟨0, 0, 1⟩]
      outputSetsLen := 1
      outputSets := [⟨3, 3, 0⟩, ⟨0, 0, 0⟩]
      inputBufs := [⟨2, 1, 0, 0, 0⟩]
      outputBufs := 0 }
  rtdata := ⟨0, 0⟩
  memory := ⟨fun _ => none, fun _ => none, 4096⟩
  refused := 0

theorem initialize_reads_description_in : ∃ t, dandelionInit .stacked inState = .ok ((), t) ∧ ∀ f,
    fsInitialize inHost (f, t) =
      onFirst (FileSystem.fsInitialize (.bump 0) [⟨[105, 110], [⟨[120], 0, 0⟩]⟩] [[111, 117, 116]])
        (f, t) := by
  obtain ⟨t, hRun⟩ := Runtime.IoSets.exists_of_completes
    (show Runtime.IoSets.completes (dandelionInit .stacked inState) = true by decide +kernel)
  have hDesc : Described inState := ⟨rfl, rfl, by decide, by decide, by decide, by decide⟩
  exact ⟨t, hRun, (initialize_reads_description (H := inHost) hDesc).1 t hRun⟩

end Dandelion.Program
