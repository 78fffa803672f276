import Dandelion.FileSystem.PathSplit
import Dandelion.FileSystem.Walkers

/-! # What a failed `dandelion_open` leaves behind

The call creates directories and the file before it looks for a descriptor and
at permissions. A failure after that leaves them in the tree.
-/

namespace Dandelion.FileSystem

open Foundation.Triples

/-- Every node that was there is as it was, and so is everything else but nodes that nothing
refers to. -/
structure NoTrace (s s' : State) : Prop where
  files : ∀ q f, s.memory.files q = some f → s'.memory.files q = some f
  chunks : s'.memory.chunks = s.memory.chunks
  blocks : s'.memory.blocks = s.memory.blocks
  table : s'.openFiles = s.openFiles

/-- A file of this mode can be opened: a descriptor is free and the access mode is permitted. -/
def OpensNew (s : State) (flags mode : Nat) : Prop :=
  (∃ i < fsMaxFiles, (s.openFiles i).file = 0) ∧
    (hasBit mode sIWUSR = true ∨ hasBit (flags &&& oACCMODE) oWRONLY = false)

def wayTo (name : List UInt8) : List Path := components (getDirectories (pathOf name))

/-- The number of a request for a node decides whether it is refused. -/
def Platform.Refusing (P : Platform) (refused : Nat → Bool) : Prop :=
  ∀ m n, P.answer m n sizeofFile 8 = none ↔ refused n = true

variable {P : Platform} {s s' s₂ s₃ : State} {L L' L₂ : Ptr → List Ptr} {n p q r : Ptr} {f : DFile}
  {name : List UInt8} {file : Path} {flags mode : Nat} {x : Spot} {V : Finset Spot}
  {refused : Nat → Bool}

section Traces

theorem NoTrace.refl (s : State) : NoTrace s s := ⟨fun _ _ h => h, rfl, rfl, rfl⟩

theorem NoTrace.same (h : Same s s') : NoTrace s s' :=
  ⟨fun q f hf => by rw [h.files, hf], h.chunks, h.blocks, h.openFiles⟩

theorem NoTrace.adds (h : AddsNode s s' n f) : NoTrace s s' :=
  ⟨fun _ _ he => h.old he, h.chunks, h.blocks, h.openFiles⟩

end Traces

section Descriptors

theorem hasBit_read (access : Nat) : hasBit access oRDONLY = false := by
  rw [hasBit, oRDONLY, Nat.and_zero]
  rfl

theorem openDescriptor_new (hf : s.memory.files p = some f) (hp : p ≠ 0) :
    Meets (openDescriptor p flags) s (fun r s' => (OpensNew s flags f.mode → 0 ≤ r) ∧
      (¬ OpensNew s flags f.mode → r < 0 ∧ s' = s))
      fun _ => OpensNew s flags f.mode := by
  rw [openDescriptor]
  have hFree : lowestFree s =
      .ok ((List.range fsMaxFiles).find? (fun i => (s.openFiles i).file = 0), s) := rfl
  refine .after hFree ?_
  cases hFind : (List.range fsMaxFiles).find? (fun i => (s.openFiles i).file = 0) with
  | none =>
    refine .pure ⟨fun hOpens => ?_, fun _ => ⟨by decide, rfl⟩⟩
    obtain ⟨⟨i, hi, hVacant⟩, -⟩ := hOpens
    exact absurd (decide_eq_true hVacant) (List.find?_eq_none.mp hFind i (List.mem_range.mpr hi))
  | some i =>
    have hSome : ∃ i < fsMaxFiles, (s.openFiles i).file = 0 := by
      obtain ⟨hi, hVacant⟩ := find_range hFind
      exact ⟨i, hi, of_decide_eq_true hVacant⟩
    by_cases hMode : hasBit f.mode sIWUSR = true ∨ hasBit (flags &&& oACCMODE) oWRONLY = false
    · -- every result is a descriptor, and nothing is claimed of faults
      have hOpens : OpensNew s flags f.mode := ⟨hSome, hMode⟩
      have hOpen : Ensures (openExistingFile i p flags true) s fun r _ => 0 ≤ r := by
        rw [openExistingFile]
        refine .after (getFileAt_ok hp hf) ?_
        have hFinish : ∀ {s₂ : State} (access : Nat), Ensures (finishOpen i p access) s₂ fun r _ =>
            0 ≤ r := by
          intro s₂ access
          rw [finishOpen]
          exact .after_any fun _ _ => .after_any fun _ _ =>
            .after_any fun _ _ => .pure (Int.le_refl 0)
        refine .ite (fun h => ?_) fun _ => .ite (fun h => ?_) fun _ => ?_
        · rw [hasBit_read] at h
          exact absurd h.2.2 (by decide)
        · rcases hMode with hMode | hMode
          · exact absurd hMode h.2.1
          · rw [hMode] at h
            exact absurd h.2.2 (by decide)
        · exact .ite (fun _ => .after_any fun _ _ => .after_any fun _ _ => hFinish _)
            fun _ => hFinish _
      have hAll : Ensures (do
          let error ← openExistingFile i p flags true
          if error < 0 then pure error else pure (i : Int)) s fun r _ => 0 ≤ r :=
        hOpen.bind fun error _ h => .ite (fun hNeg => absurd hNeg (Int.not_lt.mpr h)) fun _ =>
          .pure (Int.natCast_nonneg i)
      exact hAll.mono (fun _ _ hr => ⟨fun _ => hr, fun hNot => absurd hOpens hNot⟩)
        fun _ _ => hOpens
    · have hNot : ¬ OpensNew s flags f.mode := fun h => hMode h.2
      rw [not_or, Bool.not_eq_false] at hMode
      have hRefused : openExistingFile i p flags true s = .ok (-(eACCES : Int), s) := by
        rw [openExistingFile, bind_ok (getFileAt_ok hp hf), if_neg (by rw [hasBit_read]; simp),
          if_pos ⟨rfl, hMode.1, hMode.2⟩]
        rfl
      refine .after hRefused
        (.ite (fun _ => .pure ⟨fun h => absurd h hNot, fun _ => ⟨by decide, rfl⟩⟩) fun h => ?_)
      exact absurd (by decide) h

end Descriptors

section Creating

theorem Walked.granted (h : Walked P s L V s₂ L₂) (hP : P.Refusing refused) :
    ¬ ∃ i < V.card, refused (s.requests + i) = true := by
  rintro ⟨i, hi, hRefused⟩
  obtain ⟨m, g, hg⟩ := h.answered i hi
  rw [(hP m _).mpr hRefused] at hg
  cases hg

end Creating

end Dandelion.FileSystem
