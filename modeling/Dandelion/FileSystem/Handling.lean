import Dandelion.FileSystem.CallRules
import Dandelion.FileSystem.Fits
import Dandelion.FileSystem.Steady

/-! # Calls on nodes keep memory sound

Most calls change nodes and give chunks back with their data. None of them gives
back a block that a chunk holds: a node that is released was read as one before,
and since then no chunk or block can have come to its address.
-/

namespace Dandelion.FileSystem

open Foundation.Triples

def Memory.Clear (m : Memory) (p : Ptr) : Prop := m.chunks p = none ∧ m.blocks p = none

def Handles (m m' : Memory) : Prop := Sound m → Sound m' ∧ ∀ p, m.Clear p → m'.Clear p

variable {P : Platform} {s s' s'' : State} {m m' m'' : Memory} {n p q : Ptr} {f : DFile}
  {α β : Type}

section Rules

theorem Handles.refl (m : Memory) : Handles m m := fun h => ⟨h, fun _ h => h⟩

theorem Handles.trans (h : Handles m m') (h' : Handles m' m'') : Handles m m'' := by
  intro hSound
  obtain ⟨hSound', hClear⟩ := h hSound
  obtain ⟨hSound'', hClear'⟩ := h' hSound'
  exact ⟨hSound'', fun p hp => hClear' p (hClear p hp)⟩

theorem handlingSteps : StepRules fun s s' => Handles s.memory s'.memory :=
  ⟨fun s => .refl s.memory, Handles.trans⟩

theorem handles_of_eq (hChunks : m'.chunks = m.chunks) (hBlocks : m'.blocks = m.blocks)
    (hHolding : Holding m → Holding m') : Handles m m' := by
  refine fun h => ⟨⟨hHolding h.holding, h.fits.congr hChunks hBlocks⟩, fun p hp => ?_⟩
  rwa [Memory.Clear, hChunks, hBlocks]

theorem handling_modifyFile (p : Ptr) (g : DFile → DFile) :
    Obeys (fun s s' => Handles s.memory s'.memory) (modifyFile p g) := fun _ =>
  (ensures_modifyFile_edits p g).imp fun _ _ h =>
    handles_of_eq h.2.2.chunks h.2.2.blocks h.2.2.holding

theorem Keeps.handles (h : Keeps m m') : Handles m m' := by
  refine handles_of_eq h.chunks h.blocks fun hHolding => ⟨fun p f' hf' => ?_, ?_, ?_, ?_⟩
  · rw [h.chunks, h.blocks]
    cases hf : m.files p with
    | none => exact (h.new p f' hf' hf).1
    | some f => exact hHolding.alone p f hf
  · rw [h.chunks, h.blocks]
    exact hHolding.apart
  · rw [h.chunks, h.blocks]
    exact hHolding.data
  · rw [h.chunks]
    exact hHolding.own

theorem Memory.Clear.drop (h : m.Clear q) (p : Ptr) : (m.drop p).Clear q := by
  rw [Memory.Clear, drop_chunks, drop_blocks]
  by_cases hq : q = p
  · rw [hq, Function.update_self, Function.update_self]
    exact ⟨rfl, rfl⟩
  · rw [Function.update_of_ne hq, Function.update_of_ne hq]
    exact h

theorem handles_drop (h : m.Clear p) : Handles m (m.drop p) := by
  refine handles_of_eq ?_ ?_ fun hHolding => hHolding.congr (fun q hq => ?_) ?_ ?_
  · rw [drop_chunks, ← h.1, Function.update_eq_self]
  · rw [drop_blocks, ← h.2, Function.update_eq_self]
  · rw [drop_files]
    by_cases hqp : q = p
    · rw [hqp, Function.update_self]
    · rw [Function.update_of_ne hqp, hq]
  · rw [drop_chunks, ← h.1, Function.update_eq_self]
  · rw [drop_blocks, ← h.2, Function.update_eq_self]

theorem Handles.free (h : Handles s.memory s'.memory) (hClear : s.memory.Clear p) :
    Ensures (dandelionFree p) s' fun _ s'' => Handles s.memory s''.memory :=
  (ensures_dandelionFree p).imp fun _ s'' hs'' hSound => by
    obtain ⟨-, rfl⟩ := hs''
    obtain ⟨hSound', hStill⟩ := h hSound
    obtain ⟨hSound'', hStill'⟩ := handles_drop (hStill p hClear) hSound'
    exact ⟨hSound'', fun q hq => hStill' q (hStill q hq)⟩

end Rules

section Release

theorem handles_release {c : FileChunk} (hc : m.chunks p = some c) :
    Handles m ((m.drop c.data).drop p) := by
  intro h
  have hRelease : Rework True m ((m.drop c.data).drop p) := .release hc rfl rfl rfl
  exact ⟨⟨hRelease.holding h.holding, (h.fits.drop c.data).drop p⟩,
    fun q hq => (hq.drop c.data).drop p⟩

theorem handlingReleaseRules : ReleaseRules fun s s' => Handles s.memory s'.memory where
  toStepRules := handlingSteps
  edit := handling_modifyFile
  chunk {s p c} hc := by
    refine (ensures_dandelionFree c.data).bind fun _ s₁ h₁ =>
      (ensures_dandelionFree p).imp fun _ s₂ h₂ => ?_
    obtain ⟨-, rfl⟩ := h₁
    obtain ⟨-, rfl⟩ := h₂
    exact handles_release hc
  node {s p f x} hf hx := by
    -- what is released before the node leaves its address clear
    by_cases hSound : Sound s.memory
    · exact (hx s).bind fun _ s₁ h₁ => h₁.free (hSound.holding.alone p f hf)
    · exact (Meets.any _ s).imp fun _ _ _ h => absurd h hSound

theorem handlingRules : CallRules P fun s s' => Handles s.memory s'.memory :=
  keepingRules.mono handlingSteps Keeps.handles

theorem handling_empties : Empties fun s s' => Handles s.memory s'.memory := fun _ link _ hk =>
  handlingSteps.bind (handlingSteps.freeFileChunks handlingReleaseRules.chunk link) fun _ =>
    handlingSteps.bind (handling_modifyFile _ _) fun _ => hk

end Release

end Dandelion.FileSystem
