import Dandelion.FileSystem.Holding

/-! # Chunks fit into their blocks

No chunk uses more bytes than its capacity, and its block is as large as that.
Changes of nodes keep this, and so does giving memory back.
-/

namespace Dandelion.FileSystem

open Foundation.Triples

def Fits (m : Memory) : Prop :=
  ∀ p c, m.chunks p = some c → c.data ≠ 0 ∧ c.used ≤ c.capacity ∧ ∀ b, m.blocks c.data = some b →
    c.capacity ≤ b.size

/-- Every chunk has a block of its own, which it fits into. -/
structure Sound (m : Memory) : Prop where
  holding : Holding m
  fits : Fits m

variable {s s' : State} {m m' : Memory} {p : Ptr} {c : FileChunk} {b : Block} {α : Type}

section Frames

theorem Fits.congr (h : Fits m) (hChunks : m'.chunks = m.chunks) (hBlocks : m'.blocks = m.blocks) :
    Fits m' := by
  intro p c hc
  rw [hChunks] at hc
  rw [hBlocks]
  exact h p c hc

theorem Fits.drop (h : Fits m) (p : Ptr) : Fits (m.drop p) := by
  have hOld : ∀ {β : Type} {f : Ptr → Option β} {q : Ptr} {x : β}, Function.update f p none q =
      some x → f q = some x := by
    intro β f q x hx
    by_cases hq : q = p
    · rw [hq, Function.update_self] at hx
      cases hx
    · rwa [Function.update_of_ne hq] at hx
  intro q c hc
  obtain ⟨hData, hUsed, hSize⟩ := h q c (hOld hc)
  exact ⟨hData, hUsed, fun b hb => hSize b (hOld hb)⟩

end Frames

end Dandelion.FileSystem
