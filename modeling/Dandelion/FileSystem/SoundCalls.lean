import Dandelion.FileSystem.Fits

/-! # Calls on content keep memory sound

What a seek or a truncation does stays inside the chunks, so that after it every
chunk still fits into a block of its own. So does a round of a write, if it copies
no more than there is room.
-/

namespace Dandelion.FileSystem

open Relation

variable {s s' : State} {m m' : Memory} {sized : Prop} {n p : Ptr} {c c' k : FileChunk}
  {b b' : Block} {α : Type}

section Steps

theorem Fits.refill (h : Fits m) (hc : m.chunks p = some c)
    (hSame : c'.data = c.data ∧ c'.capacity = c.capacity) (hUsed : c'.used ≤ c.capacity)
    (hChunks : m'.chunks = Function.update m.chunks p (some c')) (hBlocks : m'.blocks = m.blocks) :
    Fits m' := by
  intro q e he
  rw [hChunks] at he
  rw [hBlocks]
  by_cases hq : q = p
  · rw [hq, Function.update_self, Option.some.injEq] at he
    obtain ⟨hne, _, hSize⟩ := h p c hc
    rw [← he, hSame.1, hSame.2]
    exact ⟨hne, hUsed, hSize⟩
  · rw [Function.update_of_ne hq] at he
    exact h q e he

theorem Fits.fill (h : Fits m) (hb : m.blocks p = some b) (hSize : b'.size = b.size)
    (hChunks : m'.chunks = m.chunks) (hBlocks : m'.blocks = Function.update m.blocks p (some b')) :
    Fits m' := by
  intro q e he
  rw [hChunks] at he
  obtain ⟨hData, hUsed, hBlock⟩ := h q e he
  refine ⟨hData, hUsed, fun x hx => ?_⟩
  rw [hBlocks] at hx
  by_cases hq : e.data = p
  · rw [hq, Function.update_self, Option.some.injEq] at hx
    rw [← hx, hSize]
    exact hBlock b (hq ▸ hb)
  · exact hBlock x ((Function.update_of_ne hq _ _).symm.trans hx)

theorem Sound.supply (h : Sound m) (hFresh : Fresh m n k) (hFits : k.FitsIn b)
    (hChunks : m'.chunks = Function.update m.chunks n (some k))
    (hBlocks : m'.blocks = Function.update m.blocks k.data (some b)) : Fits m' := by
  intro q e he
  rw [hChunks] at he
  rw [hBlocks]
  by_cases hq : q = n
  · rw [hq, Function.update_self, Option.some.injEq] at he
    subst he
    refine ⟨hFresh.data.ne_zero, hFits.1, fun x hx => ?_⟩
    rw [Function.update_self, Option.some.injEq] at hx
    exact hx ▸ hFits.2
  · rw [Function.update_of_ne hq] at he
    obtain ⟨x, hx⟩ := h.holding.data q e he
    rw [Function.update_of_ne (hFresh.data.ne_block hx).symm]
    exact h.fits q e he

theorem Rework.fits (h : Rework sized m m') (hSized : sized) (hSound : Sound m) : Fits m' := by
  cases h with
  | rest _ hChunks hBlocks => exact hSound.fits.congr hChunks hBlocks
  | @chunk p c _ hc hSame hUsed _ hChunks hBlocks =>
    exact hSound.fits.refill hc hSame (hUsed hSized (hSound.fits p c hc).2.1) hChunks hBlocks
  | block hb hSize _ hChunks hBlocks => exact hSound.fits.fill hb hSize hChunks hBlocks
  | @append p n c k b hc hFresh hFits _ hChunks hBlocks =>
    have hNew : Fits ((m.setChunk n k).setBlock k.data b) :=
      hSound.supply hFresh (hFits hSized) rfl rfl
    have hc' : ((m.setChunk n k).setBlock k.data b).chunks p = some c :=
      (Function.update_of_ne (hFresh.ptr.ne_chunk hc).symm _ _).trans hc
    have hSame : ({ c with next := n } : FileChunk).data = c.data ∧
      ({ c with next := n } : FileChunk).capacity = c.capacity :=
      ⟨rfl, rfl⟩
    exact hNew.refill hc' hSame (hSound.fits p c hc).2.1 hChunks hBlocks
  | first _ _ _ hFresh hFits _ hChunks hBlocks =>
    exact hSound.supply hFresh (hFits hSized) hChunks hBlocks
  | @release p c _ _ hChunks hBlocks =>
    exact ((hSound.fits.drop c.data).drop p).congr hChunks hBlocks

theorem Reworks.sound (h : Reworks sized s s') (hSized : sized) (hSound : Sound s.memory) :
    Sound s'.memory := by
  have hAll : ∀ m, ReflTransGen (Rework sized) s.memory m → Sound m := by
    intro m hm
    induction hm with
    | refl => exact hSound
    | tail _ hStep ih => exact ⟨hStep.holding ih.holding, hStep.fits hSized ih⟩
  exact hAll _ h.1

theorem Sound.reworks {x : M α} (h : Sound s.memory)
    (hx : Ensures x s' fun _ s'' => Reworks True s s'') :
    Ensures x s' fun _ s'' => Sound s''.memory := hx.imp fun _ _ hR => hR.sound trivial h

end Steps

section Calls

theorem Sound.append (h : Sound s.memory) (hNew : Provides s s' n k b)
    (hc : s.memory.chunks p = some c) (hFits : k.FitsIn b) :
    Ensures (modifyChunk p fun c => { c with next := n }) s' fun _ s'' =>
      Sound s''.memory ∧ s''.memory.chunks n = some k :=
  (hNew.append hc fun (_ : True) => hFits).imp fun _ _ h' => ⟨h'.1.sound trivial h, h'.2⟩

theorem Sound.table (h : Sound s.memory) (fd : Int) (o : OpenFile) :
    Ensures (setOpenFile fd o) s fun _ s' => Sound s'.memory := by
  by_cases hRange : 0 ≤ fd ∧ fd < fsMaxFiles
  · exact .of_ok (setOpenFile_ok hRange o) h
  · exact .of_error (if_neg hRange) trivial

end Calls

end Dandelion.FileSystem
