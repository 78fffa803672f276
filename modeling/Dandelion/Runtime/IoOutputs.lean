import Mathlib.Algebra.BigOperators.Group.Finset.Piecewise
import Mathlib.Algebra.Order.BigOperators.Group.Finset
import Dandelion.Runtime.IoInit

/-! # Collecting outputs

`dandelion_add_output` appends to one output set. A full set is first moved to
an array of twice the size; the other sets and the inputs are left alone.
-/

namespace Dandelion.Runtime.IoSets

open Foundation.Words Foundation.Triples

variable {P : Platform} {s s' : State} {p q : Ptr} {i j k : Nat} {xs ys : Nat → IoSet}
  {ins outs : Nat → List IoBuffer} {x : IoSet} {l : List IoBuffer} {buf : IoBuffer}

/-- Only output set `i` was changed, and all others still hold what they held. -/
structure Changes (s s' : State) (ys : Nat → IoSet) (i : Nat) (x : IoSet) : Prop where
  array : SetArray s'.memory s.rtdata.outputSets s.sysdata.outputSetsLen (Function.update ys i x)
  sets : ∀ q, q ≠ s.rtdata.outputSets → s'.memory.sets q = s.memory.sets q
  keeps : ∀ y k, Apart y (ys i) → Holds s.memory y k → Holds s'.memory y k ∧ Apart y x
  inUse : s.memory.inUse + sizeofIoBuffer * x.buffersCap ≤
    s'.memory.inUse + sizeofIoBuffer * (ys i).buffersCap
  bound : s'.memory.inUse ≤ addressSpace
  sysdata : s'.sysdata = s.sysdata
  rtdata : s'.rtdata = s.rtdata

theorem Apart.symm {x y : IoSet} (h : Apart x y) : Apart y x := fun hy hx hEq => h hx hy hEq.symm

theorem Trees.change (h : Trees s xs ys ins outs) (hi : i < s.sysdata.outputSetsLen)
    (hChanges : Changes s s' ys i x) (hHolds : Holds s'.memory x l) :
    Trees s' xs (Function.update ys i x) ins (Function.update outs i l) := by
  have hOther : ∀ j < s.sysdata.outputSetsLen, j ≠ i → Holds s'.memory (ys j) (outs j) ∧
      Apart (ys j) x :=
    fun j hj hne => hChanges.keeps _ _ (h.apart j hj i hi hne) (h.outputs j hj)
  have hInput : ∀ j < s.sysdata.inputSetsLen, Holds s'.memory (xs j) (ins j) ∧ Apart (xs j) x :=
    fun j hj => hChanges.keeps _ _ (h.across j hj i hi) (h.inputs j hj)
  refine ⟨?_, ?_, ?_, ?_, ?_, ?_, ?_, ?_, hChanges.bound⟩ <;> simp only [hChanges.sysdata,
    hChanges.rtdata]
  · refine ⟨fun hIn => ?_⟩
    rw [hChanges.sets _ (h.arrays hIn (by omega))]
    exact h.input.block hIn
  · exact hChanges.array
  · exact h.arrays
  · exact fun j hj => (hInput j hj).1
  · intro j hj
    by_cases hji : j = i
    · subst hji
      rw [Function.update_self, Function.update_self]
      exact hHolds
    · rw [Function.update_of_ne hji, Function.update_of_ne hji]
      exact (hOther j hj hji).1
  · intro a ha j hj
    by_cases hji : j = i
    · subst hji
      rw [Function.update_self]
      exact (hInput a ha).2
    · rw [Function.update_of_ne hji]
      exact h.across a ha j hj
  · intro a ha j hj hne
    by_cases hai : a = i
    · subst hai
      rw [Function.update_self, Function.update_of_ne hne.symm]
      exact (hOther j hj hne.symm).2.symm
    · rw [Function.update_of_ne hai]
      by_cases hji : j = i
      · subst hji
        rw [Function.update_self]
        exact (hOther a ha hai).2
      · rw [Function.update_of_ne hji]
        exact h.apart a ha j hj hne
  · have hMem := Finset.mem_range.mpr hi
    have hTotal := h.total
    have hUse := hChanges.inUse
    have hCaps : ∀ j, (Function.update ys i x j).buffersCap =
        Function.update (fun j => (ys j).buffersCap) i x.buffersCap j := by
      intro j
      by_cases hji : j = i
      · subst hji
        rw [Function.update_self, Function.update_self]
      · rw [Function.update_of_ne hji, Function.update_of_ne hji]
    rw [Finset.sum_congr rfl fun j _ => hCaps j, Finset.sum_update_of_mem hMem, Nat.mul_add]
    rw [Finset.sum_eq_add_sum_sdiff_singleton_of_mem hMem, Nat.mul_add] at hTotal
    omega

theorem Trees.cap_lt (h : Trees s xs ys ins outs) (hi : i < s.sysdata.outputSetsLen) :
    sizeofIoBuffer * (ys i).buffersCap ≤ addressSpace := by
  have hLe : (ys i).buffersCap ≤ ∑ j ∈ Finset.range s.sysdata.outputSetsLen, (ys j).buffersCap :=
    Finset.single_le_sum (f := fun j => (ys j).buffersCap) (fun _ _ => Nat.zero_le _)
      (Finset.mem_range.mpr hi)
  exact Nat.le_trans (Nat.mul_le_mul_left _ hLe) (Nat.le_trans h.total h.bound)

section Append

theorem Block.fill_before {α : Type} (b : Block α) {start : Nat} {l : List α} (h : i < start) :
    (b.fill start l).cell i = b.cell i := by
  simp only [Block.fill]
  rw [if_neg (by omega)]

theorem appendBuffer_ok (h : Trees s xs ys ins outs) (hi : i < s.sysdata.outputSetsLen)
    (hRoom : (ys i).buffersLen < (ys i).buffersCap) (buf : IoBuffer) :
    ∃ s' x, appendBuffer s.rtdata.outputSets i buf s = .ok ((), s') ∧
      Trees s' xs (Function.update ys i x) ins (Function.update outs i (outs i ++ [buf])) ∧
        x.label = (ys i).label ∧
      s'.sysdata = s.sysdata ∧ s'.rtdata = s.rtdata ∧ s'.refused = s.refused := by
  have hHolds := h.outputs i hi
  obtain ⟨hb, b, hBlock, hSize⟩ := hHolds.room (by omega)
  have hCapLt := h.cap_lt hi
  obtain ⟨s₁, hRun₁, hArray₁, hBuffers₁, hUse₁, hSets₁, hSys₁, hRt₁, hRefused₁⟩ :=
    h.output.modify_ok hi fun x => { x with buffersLen := add64 x.buffersLen 1 }
  have hLen : add64 (ys i).buffersLen 1 = (outs i).length + 1 := by
    unfold addressSpace sizeofIoBuffer at hCapLt
    rw [add64_of_lt (by omega), hHolds.len]
  have hBlock₁ : s₁.memory.buffers (ys i).buffers = some b := by rw [hBuffers₁, hBlock]
  have hFit : sizeofIoBuffer * ((ys i).buffersLen + 1) ≤ b.size :=
    Nat.le_trans (Nat.mul_le_mul_left _ hRoom) hSize
  refine ⟨{ s₁ with memory := s₁.memory.fillAt (ys i).buffers (ys i).buffersLen [buf] },
    { ys i with buffersLen := add64 (ys i).buffersLen 1 }, ?_, h.change hi ?_ ?_, rfl, hSys₁, hRt₁,
    hRefused₁⟩
  · rw [appendBuffer, bind_ok (h.output.get_ok hi), bind_ok hRun₁, setBuffer_ok hb hBlock₁ hFit]
  · refine ⟨⟨by rw [fillAt_sets]; exact hArray₁.block⟩, fun q hq => ?_,
      fun y k hApart hy => ⟨?_, hApart⟩, ?_, ?_, hSys₁, hRt₁⟩
    · rw [fillAt_sets, hSets₁ q hq]
    · have hSame : y.buffersCap ≠ 0 →
          (s₁.memory.fillAt (ys i).buffers (ys i).buffersLen [buf]).buffers y.buffers =
            s.memory.buffers y.buffers := by
        intro hCap
        rw [fillAt_of_ne _ _ _ (hApart hCap (by omega)), hBuffers₁]
      refine ⟨hy.len, hy.cap, fun hCap => ?_, fun c hCap hc => ?_⟩
      · rw [hSame hCap]
        exact hy.room hCap
      · rw [hSame hCap] at hc
        exact hy.cells c hCap hc
    · rw [fillAt_inUse, hUse₁]
    · rw [fillAt_inUse, hUse₁]
      exact h.bound
  · have hFilled :
        (s₁.memory.fillAt (ys i).buffers (ys i).buffersLen [buf]).buffers (ys i).buffers =
        some (b.fill (ys i).buffersLen [buf]) := by
      rw [fillAt_of_block hBlock₁]
      exact Function.update_self _ _ _
    refine ⟨?_, ?_, fun _ => ⟨hb, _, hFilled, hSize⟩, fun c hCap hc t y hy => ?_⟩
    · rw [List.length_append, List.length_singleton]
      exact hLen
    · rw [List.length_append, List.length_singleton, ← hHolds.len]
      exact hRoom
    · obtain rfl := Option.mem_unique hFilled hc
      rcases Nat.lt_or_ge t (outs i).length with ht | ht
      · rw [List.getElem?_append_left ht] at hy
        rw [Block.fill_before _ (by rw [hHolds.len]; exact ht)]
        exact hHolds.cells b hCap hBlock t y hy
      · rw [List.getElem?_append_right ht] at hy
        have hCell := b.fill_cell (outs i).length hy
        rw [Nat.add_sub_cancel' ht] at hCell
        rw [hHolds.len, hCell]

end Append

section Grow

theorem grownCap_eq {cap : Nat} (h : sizeofIoBuffer * cap ≤ addressSpace) :
    grownCap cap = if cap = 0 then 1 else cap * 2 := by
  unfold sizeofIoBuffer addressSpace at h
  rw [grownCap, mul64_of_lt (by omega)]
  by_cases hCap : cap = 0
  · subst hCap
    rfl
  · rw [if_neg (by omega), if_neg hCap]

theorem Trees.grown_lt (h : Trees s xs ys ins outs) (hi : i < s.sysdata.outputSetsLen) :
    sizeofIoBuffer * grownCap (ys i).buffersCap < 2 ^ 64 := by
  have hCapLe := h.cap_lt hi
  rw [grownCap_eq hCapLe]
  unfold sizeofIoBuffer addressSpace at *
  split <;> omega

theorem Holds.source {m : Memory} (h : Holds m x l) :
    ∃ b, (l.length ≠ 0 → m.buffers x.buffers = some b) ∧
    (List.range l.length).map (fun t => b.cell t) = l := by
  by_cases hl : l.length = 0
  · refine ⟨⟨0, fun _ => ⟨0, 0, 0, 0, 0⟩⟩, fun hne => absurd hl hne, ?_⟩
    rw [hl, List.length_eq_zero_iff.mp hl]
    rfl
  · have hCap : x.buffersCap ≠ 0 := by
      have := h.cap
      omega
    obtain ⟨_, b, hb, _⟩ := h.room hCap
    refine ⟨b, fun _ => hb, List.ext_getElem (by simp) fun t ht ht' => ?_⟩
    rw [List.getElem_map, List.getElem_range]
    exact h.cells b hCap hb t _ (List.getElem?_eq_getElem ht')

theorem growSet_ok (h : Trees s xs ys ins outs) (hi : i < s.sysdata.outputSetsLen)
    (hFull : (ys i).buffersLen = (ys i).buffersCap) {s₁ : State}
    (hRun₁ : allocBuffers P (mul64 (grownCap (ys i).buffersCap) sizeofIoBuffer) s = .ok (p, s₁))
    (hNew : NewBuffers s s₁ p (grownCap (ys i).buffersCap)) :
    ∃ s' x, growSet P s.rtdata.outputSets i (ys i) s = .ok ((), s') ∧
      Trees s' xs (Function.update ys i x) ins outs ∧ x.buffersLen < x.buffersCap ∧
        x.label = (ys i).label ∧
      s'.sysdata = s.sysdata ∧ s'.rtdata = s.rtdata ∧ s'.refused = s.refused := by
  have hHolds := h.outputs i hi
  have hCapLe := h.cap_lt hi
  have hGrown : (ys i).buffersCap < grownCap (ys i).buffersCap := by
    rw [grownCap_eq hCapLe]
    split <;> omega
  generalize hc : grownCap (ys i).buffersCap = cap at *
  have hShort : (ys i).buffersLen < 2 ^ 64 := by
    unfold sizeofIoBuffer addressSpace at hCapLe
    omega
  obtain ⟨b, hb, hList⟩ := hHolds.source
  have hFresh : ∀ y k, Holds s.memory y k → y.buffersCap ≠ 0 → y.buffers ≠ p := by
    intro y k hy hCap hEq
    obtain ⟨_, c, hc, _⟩ := hy.room hCap
    rw [hEq, hNew.vacant (by omega)] at hc
    cases hc
  have hLen : (ys i).buffersLen = (outs i).length := hHolds.len
  have hMove : moveBuffers (ys i).buffers p (ys i).buffersLen 0 s₁ =
      .ok ((), { s₁ with memory := s₁.memory.fillAt p 0 (outs i) }) := by
    have hSource : Room s₁.memory (ys i).buffers (0 + (ys i).buffersLen) := by
      rw [Nat.zero_add, hFull]
      exact hHolds.room.extends hNew.extends'
    have hTarget : Room s₁.memory p (0 + (0 + (ys i).buffersLen)) := hNew.room.mono (by omega)
    have hCopy := encodeBuffers_ok (b := b) (fun hne => hFresh _ _ hHolds (by omega)) hSource
      (fun hne => hNew.extends' _ _ (hb (by omega))) hTarget (by omega)
    simp only [Nat.zero_add] at hCopy
    rw [moveBuffers_eq _ _ (by omega), hCopy, hLen, hList]
  set s₂ : State := { s₁ with memory := s₁.memory.fillAt p 0 (outs i) }
  have hExtends : Extends s.memory s₂.memory := by
    intro q c hc
    have hq : q ≠ p := by
      rintro rfl
      rw [hNew.vacant (by omega)] at hc
      cases hc
    exact (fillAt_of_ne _ _ _ hq).trans (hNew.extends' q c hc)
  have hArray₂ : SetArray s₂.memory s.rtdata.outputSets s.sysdata.outputSetsLen ys :=
    ⟨by rw [fillAt_sets, hNew.sets]; exact h.output.block⟩
  obtain ⟨s₃, hRun₃, hArray₃, hBuffers₃, hUse₃, hSets₃, hSys₃, hRt₃, hRefused₃⟩ :=
    hArray₂.modify_ok hi fun x => { x with buffers := p, buffersCap := cap }
  have hExtends₃ : Extends s.memory s₃.memory := fun q c hc => by rw [hBuffers₃, hExtends q c hc]
  have hUse : s₃.memory.inUse = s.memory.inUse + sizeofIoBuffer * cap := by
    rw [hUse₃, fillAt_inUse, hNew.inUse]
  have hHolds₃ : Holds s₃.memory { ys i with buffers := p, buffersCap := cap } (outs i) := by
    have hFill : Holds s₂.memory { ys i with buffers := p, buffersCap := cap } (outs i) :=
      Holds.of_fill (x := { ys i with buffers := p, buffersCap := cap }) hNew.room hLen
        (by show (outs i).length ≤ cap; omega)
    exact hFill.extends fun q c hc => by rw [hBuffers₃, hc]
  have hChanges : Changes s s₃ ys i { ys i with buffers := p, buffersCap := cap } := by
    refine ⟨hArray₃, fun q hq => ?_, fun y k _ hy =>
      ⟨hy.extends hExtends₃, fun hCap _ => hFresh y k hy hCap⟩, ?_, ?_,
      hSys₃.trans hNew.sysdata, hRt₃.trans hNew.rtdata⟩
    · rw [hSets₃ q hq, fillAt_sets, hNew.sets]
    · rw [hUse]
      exact Nat.le_add_right _ _
    · rw [hUse₃, fillAt_inUse]
      exact hNew.bound h.bound
  have hTrees := h.change hi hChanges hHolds₃
  rw [Function.update_eq_self] at hTrees
  refine ⟨s₃, _, ?_, hTrees, ?_, rfl, hChanges.sysdata, hChanges.rtdata,
    hRefused₃.trans hNew.refused⟩
  · rw [growSet, hc, bind_ok hRun₁, bind_ok hMove, hRun₃]
  · show (ys i).buffersLen < cap
    omega

theorem setBuffer_null {x : IoBuffer} : setBuffer 0 i x s = .error ⟨.null, s.refused⟩ :=
  bind_error rfl

theorem growSet_refused (h : Trees s xs ys ins outs) (hi : i < s.sysdata.outputSetsLen)
    (hFull : (ys i).buffersLen = (ys i).buffersCap) {s₁ : State}
    (hRun₁ : allocBuffers P (mul64 (grownCap (ys i).buffersCap) sizeofIoBuffer) s = .ok (0, s₁))
    (hMemory : s₁.memory = s.memory) (buf : IoBuffer) :
    (do
      growSet P s.rtdata.outputSets i (ys i)
      appendBuffer s.rtdata.outputSets i buf : M Unit) s = .error ⟨.null, s₁.refused⟩ := by
  by_cases hLen : (ys i).buffersLen = 0
  · have hArray₁ : SetArray s₁.memory s.rtdata.outputSets s.sysdata.outputSetsLen ys := ⟨by
      rw [hMemory]
      exact h.output.block⟩
    obtain ⟨s₂, hRun₂, hArray₂, _, _, _, _, _, hRefused₂⟩ := hArray₁.modify_ok hi fun x =>
      { x with buffers := 0, buffersCap := grownCap (ys i).buffersCap }
    obtain ⟨s₃, hRun₃, _, _, _, _, _, _, hRefused₃⟩ := hArray₂.modify_ok hi fun x =>
      { x with buffersLen := add64 x.buffersLen 1 }
    have hGrow : growSet P s.rtdata.outputSets i (ys i) s = .ok ((), s₂) := by
      rw [growSet, bind_ok hRun₁, hLen, moveBuffers, bind_ok rfl, hRun₂]
    rw [bind_ok hGrow, appendBuffer, bind_ok (hArray₂.get_ok hi), bind_ok hRun₃,
      Function.update_self, setBuffer_null, hRefused₃, hRefused₂]
  · obtain ⟨k, hk⟩ := Nat.exists_eq_add_one.mpr (Nat.pos_of_ne_zero hLen)
    obtain ⟨hb, b, hBlock, hSize⟩ := (h.outputs i hi).room (by omega)
    have hFit : sizeofIoBuffer * (0 + 1) ≤ b.size :=
      Nat.le_trans (Nat.mul_le_mul_left _ (by omega)) hSize
    refine bind_error ?_
    rw [growSet, bind_ok hRun₁, hk, moveBuffers]
    refine bind_error ?_
    rw [bind_ok (getBuffer_ok hb (by rw [hMemory, hBlock]) hFit)]
    exact bind_error setBuffer_null

/-- There is room for one more buffer in an output set, or `dandelion_alloc` has the array for
it. -/
def provides (P : Platform) (s : State) (i : Nat) : Bool :=
  decide (s.sysdata.outputSetsLen ≤ i) ||
    match getSet s.rtdata.outputSets i s with
    | .ok (x, _) =>
      decide (x.buffersLen ≠ x.buffersCap) ||
        (P.answer s.memory (mul64 (grownCap x.buffersCap) sizeofIoBuffer) 8).isSome
    | .error _ => false

theorem provides_iff (h : Trees s xs ys ins outs) (hi : i < s.sysdata.outputSetsLen) :
    provides P s i = true ↔ (ys i).buffersLen ≠ (ys i).buffersCap ∨
      ∃ p, P.answer s.memory (mul64 (grownCap (ys i).buffersCap) sizeofIoBuffer) 8 = some p := by
  rw [provides, h.output.get_ok hi, decide_eq_false (Nat.not_le_of_lt hi), Bool.false_or,
    Bool.or_eq_true, decide_eq_true_eq, Option.isSome_iff_exists]

theorem dandelionAddOutput_set (h : Trees s xs ys ins outs) (hi : i < s.sysdata.outputSetsLen)
    (buf : IoBuffer) :
    dandelionAddOutput P i buf s = (if (ys i).buffersLen = (ys i).buffersCap then do
        growSet P s.rtdata.outputSets i (ys i)
        appendBuffer s.rtdata.outputSets i buf
      else appendBuffer s.rtdata.outputSets i buf : M Unit) s := by
  rw [dandelionAddOutput, bind_ok (show getState s = .ok (s, s) from rfl),
    if_neg (Nat.not_le_of_lt hi), bind_ok (h.output.get_ok hi)]

theorem label_update (h : x.label = (ys i).label) (j : Nat) :
    (Function.update ys i x j).label = (ys j).label := by
  by_cases hj : j = i
  · subst hj
    rw [Function.update_self, h]
  · rw [Function.update_of_ne hj]

theorem dandelionAddOutput_appends (h : Trees s xs ys ins outs) (hi : i < s.sysdata.outputSetsLen)
    (buf : IoBuffer) (hProvides : provides P s i = true) :
    ∃ s' ys', dandelionAddOutput P i buf s = .ok ((), s') ∧ (∀ j, (ys' j).label = (ys j).label) ∧
      Trees s' xs ys' ins (Function.update outs i (outs i ++ [buf])) ∧ s'.sysdata = s.sysdata ∧
        s'.rtdata = s.rtdata ∧
      s'.refused = s.refused := by
  rw [dandelionAddOutput_set h hi]
  by_cases hFull : (ys i).buffersLen = (ys i).buffersCap
  · rw [if_pos hFull]
    obtain ⟨p, hAnswer⟩ := ((provides_iff h hi).mp hProvides).resolve_left (not_not.mpr hFull)
    obtain ⟨s₁, hRun₁, hNew⟩ := allocBuffers_answered hAnswer (h.grown_lt hi)
    obtain ⟨s₂, x, hRun₂, hTrees₂, hRoom, hLabel₂, hSys₂, hRt₂, hRefused₂⟩ :=
      growSet_ok h hi hFull hRun₁ hNew
    obtain ⟨s₃, x', hRun₃, hTrees₃, hLabel₃, hSys₃, hRt₃, hRefused₃⟩ :=
      appendBuffer_ok (i := i) hTrees₂ (by rwa [hSys₂]) (by rwa [Function.update_self]) buf
    rw [hRt₂] at hRun₃
    exact ⟨s₃, _, (bind_ok hRun₂).trans hRun₃,
      fun j => (label_update hLabel₃ j).trans (label_update hLabel₂ j), hTrees₃, hSys₃.trans hSys₂,
      hRt₃.trans hRt₂, hRefused₃.trans hRefused₂⟩
  · rw [if_neg hFull]
    have hHolds := h.outputs i hi
    have hRoom : (ys i).buffersLen < (ys i).buffersCap := by
      have hCap := hHolds.cap
      have hLen := hHolds.len
      omega
    obtain ⟨s', x, hRun, hTrees, hLabel, hSys, hRt, hRefused⟩ := appendBuffer_ok h hi hRoom buf
    exact ⟨s', _, hRun, label_update hLabel, hTrees, hSys, hRt, hRefused⟩

theorem dandelionAddOutput_provided (h : Trees s xs ys ins outs) (hi : i < s.sysdata.outputSetsLen)
    (buf : IoBuffer) (hProvides : provides P s i = true) :
    ∃ s' ys', dandelionAddOutput P i buf s = .ok ((), s') ∧
      Trees s' xs ys' ins (Function.update outs i (outs i ++ [buf])) ∧ s'.sysdata = s.sysdata ∧
        s'.rtdata = s.rtdata ∧
      s'.refused = s.refused := by
  obtain ⟨s', ys', hRun, -, hRest⟩ := dandelionAddOutput_appends h hi buf hProvides
  exact ⟨s', ys', hRun, hRest⟩

theorem dandelionAddOutput_refused (h : Trees s xs ys ins outs) (hi : i < s.sysdata.outputSetsLen)
    (buf : IoBuffer) (hProvides : ¬ provides P s i = true) :
    dandelionAddOutput P i buf s = .error ⟨.null, s.refused + 1⟩ := by
  rw [provides_iff h hi, not_or, not_not, not_exists] at hProvides
  obtain ⟨hFull, hNone⟩ := hProvides
  have hAnswer := Option.eq_none_iff_forall_ne_some.mpr hNone
  have hSize : mul64 (grownCap (ys i).buffersCap) sizeofIoBuffer ≠ 0 := by
    rw [mul64_of_lt (by rw [Nat.mul_comm]; exact h.grown_lt hi), grownCap_eq (h.cap_lt hi)]
    unfold sizeofIoBuffer
    split <;> omega
  rw [dandelionAddOutput_set h hi, if_pos hFull,
    growSet_refused h hi hFull (allocBuffers_none hAnswer) rfl, if_neg hSize]

theorem dandelionAddOutput_ok (h : Trees s xs ys ins outs) (hi : i < s.sysdata.outputSetsLen)
    (buf : IoBuffer) :
    Meets (dandelionAddOutput P i buf) s (fun _ s' => (∃ ys',
        Trees s' xs ys' ins (Function.update outs i (outs i ++ [buf]))) ∧
        s'.sysdata = s.sysdata ∧ s'.rtdata = s.rtdata ∧ s'.refused = s.refused)
      (fun e => s.refused < e.refused) := by
  by_cases hProvides : provides P s i = true
  · obtain ⟨s', ys', hRun, hTrees, hRest⟩ := dandelionAddOutput_provided h hi buf hProvides
    exact .of_ok hRun ⟨⟨ys', hTrees⟩, hRest⟩
  · exact .of_error (dandelionAddOutput_refused h hi buf hProvides) (Nat.lt_succ_self _)

end Grow

theorem dandelionAddOutput_ignored (hi : s.sysdata.outputSetsLen ≤ i) (buf : IoBuffer) :
    dandelionAddOutput P i buf s = .ok ((), s) := by
  rw [dandelionAddOutput, bind_ok (show getState s = .ok (s, s) from rfl), if_pos hi]
  rfl

end Dandelion.Runtime.IoSets
