import Dandelion.Runtime.IoTree

/-! # Decoding the inputs

`dandelion_init` gives every input set the buffers between its offset and the
next one, and prepares as many empty output sets as the platform asks for.
-/

namespace Dandelion.Runtime.IoSets

open Foundation.Words Foundation.Triples

variable {P : Platform} {s s' s'' : State} {p q : Ptr} {i k n : Nat} {cells : Nat → IoSet}

def offsetAt (infos : List IoSetInfo) (i : Nat) : Nat :=
  (infos[i]?.map fun info => info.offset).getD 0

def IoSet.label (x : IoSet) : Ptr × Nat := (x.ident, x.identLen)

def labelAt (infos : List IoSetInfo) (i : Nat) : Ptr × Nat :=
  (infos[i]?.map fun info => (info.ident, info.identLen)).getD (0, 0)

def inputPart (d : SystemData) (i : Nat) : List IoBuffer :=
  part d.inputBufs (offsetAt d.inputSets i) (offsetAt d.inputSets (i + 1) - offsetAt d.inputSets i)

/-- A flat description as the platform provides it before entry. -/
structure Described (s : State) : Prop where
  inputs : s.sysdata.inputSets.length = s.sysdata.inputSetsLen + 1
  outputs : s.sysdata.outputSets.length = s.sysdata.outputSetsLen + 1
  ordered : ∀ i < s.sysdata.inputSetsLen, offsetAt s.sysdata.inputSets i ≤
    offsetAt s.sysdata.inputSets (i + 1)
  inside : offsetAt s.sysdata.inputSets s.sysdata.inputSetsLen ≤ s.sysdata.inputBufs.length
  space : sizeofIoSetInfo * (s.sysdata.inputSets.length + s.sysdata.outputSets.length) +
    sizeofIoBuffer * s.sysdata.inputBufs.length ≤ s.memory.inUse
  bound : s.memory.inUse ≤ addressSpace

section Description

theorem offsetAt_eq {infos : List IoSetInfo} {info : IoSetInfo} (h : infos[i]? = some info) :
    offsetAt infos i = info.offset := by
  rw [offsetAt, h, Option.map_some, Option.getD_some]

theorem labelAt_eq {infos : List IoSetInfo} {info : IoSetInfo} (h : infos[i]? = some info) :
    labelAt infos i = (info.ident, info.identLen) := by
  rw [labelAt, h, Option.map_some, Option.getD_some]

theorem Described.offset_le (h : Described s) (hi : i ≤ k) (hk : k ≤ s.sysdata.inputSetsLen) :
    offsetAt s.sysdata.inputSets i ≤ offsetAt s.sysdata.inputSets k := by
  induction k with
  | zero => rw [Nat.le_zero.mp hi]
  | succ k ih =>
    rcases Nat.lt_or_eq_of_le hi with hLt | rfl
    · exact Nat.le_trans (ih (by omega) (by omega)) (h.ordered k (by omega))
    · exact le_rfl

theorem Described.offset_inside (h : Described s) (hi : i ≤ s.sysdata.inputSetsLen) :
    offsetAt s.sysdata.inputSets i ≤ s.sysdata.inputBufs.length :=
  Nat.le_trans (h.offset_le hi le_rfl) h.inside

theorem Described.bufs_lt (h : Described s) :
    sizeofIoBuffer * s.sysdata.inputBufs.length < 2 ^ 64 := by
  have hSpace := h.space
  have hBound := h.bound
  unfold addressSpace at hBound
  omega

theorem Described.sets_lt (h : Described s) : sizeofIoSet * s.sysdata.inputSetsLen < 2 ^ 64 ∧
    sizeofIoSet * s.sysdata.outputSetsLen < 2 ^ 64 := by
  have hSpace := h.space
  have hBound := h.bound
  rw [h.inputs, h.outputs] at hSpace
  unfold addressSpace at hBound
  unfold sizeofIoSetInfo at hSpace
  unfold sizeofIoSet
  omega

theorem Described.part_length (h : Described s) (hi : i < s.sysdata.inputSetsLen) :
    (inputPart s.sysdata i).length =
      offsetAt s.sysdata.inputSets (i + 1) - offsetAt s.sysdata.inputSets i := by
  have hInside := h.offset_inside (show i + 1 ≤ s.sysdata.inputSetsLen by omega)
  rw [inputPart, part, List.length_take, List.length_drop]
  omega

end Description

section Allocation

structure NewBuffers (s s' : State) (p : Ptr) (n : Nat) : Prop where
  zero : n = 0 → p = 0
  room : Room s'.memory p n
  vacant : n ≠ 0 → s.memory.buffers p = none
  others : ∀ q, q ≠ p → s'.memory.buffers q = s.memory.buffers q
  extends' : Extends s.memory s'.memory
  sets : s'.memory.sets = s.memory.sets
  inUse : s'.memory.inUse = s.memory.inUse + sizeofIoBuffer * n
  bound : s.memory.inUse ≤ addressSpace → s'.memory.inUse ≤ addressSpace
  sysdata : s'.sysdata = s.sysdata
  rtdata : s'.rtdata = s.rtdata
  refused : s'.refused = s.refused

theorem allocBuffers_answered (hAnswer : P.answer s.memory (mul64 n sizeofIoBuffer) 8 = some p)
    (hWord : sizeofIoBuffer * n < 2 ^ 64) :
    ∃ s', allocBuffers P (mul64 n sizeofIoBuffer) s = .ok (p, s') ∧ NewBuffers s s' p n := by
  have hSize : mul64 n sizeofIoBuffer = sizeofIoBuffer * n := by
    rw [mul64_of_lt (by rwa [Nat.mul_comm]), Nat.mul_comm]
  rw [hSize] at hAnswer ⊢
  obtain ⟨hp, _, hVacant⟩ := P.vacant _ _ _ _ hAnswer
  refine ⟨_, allocBuffers_some hAnswer, ?_, fun _ => ⟨hp, _, Function.update_self _ _ _, le_rfl⟩,
    fun _ => hVacant, fun q hq => Function.update_of_ne hq _ _, fun q b hb => ?_, rfl, rfl,
    fun _ => ?_, rfl, rfl, rfl⟩
  · rintro rfl
    rw [Nat.mul_zero, P.empty] at hAnswer
    cases hAnswer
  · refine (Function.update_of_ne ?_ _ _).trans hb
    rintro rfl
    rw [hVacant] at hb
    cases hb
  · exact P.fits _ _ _ _ hAnswer

theorem allocBuffers_cases (P : Platform) (s : State) (hWord : sizeofIoBuffer * n < 2 ^ 64) :
    (∃ p s', allocBuffers P (mul64 n sizeofIoBuffer) s = .ok (p, s') ∧ NewBuffers s s' p n) ∨
      n ≠ 0 ∧ ∃ s', allocBuffers P (mul64 n sizeofIoBuffer) s = .ok (0, s') ∧
        s.refused < s'.refused ∧
        s'.memory = s.memory := by
  have hSize : mul64 n sizeofIoBuffer = sizeofIoBuffer * n := by
    rw [mul64_of_lt (by rwa [Nat.mul_comm]), Nat.mul_comm]
  cases hAnswer : P.answer s.memory (mul64 n sizeofIoBuffer) 8 with
  | none =>
    rw [hSize] at hAnswer ⊢
    by_cases hn : n = 0
    · subst hn
      left
      refine ⟨0, s, ?_, fun _ => rfl, fun h => absurd rfl h, fun h => absurd rfl h, fun _ _ => rfl,
        fun _ _ h => h, rfl, rfl, id, rfl, rfl, rfl⟩
      rw [allocBuffers_none hAnswer, if_pos (Nat.mul_zero _)]
      rfl
    · right
      refine ⟨hn, _, allocBuffers_none hAnswer, ?_, rfl⟩
      have hne : sizeofIoBuffer * n ≠ 0 := Nat.mul_ne_zero (by decide) hn
      show s.refused < s.refused + _
      rw [if_neg hne]
      omega
  | some p =>
    left
    obtain ⟨s', hRun, hNew⟩ := allocBuffers_answered hAnswer hWord
    exact ⟨p, s', hRun, hNew⟩

structure NewSets (s s' : State) (p : Ptr) (n : Nat) : Prop where
  zero : n = 0 ↔ p = 0
  array : ∃ cells, SetArray s'.memory p n cells
  vacant : n ≠ 0 → s.memory.sets p = none
  others : ∀ q, q ≠ p → s'.memory.sets q = s.memory.sets q
  buffers : s'.memory.buffers = s.memory.buffers
  bound : s.memory.inUse ≤ addressSpace → s'.memory.inUse ≤ addressSpace
  grows : s.memory.inUse ≤ s'.memory.inUse
  sysdata : s'.sysdata = s.sysdata
  rtdata : s'.rtdata = s.rtdata
  refused : s'.refused = s.refused

theorem allocSets_cases (P : Platform) (s : State) (hWord : sizeofIoSet * n < 2 ^ 64) :
    (∃ p s', allocSets P (mul64 n sizeofIoSet) s = .ok (p, s') ∧ NewSets s s' p n) ∨
      n ≠ 0 ∧ ∃ s', allocSets P (mul64 n sizeofIoSet) s = .ok (0, s') ∧ s.refused < s'.refused := by
  have hSize : mul64 n sizeofIoSet = sizeofIoSet * n := by
    rw [mul64_of_lt (by rwa [Nat.mul_comm]), Nat.mul_comm]
  rw [hSize]
  cases hAnswer : P.answer s.memory (sizeofIoSet * n) 8 with
  | none =>
    by_cases hn : n = 0
    · subst hn
      left
      refine ⟨0, s, ?_, by simp, ⟨P.junkSets, ⟨fun h => absurd rfl h⟩⟩, fun h => absurd rfl h,
        fun _ _ => rfl, rfl, id, le_rfl, rfl, rfl, rfl⟩
      rw [allocSets_none hAnswer, if_pos (Nat.mul_zero _)]
      rfl
    · right
      refine ⟨hn, _, allocSets_none hAnswer, ?_⟩
      have hne : sizeofIoSet * n ≠ 0 := Nat.mul_ne_zero (by decide) hn
      show s.refused < s.refused + _
      rw [if_neg hne]
      omega
  | some p =>
    left
    obtain ⟨hp, hVacant, _⟩ := P.vacant _ _ _ _ hAnswer
    have hne : n ≠ 0 := by
      rintro rfl
      rw [Nat.mul_zero, P.empty] at hAnswer
      cases hAnswer
    exact ⟨p, _, allocSets_some hAnswer, iff_of_false hne hp,
      ⟨P.junkSets, ⟨fun _ => ⟨hp, _, le_rfl, Function.update_self _ _ _⟩⟩⟩, fun _ => hVacant,
      fun q hq => Function.update_of_ne hq _ _, rfl, fun _ => P.fits _ _ _ _ hAnswer,
      Nat.le_add_right _ _, rfl, rfl, rfl⟩

end Allocation

section Decoding

structure Builds (s s' : State) (p : Ptr) : Prop where
  extends' : Extends s.memory s'.memory
  sets : ∀ q, q ≠ p → s'.memory.sets q = s.memory.sets q
  bound : s.memory.inUse ≤ addressSpace → s'.memory.inUse ≤ addressSpace
  grows : s.memory.inUse ≤ s'.memory.inUse
  sysdata : s'.sysdata = s.sysdata
  rtdata : s'.rtdata = s.rtdata
  refused : s'.refused = s.refused

theorem Builds.refl (s : State) (p : Ptr) : Builds s s p :=
  ⟨fun _ _ h => h, fun _ _ => rfl, id, le_rfl, rfl, rfl, rfl⟩

theorem Builds.trans (h : Builds s s' p) (h' : Builds s' s'' p) : Builds s s'' p where
  extends' := h.extends'.trans h'.extends'
  sets q hq := (h'.sets q hq).trans (h.sets q hq)
  bound hBound := h'.bound (h.bound hBound)
  grows := Nat.le_trans h.grows h'.grows
  sysdata := h'.sysdata.trans h.sysdata
  rtdata := h'.rtdata.trans h.rtdata
  refused := h'.refused.trans h.refused

theorem SetArray.builds (h : SetArray s.memory p n cells) (hi : i < n) (g : IoSet → IoSet) :
    ∃ s', modifySet p i g s = .ok ((), s') ∧
      SetArray s'.memory p n (Function.update cells i (g (cells i))) ∧
      s'.memory.buffers = s.memory.buffers ∧ Builds s s' p := by
  obtain ⟨s', hRun, hArray, hBuffers, hUse, hSets, hSys, hRt, hRefused⟩ := h.modify_ok hi g
  exact ⟨s', hRun, hArray, hBuffers, fun _ _ hb => by rw [hBuffers, hb],
    hSets, by rw [hUse]; exact id, hUse.ge, hSys, hRt, hRefused⟩

theorem NewBuffers.builds {b : Ptr} (h : NewBuffers s s' b n) (p : Ptr) : Builds s s' p where
  extends' := h.extends'
  sets q _ := by rw [h.sets]
  bound := h.bound
  grows := by
    rw [h.inUse]
    exact Nat.le_add_right _ _
  sysdata := h.sysdata
  rtdata := h.rtdata
  refused := h.refused

theorem Builds.fill {b : Ptr} {l : List IoBuffer} (h : Builds s s' p)
    (hVacant : l ≠ [] → s.memory.buffers b = none) (start : Nat) :
    Builds s { s' with memory := s'.memory.fillAt b start l } p where
  extends' q c hc := by
    by_cases hl : l = []
    · subst hl
      simp only [fillAt_nil]
      exact h.extends' q c hc
    · have hq : q ≠ b := by
        rintro rfl
        rw [hVacant hl] at hc
        cases hc
      exact (fillAt_of_ne _ _ _ hq).trans (h.extends' q c hc)
  sets q hq := by
    rw [← h.sets q hq]
    exact congrFun (fillAt_sets _ _ _ _) q
  bound hBound := by
    rw [fillAt_inUse]
    exact h.bound hBound
  grows := by
    rw [fillAt_inUse]
    exact h.grows
  sysdata := h.sysdata
  rtdata := h.rtdata
  refused := h.refused

theorem Holds.of_fill {m : Memory} {l : List IoBuffer} {x : IoSet}
    (hRoom : Room m x.buffers x.buffersCap) (hLen : x.buffersLen = l.length)
    (hCap : l.length ≤ x.buffersCap) : Holds (m.fillAt x.buffers 0 l) x l := by
  refine ⟨hLen, hCap, hRoom.fillAt _ _ _, fun c hne hc i y hy => ?_⟩
  obtain ⟨_, c', hc', _⟩ := hRoom hne
  have hFilled : (m.fillAt x.buffers 0 l).buffers x.buffers = some (c'.fill 0 l) := by
    rw [fillAt_of_block hc']
    exact Function.update_self _ _ _
  obtain rfl := Option.mem_unique hFilled hc
  have hCell := c'.fill_cell 0 hy
  rwa [Nat.zero_add] at hCell

theorem decodeSet_ok {s₀ : State} (hDesc : Described s₀)
    (hArray : SetArray s.memory p s₀.sysdata.inputSetsLen cells)
    (hi : i < s₀.sysdata.inputSetsLen) :
    Meets (decodeSet P s₀.sysdata p i) s (fun _ s' => Builds s s' p ∧ ∃ x,
        SetArray s'.memory p s₀.sysdata.inputSetsLen (Function.update cells i x) ∧
        Holds s'.memory x (inputPart s₀.sysdata i) ∧ x.label = labelAt s₀.sysdata.inputSets i)
      (fun e => s.refused < e.refused) := by
  have hInputs := hDesc.inputs
  have hInfo : s₀.sysdata.inputSets[i]? = some s₀.sysdata.inputSets[i] :=
    List.getElem?_eq_getElem (by omega)
  have hNext : s₀.sysdata.inputSets[i + 1]? = some s₀.sysdata.inputSets[i + 1] :=
    List.getElem?_eq_getElem (by omega)
  generalize s₀.sysdata.inputSets[i] = info at hInfo
  generalize s₀.sysdata.inputSets[i + 1] = next at hNext
  have hOrdered := hDesc.ordered i hi
  have hInside := hDesc.offset_inside (show i + 1 ≤ s₀.sysdata.inputSetsLen by omega)
  have hLength := hDesc.part_length hi
  have hBufs := hDesc.bufs_lt
  rw [offsetAt_eq hInfo, offsetAt_eq hNext] at hOrdered hLength
  rw [offsetAt_eq hNext] at hInside
  have hShort : s₀.sysdata.inputBufs.length < 2 ^ 64 := by
    unfold sizeofIoBuffer at hBufs
    omega
  have hCount : sub64 next.offset info.offset = next.offset - info.offset :=
    sub64_of_le (by omega) hOrdered
  have hPart : inputPart s₀.sysdata i =
      part s₀.sysdata.inputBufs info.offset (next.offset - info.offset) := by
    rw [inputPart, offsetAt_eq hInfo, offsetAt_eq hNext]
  generalize hn : next.offset - info.offset = n at *
  have hWord : sizeofIoBuffer * n < 2 ^ 64 :=
    Nat.lt_of_le_of_lt (Nat.mul_le_mul_left _ (by omega)) hBufs
  rw [decodeSet]
  refine .after (entry_ok hInfo) (.after (entry_ok hNext) ?_)
  rw [hCount]
  obtain ⟨s₁, hRun₁, hArray₁, hBuffers₁, hBuilds₁⟩ :=
    hArray.builds hi fun x => { x with ident := info.ident, identLen := info.identLen }
  refine .after hRun₁ ?_
  rcases allocBuffers_cases P s₁ hWord with ⟨b, s₂, hRun₂, hNew⟩ | ⟨hne, s₂, hRun₂,
      hRefused, hMemory⟩
  · have hArray₂ : SetArray s₂.memory p s₀.sysdata.inputSetsLen _ :=
      ⟨by rw [hNew.sets]; exact hArray₁.block⟩
    obtain ⟨s₃, hRun₃, hArray₃, hBuffers₃, hBuilds₃⟩ :=
      hArray₂.builds hi fun x => { x with buffers := b }
    have hGranted : ¬ (b = 0 ∧ n ≠ 0) := fun h => (hNew.room h.2).1 h.1
    refine .after hRun₂ (.after hRun₃ ?_)
    rw [if_neg hGranted]
    obtain ⟨s₄, hRun₄, hArray₄, hBuffers₄, hBuilds₄⟩ := hArray₃.builds hi fun x =>
      { x with buffersLen := n, buffersCap := n }
    have hRoom : Room s₄.memory b n := by
      rw [Room, hBuffers₄, hBuffers₃]
      exact hNew.room
    have hRun₅ := decodeBuffers_ok (s := s₄) (j := 0) info.offset (by rwa [Nat.zero_add])
      (by omega) hShort
    rw [Nat.add_zero, ← hPart] at hRun₅
    refine .after hRun₄ (.of_ok hRun₅ ⟨?_, ?_⟩)
    · refine (((hBuilds₁.trans (hNew.builds p)).trans hBuilds₃).trans hBuilds₄).fill
        (fun hne => ?_) 0
      rw [← hBuffers₁]
      refine hNew.vacant fun hZero => hne (List.length_eq_zero_iff.mp ?_)
      rw [hLength, hZero]
    · simp only [Function.update_self, Function.update_idem] at hArray₄
      have hHolds :
          Holds (s₄.memory.fillAt b 0 (inputPart s₀.sysdata i)) ⟨info.ident, info.identLen, b, n, n⟩
          (inputPart s₀.sysdata i) :=
        Holds.of_fill (x := ⟨info.ident, info.identLen, b, n, n⟩) hRoom hLength.symm hLength.le
      exact ⟨_, ⟨by rw [fillAt_sets]; exact hArray₄.block⟩, hHolds, (labelAt_eq hInfo).symm⟩
  · -- memory is exhausted and the program ends
    have hArray₂ : SetArray s₂.memory p s₀.sysdata.inputSetsLen _ :=
      ⟨by rw [hMemory]; exact hArray₁.block⟩
    obtain ⟨s₃, hRun₃, _, _, hBuilds₃⟩ := hArray₂.builds hi fun x => { x with buffers := 0 }
    refine .after hRun₂ (.after hRun₃ ?_)
    rw [if_pos ⟨rfl, hne⟩]
    refine .of_error rfl ?_
    show s.refused < s₃.refused
    rw [hBuilds₃.refused, ← hBuilds₁.refused]
    exact hRefused

theorem decodeSets_ok {s₀ : State} (hDesc : Described s₀)
    (hArray : SetArray s.memory p s₀.sysdata.inputSetsLen cells)
    (hik : i + k = s₀.sysdata.inputSetsLen) :
    Meets (decodeSets P s₀.sysdata p k i) s (fun _ s' => Builds s s' p ∧ ∃ cells',
        SetArray s'.memory p s₀.sysdata.inputSetsLen cells' ∧ (∀ t < i, cells' t = cells t) ∧
        ∀ t, i ≤ t → t < s₀.sysdata.inputSetsLen →
          Holds s'.memory (cells' t) (inputPart s₀.sysdata t) ∧
          (cells' t).label = labelAt s₀.sysdata.inputSets t)
      (fun e => s.refused < e.refused) := by
  induction k generalizing s i cells with
  | zero =>
    refine Meets.pure ⟨.refl s p, cells, hArray, fun _ _ => rfl, fun t ht ht' => ?_⟩
    omega
  | succ k ih =>
    rw [decodeSets]
    refine (decodeSet_ok hDesc hArray (by omega)).bind fun _ s₁ h₁ => ?_
    obtain ⟨hBuilds₁, x, hArray₁, hHolds, hLabel⟩ := h₁
    have hRest := ih (s := s₁) (i := i + 1) hArray₁ (by omega)
    refine hRest.mono (fun _ s₂ h₂ => ?_) fun e he => by rwa [hBuilds₁.refused] at he
    obtain ⟨hBuilds₂, cells', hArray₂, hEarlier, hLater⟩ := h₂
    refine ⟨hBuilds₁.trans hBuilds₂, cells', hArray₂, fun t ht => ?_, fun t ht ht' => ?_⟩
    · rw [hEarlier t (by omega), Function.update_of_ne (by omega)]
    · rcases Nat.lt_or_eq_of_le ht with hLt | rfl
      · exact hLater t hLt ht'
      · rw [hEarlier i (by omega), Function.update_self]
        exact ⟨hHolds.extends hBuilds₂.extends', hLabel⟩

theorem prepareSets_ok {s₀ : State} (hDesc : Described s₀)
    (hArray : SetArray s.memory p s₀.sysdata.outputSetsLen cells)
    (hik : i + k = s₀.sysdata.outputSetsLen) :
    ∃ s' cells', prepareSets s₀.sysdata p k i s = .ok ((), s') ∧ Builds s s' p ∧
      SetArray s'.memory p s₀.sysdata.outputSetsLen cells' ∧ (∀ t < i, cells' t = cells t) ∧
      ∀ t, i ≤ t → t < s₀.sysdata.outputSetsLen →
        ∃ ident identLen, cells' t = ⟨ident, identLen, 0, 0, 0⟩ ∧
        (ident, identLen) = labelAt s₀.sysdata.outputSets t := by
  induction k generalizing s i cells with
  | zero =>
    refine ⟨s, cells, rfl, .refl s p, hArray, fun _ _ => rfl, fun t ht ht' => ?_⟩
    omega
  | succ k ih =>
    have hOutputs := hDesc.outputs
    have hInfo : s₀.sysdata.outputSets[i]? = some s₀.sysdata.outputSets[i] :=
      List.getElem?_eq_getElem (by omega)
    generalize s₀.sysdata.outputSets[i] = info at hInfo
    obtain ⟨s₁, hRun₁, hArray₁, _, hBuilds₁⟩ :=
      hArray.builds (show i < s₀.sysdata.outputSetsLen by omega) fun _ =>
        ⟨info.ident, info.identLen, 0, 0, 0⟩
    obtain ⟨s₂, cells', hRun₂, hBuilds₂, hArray₂, hEarlier, hLater⟩ :=
      ih (s := s₁) (i := i + 1) hArray₁ (by omega)
    refine ⟨s₂, cells', ?_, hBuilds₁.trans hBuilds₂, hArray₂, fun t ht => ?_, fun t ht ht' => ?_⟩
    · rw [prepareSets, bind_ok (entry_ok hInfo), bind_ok hRun₁, hRun₂]
    · rw [hEarlier t (by omega), Function.update_of_ne (by omega)]
    · rcases Nat.lt_or_eq_of_le ht with hLt | rfl
      · exact hLater t hLt ht'
      · exact ⟨info.ident, info.identLen, by rw [hEarlier i (by omega), Function.update_self],
          (labelAt_eq hInfo).symm⟩

end Decoding

section Init

def Apart (x y : IoSet) : Prop := x.buffersCap ≠ 0 → y.buffersCap ≠ 0 → x.buffers ≠ y.buffers

/-- The input tree and the output tree with their buffers. -/
structure Trees (s : State) (xs ys : Nat → IoSet) (ins outs : Nat → List IoBuffer) : Prop where
  input : SetArray s.memory s.rtdata.inputSets s.sysdata.inputSetsLen xs
  output : SetArray s.memory s.rtdata.outputSets s.sysdata.outputSetsLen ys
  arrays : s.sysdata.inputSetsLen ≠ 0 → s.sysdata.outputSetsLen ≠ 0 →
    s.rtdata.inputSets ≠ s.rtdata.outputSets
  inputs : ∀ i < s.sysdata.inputSetsLen, Holds s.memory (xs i) (ins i)
  outputs : ∀ i < s.sysdata.outputSetsLen, Holds s.memory (ys i) (outs i)
  across : ∀ i < s.sysdata.inputSetsLen, ∀ j < s.sysdata.outputSetsLen, Apart (xs i) (ys j)
  apart : ∀ i < s.sysdata.outputSetsLen, ∀ j < s.sysdata.outputSetsLen, i ≠ j → Apart (ys i) (ys j)
  total : sizeofIoBuffer * ∑ i ∈ Finset.range s.sysdata.outputSetsLen,
    (ys i).buffersCap ≤ s.memory.inUse
  bound : s.memory.inUse ≤ addressSpace

/-- The sets carry the identifiers of the flat description. -/
structure Labelled (d : SystemData) (xs ys : Nat → IoSet) : Prop where
  input : ∀ i < d.inputSetsLen, (xs i).label = labelAt d.inputSets i
  output : ∀ i < d.outputSetsLen, (ys i).label = labelAt d.outputSets i

theorem dandelionInit_trees (hDesc : Described s) :
    Meets (dandelionInit P) s (fun _ s' => s'.sysdata = s.sysdata ∧ s'.refused = s.refused ∧
        ∃ xs ys, Trees s' xs ys (inputPart s.sysdata) (fun _ => []) ∧ Labelled s.sysdata xs ys)
      (fun e => s.refused < e.refused) := by
  obtain ⟨hInWord, hOutWord⟩ := hDesc.sets_lt
  rw [dandelionInit]
  refine .after (show getState s = .ok (s, s) from rfl) ?_
  rcases allocSets_cases P s hInWord with ⟨p, s₁, hRun₁, hNew₁⟩ | ⟨hne, s₁, hRun₁, hRefused⟩
  · set s₂ : State := { s₁ with rtdata := { s₁.rtdata with inputSets := p } }
    refine .after hRun₁ (.after (show modifyRuntime _ s₁ = .ok ((), s₂) from rfl) ?_)
    rw [if_neg fun h => h.2 (hNew₁.zero.mpr h.1)]
    obtain ⟨cells, hCells⟩ := hNew₁.array
    have hDecode := decodeSets_ok (P := P) (s := s₂) (i := 0) hDesc hCells (Nat.zero_add _)
    refine (hDecode.mono (fun _ _ h => h) fun e he => by rwa [← hNew₁.refused]).bind
      fun _ s₃ h₃ => ?_
    obtain ⟨hBuilds₃, xs, hInput₃, _, hInputs₃⟩ := h₃
    rcases allocSets_cases P s₃ hOutWord with ⟨q, s₄, hRun₄, hNew₄⟩ | ⟨hne, s₄, hRun₄, hRefused⟩
    · set s₅ : State := { s₄ with rtdata := { s₄.rtdata with outputSets := q } }
      obtain ⟨cells', hCells'⟩ := hNew₄.array
      obtain ⟨s₆, ys, hRun₆, hBuilds₆, hOutput₆, _, hEmpty⟩ :=
        prepareSets_ok (s := s₅) (i := 0) hDesc hCells' (Nat.zero_add _)
      refine .after hRun₄ (.after (show modifyRuntime _ s₄ = .ok ((), s₅) from rfl) ?_)
      rw [if_neg fun h => h.2 (hNew₄.zero.mpr h.1)]
      have hSys : s₆.sysdata = s.sysdata :=
        hBuilds₆.sysdata.trans (hNew₄.sysdata.trans (hBuilds₃.sysdata.trans hNew₁.sysdata))
      have hRefused : s₆.refused = s.refused :=
        hBuilds₆.refused.trans (hNew₄.refused.trans (hBuilds₃.refused.trans hNew₁.refused))
      have hRt : s₆.rtdata = ⟨p, q⟩ := by
        rw [hBuilds₆.rtdata]
        show RuntimeData.mk s₄.rtdata.inputSets q = _
        rw [hNew₄.rtdata, hBuilds₃.rtdata]
      have hExtends : Extends s₃.memory s₆.memory := by
        refine Extends.trans (show Extends s₃.memory s₄.memory from fun r b hb => ?_)
          hBuilds₆.extends'
        rw [hNew₄.buffers, hb]
      have hpq : s.sysdata.inputSetsLen ≠ 0 → p ≠ q := by
        intro hIn hEq
        obtain ⟨hp, size, _, hSets⟩ := hInput₃.block hIn
        by_cases hOut : s.sysdata.outputSetsLen = 0
        · exact hp (hEq.trans (hNew₄.zero.mp hOut))
        · rw [hEq, hNew₄.vacant hOut] at hSets
          cases hSets
      have hCap : ∀ i < s.sysdata.outputSetsLen, (ys i).buffersCap = 0 := by
        intro i hi
        obtain ⟨ident, identLen, hi, -⟩ := hEmpty i (Nat.zero_le i) hi
        rw [hi]
      have hLabels : Labelled s.sysdata xs ys := by
        refine ⟨fun i hi => (hInputs₃ i (Nat.zero_le i) hi).2, fun i hi => ?_⟩
        obtain ⟨ident, identLen, hi, hLabel⟩ := hEmpty i (Nat.zero_le i) hi
        rw [hi]
        exact hLabel
      refine .of_ok hRun₆ ⟨hSys, hRefused, xs, ys, ?_, hLabels⟩
      have hBound := hBuilds₆.bound (hNew₄.bound (hBuilds₃.bound (hNew₁.bound hDesc.bound)))
      refine ⟨?_, ?_, ?_, ?_, ?_, ?_, ?_, ?_, hBound⟩ <;> simp only [hSys, hRt]
      · refine ⟨fun hIn => ?_⟩
        obtain ⟨hp, size, hSize, hSets⟩ := hInput₃.block hIn
        refine ⟨hp, size, hSize, ?_⟩
        rw [hBuilds₆.sets p (hpq hIn)]
        exact (hNew₄.others p (hpq hIn)).trans hSets
      · exact hOutput₆
      · exact fun hIn _ => hpq hIn
      · exact fun i hi => (hInputs₃ i (Nat.zero_le i) hi).1.extends hExtends
      · intro i hi
        obtain ⟨ident, identLen, hi, -⟩ := hEmpty i (Nat.zero_le i) hi
        rw [hi]
        exact .empty _ _ _
      · exact fun i _ j hj _ hne => absurd (hCap j hj) hne
      · exact fun i hi j hj _ hne => absurd (hCap i hi) hne
      · rw [Finset.sum_eq_zero fun i hi => hCap i (Finset.mem_range.mp hi), Nat.mul_zero]
        exact Nat.zero_le _
    · refine .after hRun₄ (.after (show modifyRuntime _ s₄ = .ok ((), _) from rfl) ?_)
      rw [if_pos ⟨rfl, hne⟩]
      refine .of_error rfl ?_
      show s.refused < s₄.refused
      rwa [hBuilds₃.refused, hNew₁.refused] at hRefused
  · refine .after hRun₁ (.after (show modifyRuntime _ s₁ = .ok ((), _) from rfl) ?_)
    rw [if_pos ⟨rfl, hne⟩]
    exact .of_error rfl hRefused

theorem dandelionInit_ok (hDesc : Described s) :
    Meets (dandelionInit P) s (fun _ s' => s'.sysdata = s.sysdata ∧ s'.refused = s.refused ∧
        ∃ xs ys, Trees s' xs ys (inputPart s.sysdata) fun _ => [])
      (fun e => s.refused < e.refused) := by
  refine (dandelionInit_trees hDesc).mono (fun _ s' h => ?_) fun _ he => he
  obtain ⟨hSys, hRefused, xs, ys, hTrees, -⟩ := h
  exact ⟨hSys, hRefused, xs, ys, hTrees⟩

end Init

end Dandelion.Runtime.IoSets
