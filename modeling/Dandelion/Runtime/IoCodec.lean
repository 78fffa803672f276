import Dandelion.Runtime.IoOutputs

/-! # Flattening the outputs

`dandelion_exit` writes the offsets of the output sets and copies their buffers
one after the other, set by set.
-/

namespace Dandelion.Runtime.IoSets

open Foundation.Words Foundation.Triples

variable {P : Platform} {s s' : State} {p q : Ptr} {i k n : Nat} {xs ys : Nat → IoSet}
  {ins outs : Nat → List IoBuffer}

section Counting

def run (outs : Nat → List IoBuffer) (start count : Nat) : List IoBuffer :=
  (List.range' start count).flatMap outs

theorem run_zero (outs : Nat → List IoBuffer) (start : Nat) : run outs start 0 = [] := rfl

theorem run_succ (outs : Nat → List IoBuffer) (start count : Nat) :
    run outs start (count + 1) = outs start ++ run outs (start + 1) count := by
  rw [run, List.range'_succ, List.flatMap_cons, run]

theorem run_last (outs : Nat → List IoBuffer) (count : Nat) :
    run outs 0 (count + 1) = run outs 0 count ++ outs count := by
  rw [run, List.range'_concat, List.flatMap_append, List.flatMap_singleton, Nat.zero_add,
    Nat.one_mul, run]

theorem run_add (outs : Nat → List IoBuffer) (start a b : Nat) :
    run outs start (a + b) = run outs start a ++ run outs (start + a) b := by
  induction a generalizing start with
  | zero => rw [Nat.zero_add, run_zero, List.nil_append, Nat.add_zero]
  | succ a ih =>
    rw [show a + 1 + b = a + b + 1 by omega, run_succ, run_succ, ih, List.append_assoc,
      show start + 1 + a = start + (a + 1) by omega]

theorem Trees.total_lt (h : Trees s xs ys ins outs) :
    sizeofIoBuffer * (run outs 0 s.sysdata.outputSetsLen).length ≤ addressSpace := by
  have hSum : ∀ n ≤ s.sysdata.outputSetsLen,
      (run outs 0 n).length ≤ ∑ i ∈ Finset.range n, (ys i).buffersCap := by
    intro n hn
    induction n with
    | zero => exact Nat.zero_le _
    | succ n ih =>
      rw [run_last, List.length_append, Finset.sum_range_succ]
      exact Nat.add_le_add (ih (by omega)) (h.outputs n (by omega)).cap
  exact Nat.le_trans (Nat.mul_le_mul_left _ (hSum _ le_rfl)) (Nat.le_trans h.total h.bound)

theorem countBuffers_ok (total : Nat) (h : Trees s xs ys ins outs)
    (hik : i + k = s.sysdata.outputSetsLen) (hWord : total + (run outs i k).length < 2 ^ 64) :
    countBuffers s.rtdata.outputSets k i total s = .ok (total + (run outs i k).length, s) := by
  induction k generalizing i total with
  | zero => rfl
  | succ k ih =>
    rw [run_succ, List.length_append] at hWord
    have hLen := (h.outputs i (by omega)).len
    rw [countBuffers, bind_ok (h.output.get_ok (by omega)), hLen, add64_of_lt (by omega),
      ih _ (by omega) (by omega), run_succ, List.length_append, Nat.add_assoc]

end Counting

section Encoding

theorem setOffset_ok {info : IoSetInfo} {offset : Nat} (h : s.sysdata.outputSets[i]? = some info) :
    setOffset i offset s = .ok ((), { s with sysdata := { s.sysdata with
      outputSets := s.sysdata.outputSets.set i { info with offset := offset } } }) := by
  rw [setOffset, bind_ok (show getState s = .ok (s, s) from rfl), bind_ok (entry_ok h)]
  rfl

theorem offsetAt_set {infos : List IoSetInfo} {info : IoSetInfo} (h : i < infos.length) :
    offsetAt (infos.set i info) i = info.offset := by
  rw [offsetAt, List.getElem?_set_self h, Option.map_some, Option.getD_some]

structure Encodable (s : State) (q target : Ptr) (n : Nat) (ys : Nat → IoSet)
    (outs : Nat → List IoBuffer) : Prop where
  array : SetArray s.memory q n ys
  holds : ∀ i < n, Holds s.memory (ys i) (outs i)
  clear : ∀ i < n, (ys i).buffersCap ≠ 0 → (ys i).buffers ≠ target
  infos : s.sysdata.outputSets.length = n + 1

theorem Encodable.fill {target : Ptr} (h : Encodable s q target n ys outs) (start : Nat)
    (l : List IoBuffer) (hMemory : s'.memory = s.memory.fillAt target start l)
    (hInfos : s'.sysdata.outputSets.length = s.sysdata.outputSets.length) :
    Encodable s' q target n ys outs where
  array := ⟨by rw [hMemory, fillAt_sets]; exact h.array.block⟩
  holds i hi := by
    have hHolds := h.holds i hi
    have hSame : (ys i).buffersCap ≠ 0 →
        s'.memory.buffers (ys i).buffers = s.memory.buffers (ys i).buffers :=
      fun hCap => by rw [hMemory, fillAt_of_ne _ _ _ (h.clear i hi hCap)]
    refine ⟨hHolds.len, hHolds.cap, fun hCap => ?_, fun b hCap hb => ?_⟩
    · rw [hSame hCap]
      exact hHolds.room hCap
    · rw [hSame hCap] at hb
      exact hHolds.cells b hCap hb
  clear := h.clear
  infos := by rw [hInfos, h.infos]

theorem encodeSets_ok {target offset : Nat} (h : Encodable s q target n ys outs) (hik : i + k = n)
    (hRoom : Room s.memory target (offset + (run outs i k).length))
    (hWord : offset + (run outs i k).length < 2 ^ 64) :
    ∃ s', encodeSets q target k i offset s = .ok (offset + (run outs i k).length, s') ∧
      s'.memory = s.memory.fillAt target offset (run outs i k) ∧ s'.rtdata = s.rtdata ∧
        s'.refused = s.refused ∧
      (∃ infos, s'.sysdata = { s.sysdata with outputSets := infos }) ∧
      s'.sysdata.outputSets.length = s.sysdata.outputSets.length ∧
      (∀ t < i, offsetAt s'.sysdata.outputSets t = offsetAt s.sysdata.outputSets t) ∧
      ∀ t < k, offsetAt s'.sysdata.outputSets (i + t) = offset + (run outs i t).length := by
  induction k generalizing s i offset with
  | zero =>
    refine ⟨s, rfl, ?_, rfl, rfl, ⟨_, rfl⟩, rfl, fun _ _ => rfl,
      fun t ht => absurd ht (Nat.not_lt_zero t)⟩
    rw [run_zero, fillAt_nil]
  | succ k ih =>
    rw [run_succ, List.length_append] at hRoom hWord
    have hHolds := h.holds i (by omega)
    have hLen := hHolds.len
    have hCap := hHolds.cap
    have hInfos := h.infos
    have hInfo : s.sysdata.outputSets[i]? = some s.sysdata.outputSets[i] :=
      List.getElem?_eq_getElem (by omega)
    obtain ⟨b, hb, hList⟩ := hHolds.source
    set s₁ : State := { s with sysdata := { s.sysdata with
      outputSets := s.sysdata.outputSets.set i { s.sysdata.outputSets[i] with offset := offset } }
        } with hs₁
    set s₂ : State := { s₁ with memory := s₁.memory.fillAt target offset (outs i) }
    have hArray₁ : SetArray s₁.memory q n ys := h.array
    have hCopy : encodeBuffers (ys i).buffers target offset (ys i).buffersLen 0 s₁ =
        .ok ((), s₂) := by
      have hSource : Room s₁.memory (ys i).buffers (0 + (ys i).buffersLen) :=
        hHolds.room.mono (by omega)
      have hTarget : Room s₁.memory target (offset + (0 + (ys i).buffersLen)) :=
        hRoom.mono (by omega)
      have hRun := encodeBuffers_ok (b := b) (fun hne => h.clear i (by omega) (by omega)) hSource
        (fun hne => hb (by omega)) hTarget (by omega)
      simp only [Nat.zero_add, Nat.add_zero] at hRun
      rw [hRun, hLen, hList]
    have hEncodable : Encodable s₂ q target n ys outs := by
      refine h.fill offset (outs i) rfl ?_
      show (s.sysdata.outputSets.set i _).length = _
      rw [List.length_set]
    have hRoom₂ :
        Room s₂.memory target (offset + (outs i).length + (run outs (i + 1) k).length) := by
      rw [Nat.add_assoc]
      exact hRoom.fillAt _ _ _
    obtain ⟨s₃, hRun₃, hMemory₃, hRt₃, hRefused₃, ⟨infos, hSys₃⟩, hLength₃, hEarlier, hLater⟩ :=
      ih (s := s₂) (i := i + 1) hEncodable (by omega) hRoom₂ (by omega)
    have hOffset : offsetAt s₃.sysdata.outputSets i = offset := by
      rw [hEarlier i (by omega)]
      exact offsetAt_set (by omega)
    refine ⟨s₃, ?_, ?_, hRt₃, hRefused₃, ⟨infos, hSys₃⟩, ?_, fun t ht => ?_, fun t ht => ?_⟩
    · rw [encodeSets, bind_ok (setOffset_ok hInfo), bind_ok (hArray₁.get_ok (by omega)),
        bind_ok hCopy, hLen, add64_of_lt (by omega), hRun₃, run_succ, List.length_append,
        Nat.add_assoc]
    · rw [hMemory₃, run_succ]
      exact fillAt_fillAt s.memory target offset (outs i) _
    · rw [hLength₃]
      exact List.length_set
    · rw [hEarlier t (by omega)]
      show offsetAt (s.sysdata.outputSets.set i _) t = _
      rw [offsetAt, List.getElem?_set_ne (by omega), offsetAt]
    · cases t with
      | zero => rw [Nat.add_zero, hOffset, run_zero, List.length_nil, Nat.add_zero]
      | succ t =>
        rw [show i + (t + 1) = i + 1 + t by omega, hLater t (by omega), run_succ,
          List.length_append, Nat.add_assoc]

def outputAt (s : State) (i : Nat) : Option IoBuffer :=
  (s.memory.buffers s.sysdata.outputBufs).bind fun b =>
    if sizeofIoBuffer * (i + 1) ≤ b.size then some (b.cell i) else none

/-- The flat output describes the given buffers of `n` sets. -/
structure Encodes (s : State) (n : Nat) (outs : Nat → List IoBuffer) : Prop where
  infos : s.sysdata.outputSets.length = n + 1
  offsets : ∀ i ≤ n, offsetAt s.sysdata.outputSets i = (run outs 0 i).length
  buffers : (List.range (run outs 0 n).length).map (outputAt s) = (run outs 0 n).map some

theorem dandelionExit_ok (h : Trees s xs ys ins outs)
    (hInfos : s.sysdata.outputSets.length = s.sysdata.outputSetsLen + 1) (code : Nat) :
    Meets (dandelionExit P code) s (fun _ s' => s'.sysdata.exitCode = code ∧
      s'.sysdata.inputSets = s.sysdata.inputSets ∧
        s'.sysdata.inputBufs = s.sysdata.inputBufs ∧ Encodes s' s.sysdata.outputSetsLen outs)
      (fun e => s.refused < e.refused) := by
  have hTotal := h.total_lt
  have hWord : (run outs 0 s.sysdata.outputSetsLen).length < 2 ^ 64 := by
    unfold sizeofIoBuffer addressSpace at hTotal
    omega
  have hSize : sizeofIoBuffer * (run outs 0 s.sysdata.outputSetsLen).length < 2 ^ 64 := by
    unfold addressSpace at hTotal
    omega
  set s₁ : State := { s with sysdata := { s.sysdata with exitCode := code } }
  have hTrees :
      Trees s₁ xs ys ins outs :=
        ⟨h.input, h.output, h.arrays, h.inputs, h.outputs, h.across, h.apart,
    h.total, h.bound⟩
  have hCount := countBuffers_ok 0 (i := 0) hTrees (Nat.zero_add _) (by rwa [Nat.zero_add])
  rw [Nat.zero_add] at hCount
  rw [dandelionExit]
  refine .after (show modifyData _ s = .ok ((), s₁) from rfl) ?_
  refine .after (show getState s₁ = .ok (s₁, s₁) from rfl) (.after hCount ?_)
  rcases allocBuffers_cases P s₁ hSize with ⟨p, s₂, hRun₂, hNew⟩ | ⟨hne, s₂, hRun₂, hRefused, _⟩
  · set s₃ : State := { s₂ with sysdata := { s₂.sysdata with outputBufs := p } }
    refine .after hRun₂ (.after (show modifyData _ s₂ = .ok ((), s₃) from rfl) ?_)
    rw [if_neg fun hNull => (hNew.room hNull.2).1 hNull.1]
    have hEncodable : Encodable s₃ s.rtdata.outputSets p s.sysdata.outputSetsLen ys outs := by
      refine ⟨⟨by rw [hNew.sets]; exact h.output.block⟩,
        fun i hi => (h.outputs i hi).extends hNew.extends', fun i hi hCap hEq => ?_, ?_⟩
      · obtain ⟨hb, b, hBlock, _⟩ := (h.outputs i hi).room hCap
        by_cases hZero : (run outs 0 s.sysdata.outputSetsLen).length = 0
        · exact hb (hEq.trans (hNew.zero hZero))
        · have hNone : s.memory.buffers p = none := hNew.vacant hZero
          rw [← hEq, hBlock] at hNone
          cases hNone
      · show s₂.sysdata.outputSets.length = _
        rw [hNew.sysdata]
        exact hInfos
    have hRoom : Room s₃.memory p (0 + (run outs 0 s.sysdata.outputSetsLen).length) := by
      rw [Nat.zero_add]
      exact hNew.room
    obtain ⟨s₄, hRun₄, hMemory₄, _, _, ⟨infos, hSys₄⟩, hLength₄, _, hOffsets⟩ :=
      encodeSets_ok (i := 0) hEncodable (Nat.zero_add _) hRoom (by rwa [Nat.zero_add])
    rw [Nat.zero_add] at hRun₄
    have hLength : s₄.sysdata.outputSets.length = s.sysdata.outputSetsLen + 1 :=
      hLength₄.trans hEncodable.infos
    have hLast : s₄.sysdata.outputSets[s.sysdata.outputSetsLen]? =
        some s₄.sysdata.outputSets[s.sysdata.outputSetsLen] :=
      List.getElem?_eq_getElem (by omega)
    have hSame : ∀ i < s.sysdata.outputSetsLen, ∀ info,
        offsetAt (s₄.sysdata.outputSets.set s.sysdata.outputSetsLen info) i =
          (run outs 0 i).length := by
      intro i hi info
      have hAt := hOffsets i hi
      rw [Nat.zero_add, Nat.zero_add, offsetAt] at hAt
      rw [offsetAt, List.getElem?_set_ne (by omega), hAt]
    refine .after hRun₄ (.of_ok (setOffset_ok hLast) ⟨?_, ?_, ?_, ?_, fun i hi => ?_, ?_⟩)
    · simp only [hSys₄]
      show s₂.sysdata.exitCode = code
      rw [hNew.sysdata]
    · simp only [hSys₄]
      show s₂.sysdata.inputSets = s.sysdata.inputSets
      rw [hNew.sysdata]
    · simp only [hSys₄]
      show s₂.sysdata.inputBufs = s.sysdata.inputBufs
      rw [hNew.sysdata]
    · simp only [List.length_set]
      exact hLength
    · rcases Nat.lt_or_eq_of_le hi with hLt | rfl
      · exact hSame i hLt _
      · exact offsetAt_set (by rw [hLength]; exact Nat.lt_succ_self _)
    · apply List.ext_getElem
      · simp
      · intro t ht ht'
        rw [List.length_map, List.length_range] at ht
        obtain ⟨_, b, hb, hFit⟩ := hNew.room (by omega)
        have hFilled : s₄.memory.buffers p =
            some (b.fill 0 (run outs 0 s.sysdata.outputSetsLen)) := by
          rw [hMemory₄]
          show (s₂.memory.fillAt p 0 _).buffers p = _
          rw [fillAt_of_block hb]
          exact Function.update_self _ _ _
        have hCell := b.fill_cell 0 (List.getElem?_eq_getElem ht)
        have hInside : sizeofIoBuffer * (t + 1) ≤ b.size :=
          Nat.le_trans (Nat.mul_le_mul_left _ ht) hFit
        rw [Nat.zero_add] at hCell
        rw [List.getElem_map, List.getElem_range, List.getElem_map, outputAt]
        simp only [hSys₄]
        show (s₄.memory.buffers p).bind _ = _
        rw [hFilled, Option.bind_some, if_pos (show _ ≤ (b.fill 0 _).size from hInside), hCell]
  · refine .after hRun₂ (.after (show modifyData _ s₂ = .ok ((), _) from rfl) ?_)
    rw [if_pos ⟨rfl, hne⟩]
    exact .of_error rfl hRefused

end Encoding

end Dandelion.Runtime.IoSets
