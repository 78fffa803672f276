import Dandelion.FileSystem.Scans

/-! # The copies of `setup_charpparray`

An argument is copied fragment by fragment into a block of its own. If the last
quote is not closed, the copy goes on to the byte behind the data.
-/

namespace Dandelion.FileSystem

open Foundation.Triples

variable {s s' s₁ s₂ : State} {data target : Ptr} {bytes text rest arg : List UInt8}
  {c quote : UInt8} {i fuel copied stop : Nat} {l : List Fragment} {b : Block}

section Writes

theorem Block.write_append (offset : Nat) (first second : List UInt8) :
    (b.write offset first).write (offset + first.length) second =
    b.write offset (first ++ second) := by
  obtain ⟨size, f, foreign⟩ := b
  simp only [Block.write, Block.mk.injEq, true_and, and_true]
  funext i
  rw [List.length_append]
  by_cases hSecond : offset + first.length ≤ i ∧ i < offset + first.length + second.length
  · rw [if_pos hSecond, if_pos (by omega), List.getD_append_right _ _ _ _ (by omega)]
    congr 1
    omega
  · rw [if_neg hSecond]
    by_cases hFirst : offset ≤ i ∧ i < offset + first.length
    · rw [if_pos hFirst, if_pos (by omega), List.getD_append _ _ _ _ (by omega)]
    · rw [if_neg hFirst, if_neg (by omega)]

theorem load_terminated {m : Memory} {p : Ptr} (hp : p ≠ 0)
    (hb : m.blocks p = some ((b.write arg.length [0]).write 0 arg))
    (hSize : arg.length + 1 ≤ b.size) :
    m.load p 0 (arg.length + 1) = some (arg ++ [0]) := by
  have hFit : arg.length ≤ (b.write arg.length [0]).size := Nat.le_of_succ_le hSize
  refine load_extend (load_fill hp hFit hb) ?_
  rw [load_block hp hb hSize]
  simp [Block.write]

def Overwrites (s s' : State) (p : Ptr) (b : Block) : Prop :=
  s'.memory.blocks = Function.update s.memory.blocks p (some b)

theorem Overwrites.self (h : Overwrites s s' target b) : s'.memory.blocks target = some b := by
  rw [Overwrites] at h
  rw [h, Function.update_self]

theorem Overwrites.other {p : Ptr} (h : Overwrites s s' target b) (hp : p ≠ target) :
    s'.memory.blocks p = s.memory.blocks p := by
  rw [Overwrites] at h
  rw [h, Function.update_of_ne hp]

theorem Overwrites.trans {b' : Block} (h₁ : Overwrites s s₁ target b)
    (h₂ : Overwrites s₁ s₂ target b') :
    Overwrites s s₂ target b' := by
  rw [Overwrites] at h₁ h₂ ⊢
  rw [h₂, h₁, Function.update_idem]

theorem Overwrites.refl (h : s.memory.blocks target = some b) : Overwrites s s target b := by
  rw [Overwrites, ← h, Function.update_eq_self]

theorem storeBytes_overwrites (ht : target ≠ 0) (hb : s.memory.blocks target = some b)
    (offset : Nat) (hne : text ≠ []) (hFit : offset + text.length ≤ b.size) :
    ∃ s', storeBytes target offset text s = .ok ((), s') ∧
      Overwrites s s' target (b.write offset text) :=
  ⟨_, storeBytes_ok ht hb hne hFit, rfl⟩

end Writes

section Copying

variable (hApart : data ≠ target) (ht : target ≠ 0)

include hApart ht

theorem copyQuoted_ok (hData : s.memory.load data 0 bytes.length = some bytes)
    (hb : s.memory.blocks target = some b) (hSuffix : bytes.drop i = text ++ rest)
    (hText : quote ∉ text) (hStop : i + text.length < stop) (hFit : copied + text.length ≤ b.size) :
    ∃ s', Overwrites s s' target (b.write copied text) ∧
      ∀ fuel, copyQuoted data target stop quote (text.length + fuel) i copied s =
        copyQuoted data target stop quote fuel (i + text.length) (copied + text.length) s' := by
  induction text generalizing i copied s b with
  | nil =>
    refine ⟨s, ?_, fun fuel => ?_⟩
    · rw [Block.write_nil]
      exact .refl hb
    · rw [List.length_nil, Nat.zero_add, Nat.add_zero, Nat.add_zero]
  | cons c text ih =>
    rw [List.mem_cons, not_or] at hText
    rw [List.length_cons] at hStop hFit
    obtain ⟨s₁, hStore, h₁⟩ := storeBytes_overwrites ht hb copied (List.cons_ne_nil c [])
      (by rw [List.length_singleton]; omega)
    have hData₁ := (load_congr (h₁.other hApart)).trans hData
    obtain ⟨s₂, h₂, hRest⟩ := ih hData₁ h₁.self (drop_succ hSuffix) hText.2 (by omega)
      (show copied + 1 + text.length ≤ _ from by change _ ≤ b.size; omega)
    refine ⟨s₂, ?_, fun fuel => ?_⟩
    · have hBoth := h₁.trans h₂
      rw [show copied + 1 = copied + [c].length from rfl, Block.write_append] at hBoth
      exact hBoth
    · rw [List.length_cons, show text.length + 1 + fuel = text.length + fuel + 1 by omega,
        copyQuoted, if_pos (by omega), bind_ok (dataAt_ok hData hSuffix), if_pos (Ne.symm hText.1),
        bind_ok hStore, hRest, show i + 1 + text.length = i + (text.length + 1) by omega,
        show copied + 1 + text.length = copied + (text.length + 1) by omega]

theorem copyQuoted_closed (hData : s.memory.load data 0 bytes.length = some bytes)
    (hb : s.memory.blocks target = some b) (hSuffix : bytes.drop i = text ++ quote :: rest)
    (hText : quote ∉ text) (hStop : i + text.length < stop) (hFit : copied + text.length ≤ b.size)
    (hFuel : text.length < fuel) :
    ∃ s', Overwrites s s' target (b.write copied text) ∧
      copyQuoted data target stop quote fuel i copied s =
      .ok ((i + text.length, copied + text.length), s') := by
  obtain ⟨k, rfl⟩ : ∃ k, fuel = text.length + (k + 1) := ⟨fuel - text.length - 1, by omega⟩
  obtain ⟨s', h, hCopy⟩ := copyQuoted_ok hApart ht hData hb hSuffix hText hStop hFit
  refine ⟨s', h, ?_⟩
  have hData' := (load_congr (h.other hApart)).trans hData
  rw [hCopy (k + 1), copyQuoted, if_pos hStop, bind_ok (dataAt_ok hData' (drop_behind hSuffix)),
    if_neg (not_not.mpr rfl)]
  rfl

theorem copyArgument_proper (hData : s.memory.load data 0 bytes.length = some bytes)
    (hb : s.memory.blocks target = some b) (hSuffix : bytes.drop i = sourceOf l ++ rest)
    (hProper : ∀ x ∈ l, x.Proper) (hStop : i + (sourceOf l).length ≤ stop)
    (hFit : copied + (valueOf l).length ≤ b.size) :
    ∃ s', Overwrites s s' target (b.write copied (valueOf l)) ∧
      ∀ fuel, copyArgument data target stop (l.length + fuel) i copied s =
        copyArgument data target stop fuel (i + (sourceOf l).length)
          (copied + (valueOf l).length) s' := by
  induction l generalizing i copied s b with
  | nil =>
    refine ⟨s, ?_, fun fuel => ?_⟩
    · rw [valueOf, List.flatMap_nil, Block.write_nil]
      exact .refl hb
    · simp only [sourceOf, valueOf, List.flatMap_nil, List.length_nil, Nat.add_zero, Nat.zero_add]
  | cons x l ih =>
    have hx := hProper x List.mem_cons_self
    rw [sourceOf_cons, List.append_assoc] at hSuffix
    rw [sourceOf_cons, List.length_append] at hStop
    rw [valueOf_cons, List.length_append] at hFit
    have hNext := drop_behind hSuffix
    -- the first fragment, then the others in the state it leaves
    obtain ⟨s₁, h₁, hFirst⟩ : ∃ s₁, Overwrites s s₁ target (b.write copied x.value) ∧
        ∀ fuel, copyArgument data target stop (l.length + fuel + 1) i copied s =
          copyArgument data target stop (l.length + fuel) (i + x.source.length)
            (copied + x.value.length) s₁ := by
      cases x with
      | plain c =>
        obtain ⟨s₁, hStore, h₁⟩ := storeBytes_overwrites ht hb copied (List.cons_ne_nil c [])
          (by simp only [Fragment.value, List.length_singleton] at hFit ⊢; omega)
        simp only [Fragment.source, List.length_singleton] at hStop
        refine ⟨s₁, h₁, fun fuel => ?_⟩
        rw [copyArgument, if_pos (by omega), bind_ok (dataAt_ok hData hSuffix),
          if_neg (isQuote_of_plain hx.2), bind_ok hStore]
        rfl
      | quoted quote text =>
        rw [source_quoted] at hSuffix
        simp only [Fragment.source, List.length_append, List.length_cons, List.length_nil] at hStop
        simp only [Fragment.value] at hFit
        obtain ⟨s₁, h₁, hCopy⟩ := copyQuoted_closed hApart ht hData hb (drop_succ hSuffix) hx.2
          (show i + 1 + text.length < stop by omega) (show copied + text.length ≤ b.size by omega)
          (show text.length < stop + 2 by omega)
        refine ⟨s₁, h₁, fun fuel => ?_⟩
        rw [copyArgument, if_pos (by omega), bind_ok (dataAt_ok hData hSuffix),
          if_pos (isQuote_iff.mpr hx.1), bind_ok hCopy]
        simp only [Fragment.source, Fragment.value, List.length_cons, List.length_append,
          List.length_nil]
        rw [show i + 1 + text.length + 1 = i + (text.length + 1 + (0 + 1)) by omega]
    obtain ⟨s₂, h₂, hRest⟩ := ih ((load_congr (h₁.other hApart)).trans hData) h₁.self hNext
      (fun y hy => hProper y (List.mem_cons_of_mem _ hy)) (by omega)
      (show copied + x.value.length + (valueOf l).length ≤ b.size by omega)
    refine ⟨s₂, ?_, fun fuel => ?_⟩
    · have hBoth := h₁.trans h₂
      rw [Block.write_append] at hBoth
      exact hBoth
    · rw [List.length_cons, show l.length + 1 + fuel = l.length + fuel + 1 by omega, hFirst, hRest,
        sourceOf_cons, valueOf_cons, List.length_append, List.length_append, Nat.add_assoc,
        Nat.add_assoc]

theorem copyArgument_ok (hData : s.memory.load data 0 bytes.length = some bytes)
    (hb : s.memory.blocks target = some b) (hSuffix : bytes.drop i = sourceOf l ++ rest)
    (hProper : ∀ x ∈ l, x.Proper) (hFit : (valueOf l).length ≤ b.size)
    (hFuel : bytes.length < fuel) :
    ∃ s', Overwrites s s' target (b.write 0 (valueOf l)) ∧
      copyArgument data target (i + (sourceOf l).length) fuel i 0 s = .ok ((), s') := by
  have hShort := length_le_of_drop hSuffix
  have hFragments := length_le_sourceOf l
  rw [List.length_append] at hShort
  obtain ⟨k, rfl⟩ : ∃ k, fuel = l.length + (k + 1) := ⟨fuel - l.length - 1, by omega⟩
  obtain ⟨s', h, hCopy⟩ := copyArgument_proper hApart ht hData hb hSuffix hProper (Nat.le_refl _)
    (show 0 + (valueOf l).length ≤ b.size by omega)
  refine ⟨s', h, ?_⟩
  rw [hCopy (k + 1), copyArgument, if_neg (Nat.lt_irrefl _)]
  rfl

theorem copyArgument_open (hData : s.memory.load data 0 bytes.length = some bytes)
    (hOutside : ∀ s', s'.memory.blocks data = s.memory.blocks data →
      dataAt data bytes.length s' = .error .bounds)
    (hb : s.memory.blocks target = some b) (hSuffix : bytes.drop i = sourceOf l ++ quote :: text)
    (hProper : ∀ x ∈ l, x.Proper) (hQuote : quote ∈ quotes) (hText : quote ∉ text)
    (hFit : (valueOf l ++ text).length ≤ b.size) (hFuel : bytes.length < fuel) :
    copyArgument data target (bytes.length + 1) fuel i 0 s = .error .bounds := by
  have hShort := length_le_of_drop hSuffix
  have hFragments := length_le_sourceOf l
  rw [List.length_append] at hShort hFit
  obtain ⟨k, rfl⟩ : ∃ k, fuel = l.length + (k + 1) := ⟨fuel - l.length - 1, by omega⟩
  have hAt := drop_behind hSuffix
  have hi := lt_of_drop hAt
  obtain ⟨s₁, h₁, hCopy⟩ := copyArgument_proper hApart ht hData hb hSuffix hProper
    (show i + (sourceOf l).length ≤ bytes.length + 1 by omega)
    (show 0 + (valueOf l).length ≤ b.size by omega)
  have hData₁ := (load_congr (h₁.other hApart)).trans hData
  have hInner : bytes.drop (i + (sourceOf l).length + 1) = text ++ [] := by
    rw [drop_succ hAt, List.append_nil]
  have hTail := length_of_drop hInner hi
  rw [List.append_nil] at hTail
  obtain ⟨s₂, h₂, hQuoted⟩ := copyQuoted_ok hApart ht hData₁ h₁.self hInner hText
    (show i + (sourceOf l).length + 1 + text.length < bytes.length + 1 by omega)
    (show 0 + (valueOf l).length + text.length ≤ b.size by omega)
  have hLast : dataAt data bytes.length s₂ = .error .bounds :=
    hOutside s₂ ((h₂.other hApart).trans (h₁.other hApart))
  have hEnd : copyQuoted data target (bytes.length + 1) quote (bytes.length + 1 + 2)
      (i + (sourceOf l).length + 1)
      (0 + (valueOf l).length) s₁ = .error .bounds := by
    rw [show bytes.length + 1 + 2 = text.length + (bytes.length + 2 - text.length + 1) by omega,
      hQuoted, hTail, copyQuoted, if_pos (Nat.lt_succ_self _), bind_error hLast]
  rw [hCopy (k + 1), copyArgument, if_pos (by omega), bind_ok (dataAt_ok hData₁ hAt),
    if_pos (isQuote_iff.mpr hQuote), bind_error hEnd]

end Copying

end Dandelion.FileSystem
