import Dandelion.FileSystem.ArgumentCopy

/-! # `setup_charpparray`

The building pass puts every argument into a block of its own and the pointers
to them into the array, whose last entry is `NULL`.
-/

namespace Dandelion.FileSystem

open Foundation.Triples

/-- The array has pointers to the strings at the entries from `current` on, and no other block that
was there before has changed. -/
structure Fills (s s' : State) (array : Ptr) (current : Nat) (args : List (List UInt8)) : Prop where
  others : ∀ p b, p ≠ array → s.memory.blocks p = some b → s'.memory.blocks p = some b
  entries : ∀ b, s.memory.blocks array = some b → ∃ b', s'.memory.blocks array = some b' ∧
    b'.size = b.size ∧
    ∀ i, i < 8 * current ∨ 8 * (current + args.length) ≤ i → b'.bytes i = b.bytes i
  strings : ∀ j arg, args[j]? = some arg → ∃ target, target ≠ array ∧
    s'.memory.load array (8 * (current + j)) 8 = some (pointerBytes target) ∧
    s'.memory.load target 0 (arg.length + 1) = some (arg ++ [0])

variable {P : Platform} {s s' s₁ s₂ : State} {data target array : Ptr}
  {bytes text rest arg : List UInt8} {quote : UInt8} {i fuel current : Nat} {l : List Fragment}
  {args : List (List UInt8)} {b : Block}

section Filling

theorem length_pointerBytes (p : Ptr) : (pointerBytes p).length = 8 := by
  rw [pointerBytes, List.length_map, List.length_range]

theorem pointerBytes_ne_nil (p : Ptr) : pointerBytes p ≠ [] := by
  rw [← List.length_pos_iff, length_pointerBytes]
  decide

theorem load_bytes {m m' : Memory} {p : Ptr} {b' : Block} {o n : Nat} (hb : m.blocks p = some b)
    (hb' : m'.blocks p = some b') (hSize : b'.size = b.size)
    (hBytes : ∀ i < n, b'.bytes (o + i) = b.bytes (o + i)) :
    m'.load p o n = m.load p o n := by
  have hMap : (List.range n).map (fun i => b'.bytes (o + i)) = (List.range n).map
      fun i => b.bytes (o + i) :=
    List.map_congr_left fun i hi => hBytes i (List.mem_range.mp hi)
  simp only [Memory.load, hb, hb', Option.bind_some, hSize, hMap]

theorem load_stored {m : Memory} {p : Ptr} {o : Nat} (hp : p ≠ 0)
    (hb : m.blocks p = some (b.write o text)) (hFit : o + text.length ≤ b.size) :
    m.load p o text.length = some text := by
  rw [load_block hp hb hFit, Option.some.injEq]
  apply List.ext_getElem
  · rw [List.length_map, List.length_range]
  · intro i hi hi'
    simp only [List.getElem_map, List.getElem_range, Block.write]
    rw [if_pos (by omega), Nat.add_sub_cancel_left, List.getD_eq_getElem]

theorem exists_block_of_load {m : Memory} {p : Ptr} {o n : Nat} (hn : 0 < n)
    (h : m.load p o n = some text) :
    ∃ b, m.blocks p = some b := by
  unfold Memory.load at h
  rw [if_neg (Nat.ne_of_gt hn)] at h
  split at h
  · cases h
  · obtain ⟨b, hb, _⟩ := Option.bind_eq_some_iff.mp h
    exact ⟨b, hb⟩

theorem Fills.nil (s : State) (array : Ptr) (current : Nat) : Fills s s array current [] where
  others _ _ _ h := h
  entries b h := ⟨b, h, rfl, fun _ _ => rfl⟩
  strings j arg h := by simp at h

theorem Fills.cons (hArray : s.memory.blocks array = some b) (h₁ : Fills s s₁ array current [arg])
    (h₂ : Fills s₁ s₂ array (current + 1) args) : Fills s s₂ array current (arg :: args) where
  others p c hp hc := h₂.others p c hp (h₁.others p c hp hc)
  entries c hc := by
    obtain ⟨b₁, hb₁, hSize₁, hBytes₁⟩ := h₁.entries c hc
    obtain ⟨b₂, hb₂, hSize₂, hBytes₂⟩ := h₂.entries b₁ hb₁
    refine ⟨b₂, hb₂, hSize₂.trans hSize₁, fun i hi => ?_⟩
    rw [List.length_cons] at hi
    exact (hBytes₂ i (by omega)).trans (hBytes₁ i (by rw [List.length_singleton]; omega))
  strings j x hj := by
    cases j with
    | zero =>
      obtain ⟨target, hTarget, hPointer, hString⟩ := h₁.strings 0 x hj
      obtain ⟨b₁, hb₁, -, -⟩ := h₁.entries b hArray
      obtain ⟨b₂, hb₂, hSize₂, hBytes₂⟩ := h₂.entries b₁ hb₁
      obtain ⟨c, hc⟩ := exists_block_of_load (Nat.succ_pos _) hString
      refine ⟨target, hTarget, ?_, ?_⟩
      · rw [← hPointer]
        exact load_bytes hb₁ hb₂ hSize₂ fun i hi => hBytes₂ _ (Or.inl (by omega))
      · rw [← hString]
        exact load_congr ((h₂.others target c hTarget hc).trans hc.symm)
    | succ j =>
      obtain ⟨target, hTarget, hPointer, hString⟩ := h₂.strings j x hj
      refine ⟨target, hTarget, ?_, hString⟩
      rw [show current + (j + 1) = current + 1 + j by omega]
      exact hPointer

theorem allocBlock_granted {size alignment : Nat} {g : Grant}
    (hg : P.answer s.memory s.requests size alignment = some g) :
    ∃ s', allocBlock P size alignment s = .ok (g.ptr, s') ∧ s.memory.blocks g.ptr = none ∧
      g.ptr ≠ 0 ∧
      Overwrites s s' g.ptr ⟨(size + 7) / 8 * 8, g.bytes, false⟩ := by
  have hVacant := P.vacant _ _ _ _ _ hg
  exact ⟨_, dandelionAlloc_ok hg, hVacant.2.2.2, hVacant.ne_zero, rfl⟩

theorem allocBlock_none {size alignment : Nat}
    (hg : P.answer s.memory s.requests size alignment = none) :
    allocBlock P size alignment s = .ok (0, { s with requests := s.requests + 1 }) := by
  simp only [allocBlock, dandelionAlloc, hg]

theorem storeBytes_null {offset : Nat} (hne : text ≠ []) :
    storeBytes 0 offset text s = .error .null := by
  rw [storeBytes, if_neg hne]
  rfl

end Filling

section Passes

theorem fillArguments_end (h : bytes.length ≤ i) :
    fillArguments P data array bytes.length (fuel + 1) i current s = .ok ((), s) := by
  rw [fillArguments, if_neg (Nat.not_lt.mpr h)]
  rfl

theorem fillArguments_space (hData : s.memory.load data 0 bytes.length = some bytes)
    (hSuffix : bytes.drop i = space :: rest) :
    fillArguments P data array bytes.length (fuel + 1) i current s =
      fillArguments P data array bytes.length (fuel + 1) (i + 1) current s := by
  have hi := lt_of_drop hSuffix
  rw [fillArguments, fillArguments, if_pos hi, bind_ok (skipSpaces_ok hData (by omega)), hSuffix,
    List.takeWhile_cons_of_pos (by decide), List.length_cons, Nat.add_comm _ 1, ← Nat.add_assoc]
  by_cases hNext : i + 1 < bytes.length
  · rw [if_pos hNext, bind_ok (skipSpaces_ok hData (by omega)), drop_succ hSuffix]
  · rw [if_neg hNext, if_pos (by omega)]

theorem fillArguments_starts {size stop : Nat}
    (hData : s.memory.load data 0 bytes.length = some bytes) (hSuffix : bytes.drop i = text)
    (hStarts : Starts text) (hSkip : skipArgument data bytes.length (bytes.length + 2) i 0 s =
      .ok ((stop, 0 + size), s)) :
    fillArguments P data array bytes.length (fuel + 1) i current s =
      (do
        let target ← allocBlock P (size + 1) 1
        storeBytes target size [0]
        copyArgument data target stop (bytes.length + 2) i 0
        storeBytes array (8 * current) (pointerBytes target)
        fillArguments P data array bytes.length fuel stop (current + 1)) s := by
  obtain ⟨hi, hStart⟩ :=
    skipSpaces_starts hData hSuffix hStarts (show bytes.length < bytes.length + 2 by omega)
  rw [Nat.zero_add] at hSkip
  rw [fillArguments, if_pos hi, bind_ok hStart, if_neg (Nat.not_le.mpr hi), bind_ok hSkip]

/-- The block of an argument with its end. -/
theorem storeBytes_end {size : Nat} {g : Grant}
    (hg : P.answer s.memory s.requests (size + 1) 1 = some g) :
    ∃ s₁ s₂, allocBlock P (size + 1) 1 s = .ok (g.ptr, s₁) ∧
      storeBytes g.ptr size [0] s₁ = .ok ((), s₂) ∧
      s.memory.blocks g.ptr = none ∧ g.ptr ≠ 0 ∧
      Overwrites s s₂ g.ptr
        ((⟨(size + 1 + 7) / 8 * 8, g.bytes, false⟩ : Block).write size [0]) := by
  obtain ⟨s₁, hAlloc, hFresh, ht, h₁⟩ := allocBlock_granted hg
  obtain ⟨s₂, hEnd, h₂⟩ := storeBytes_overwrites ht h₁.self size (List.cons_ne_nil 0 [])
    (show size + 1 ≤ (size + 1 + 7) / 8 * 8 by omega)
  exact ⟨s₁, s₂, hAlloc, hEnd, hFresh, ht, h₁.trans h₂⟩

theorem ne_of_fresh {p q : Ptr} {c : Block} (hFresh : s.memory.blocks q = none)
    (hc : s.memory.blocks p = some c) : p ≠ q := by
  rintro rfl
  rw [hFresh] at hc
  cases hc

theorem fillArguments_argument {g : Grant}
    (hg : P.answer s.memory s.requests ((valueOf l).length + 1) 1 = some g) (hApart : data ≠ array)
    (ha : array ≠ 0) (hData : s.memory.load data 0 bytes.length = some bytes)
    (hArray : s.memory.blocks array = some b) (hFit : 8 * (current + 1) ≤ b.size)
    (hSuffix : bytes.drop i = sourceOf l ++ rest) (hne : l ≠ []) (hProper : ∀ x ∈ l, x.Proper)
    (hEnds : Ends rest) :
    ∃ s₁, Fills s s₁ array current [valueOf l] ∧ s₁.memory.blocks data = s.memory.blocks data ∧
      ∀ fuel, fillArguments P data array bytes.length (fuel + 1) i current s =
        fillArguments P data array bytes.length fuel (i + (sourceOf l).length)
          (current + 1) s₁ := by
  have hStarts : Starts (sourceOf l ++ rest) := starts_sourceOf hne hProper
  obtain ⟨d, hd⟩ := exists_block_of_load (Nat.lt_of_le_of_lt (Nat.zero_le i)
    (skipSpaces_starts hData hSuffix hStarts (Nat.lt_succ_self _)).1) hData
  obtain ⟨s₁, s₂, hAlloc, hEnd, hFresh, ht, hTarget⟩ := storeBytes_end hg
  have hRoom : (valueOf l).length + 1 ≤ ((valueOf l).length + 1 + 7) / 8 * 8 := by omega
  have hData₂ := (load_congr (hTarget.other (ne_of_fresh hFresh hd))).trans hData
  obtain ⟨s₃, h₃, hCopy⟩ := copyArgument_ok (ne_of_fresh hFresh hd) ht hData₂ hTarget.self
    hSuffix hProper
    (Nat.le_of_succ_le hRoom) (show bytes.length < bytes.length + 2 by omega)
  replace hTarget := hTarget.trans h₃
  have hArray₃ : s₃.memory.blocks array = some b :=
    (hTarget.other (ne_of_fresh hFresh hArray)).trans hArray
  obtain ⟨s₄, hStore, h₄⟩ := storeBytes_overwrites ha hArray₃ (8 * current)
    (pointerBytes_ne_nil g.ptr)
    (by rw [length_pointerBytes]; omega)
  have hOthers : ∀ p c, p ≠ array → s.memory.blocks p = some c → s₄.memory.blocks p = some c := by
    intro p c hp hc
    rw [h₄.other hp, hTarget.other (ne_of_fresh hFresh hc), hc]
  refine ⟨s₄, ⟨hOthers, fun c hc => ?_, fun j x hj => ?_⟩, (hOthers data d hApart hd).trans hd.symm,
    fun fuel => ?_⟩
  · obtain rfl := Option.mem_unique hArray hc
    refine ⟨_, h₄.self, rfl, fun k hk => if_neg ?_⟩
    rw [length_pointerBytes]
    rw [List.length_singleton] at hk
    omega
  · cases j with
    | zero =>
      obtain rfl := Option.some.inj hj
      refine ⟨g.ptr, (ne_of_fresh hFresh hArray).symm, ?_, ?_⟩
      · rw [← length_pointerBytes g.ptr]
        exact load_stored ha h₄.self (by rw [length_pointerBytes]; omega)
      · exact load_terminated ht ((h₄.other (ne_of_fresh hFresh hArray).symm).trans hTarget.self)
          hRoom
    | succ j => simp at hj
  · rw [fillArguments_starts hData hSuffix hStarts
      (skipArgument_ends hData hSuffix hProper hEnds (by omega)),
      bind_ok hAlloc, bind_ok hEnd, bind_ok hCopy, bind_ok hStore]

theorem fillArguments_refused {size stop : Nat}
    (hData : s.memory.load data 0 bytes.length = some bytes) (hSuffix : bytes.drop i = text)
    (hStarts : Starts text) (hSkip : skipArgument data bytes.length (bytes.length + 2) i 0 s =
      .ok ((stop, 0 + size), s))
    (hg : P.answer s.memory s.requests (size + 1) 1 = none) :
    fillArguments P data array bytes.length (fuel + 1) i current s = .error .null := by
  rw [fillArguments_starts hData hSuffix hStarts hSkip, bind_ok (allocBlock_none hg),
    bind_error (storeBytes_null (List.cons_ne_nil 0 []))]

theorem fillArguments_open (hData : s.memory.load data 0 bytes.length = some bytes)
    (hOutside : ∀ s', s'.memory.blocks data = s.memory.blocks data →
      dataAt data bytes.length s' = .error .bounds)
    (hSuffix : bytes.drop i = sourceOf l ++ quote :: text) (hProper : ∀ x ∈ l, x.Proper)
    (hQuote : quote ∈ quotes) (hText : quote ∉ text) :
    ∃ e, fillArguments P data array bytes.length (fuel + 1) i current s = .error e := by
  have hStarts : Starts (sourceOf l ++ quote :: text) := starts_open hProper hQuote
  have hSkip : skipArgument data bytes.length (bytes.length + 2) i 0 s =
      .ok ((bytes.length + 1, 0 + (valueOf l ++ text).length), s) :=
    skipArgument_open hData hSuffix hProper hQuote hText (by omega)
  cases hg : P.answer s.memory s.requests ((valueOf l ++ text).length + 1) 1 with
  | none => exact ⟨_, fillArguments_refused hData hSuffix hStarts hSkip hg⟩
  | some g => ?_
  obtain ⟨d, hd⟩ := exists_block_of_load (Nat.lt_of_le_of_lt (Nat.zero_le i)
    (skipSpaces_starts hData hSuffix hStarts (Nat.lt_succ_self _)).1) hData
  obtain ⟨s₁, s₂, hAlloc, hEnd, hFresh, ht, h⟩ := storeBytes_end hg
  have hTarget := ne_of_fresh hFresh hd
  have hCopy := copyArgument_open hTarget ht ((load_congr (h.other hTarget)).trans hData)
    (fun s' hs => hOutside s' (hs.trans (h.other hTarget))) h.self hSuffix hProper hQuote hText
    (show (valueOf l ++ text).length ≤ ((valueOf l ++ text).length + 1 + 7) / 8 * 8 by omega)
    (show bytes.length < bytes.length + 2 by omega)
  exact ⟨_, by rw [fillArguments_starts hData hSuffix hStarts hSkip, bind_ok hAlloc, bind_ok hEnd,
    bind_error hCopy]⟩

/-- The pass over the arguments, given what it does with the rest. -/
theorem fillArguments_splits {Left : List UInt8 → List (List UInt8) → Prop} {A : Prop}
    {fault : Fault → Prop} {block : Option Block} {suffix : List UInt8} (hApart : data ≠ array)
    (ha : array ≠ 0) (hBytes : ∀ s : State, s.memory.blocks data = block →
      s.memory.load data 0 bytes.length = some bytes)
    (hNull : ∀ (s : State) size, P.answer s.memory s.requests (size + 1) 1 = none → fault .null)
    (hLeft : ∀ {s rest args i fuel current}, Left rest args → bytes.drop i = rest →
      s.memory.blocks data = block →
      Meets (fillArguments P data array bytes.length (fuel + 1) i current) s
        (fun _ s' => A ∧ Fills s s' array current args) fault)
    (h : Splits Left suffix args) (hSuffix : bytes.drop i = suffix)
    (hData : s.memory.blocks data = block)
    (hArray : s.memory.blocks array = some b) (hFit : 8 * (current + args.length) ≤ b.size)
    (hFuel : suffix.length < fuel) :
    Meets (fillArguments P data array bytes.length fuel i current) s
      (fun _ s' => A ∧ Fills s s' array current args) fault := by
  obtain ⟨fuel, rfl⟩ : ∃ k, fuel = k + 1 := ⟨fuel - 1, by omega⟩
  induction h generalizing i fuel current s b with
  | left h => exact hLeft h hSuffix hData
  | space _ ih =>
    rw [List.length_cons] at hFuel
    refine .of_eq (fillArguments_space (hBytes s hData) hSuffix) ?_
    exact ih (drop_succ hSuffix) hData hArray hFit _ (by omega)
  | @argument l _ _ hne hProper hEnds _ ih =>
    have hPositive := sourceOf_ne_nil hne
    rw [List.length_append] at hFuel
    rw [List.length_cons] at hFit
    obtain ⟨fuel, rfl⟩ : ∃ k, fuel = k + 1 := ⟨fuel - 1, by omega⟩
    cases hg : P.answer s.memory s.requests ((valueOf l).length + 1) 1 with
    | none =>
      exact .of_error (fillArguments_refused (hBytes s hData) hSuffix (starts_sourceOf hne hProper)
        (skipArgument_ends (hBytes s hData) hSuffix hProper hEnds (by omega)) hg) (hNull s _ hg)
    | some g =>
      obtain ⟨s₁, h₁, hKeeps, hStep⟩ := fillArguments_argument hg hApart ha (hBytes s hData) hArray
        (show 8 * (current + 1) ≤ b.size by omega) hSuffix hne hProper hEnds
      obtain ⟨b₁, hb₁, hSize, -⟩ := h₁.entries b hArray
      refine .of_eq (hStep _) ((ih (drop_behind hSuffix) (hKeeps.trans hData) hb₁
        (show 8 * (current + 1 + _) ≤ b₁.size by omega) fuel (by omega)).imp fun _ s₂ h₂ => ?_)
      exact ⟨h₂.1, .cons hArray h₁ h₂.2⟩

end Passes

section Setup

/-- The array of the arguments with a `NULL` at its end. -/
def ArgumentArray (s : State) (array : Ptr) (args : List (List UInt8)) : Prop :=
  s.memory.load array (8 * args.length) 8 = some (pointerBytes 0) ∧
    ∀ j arg, args[j]? = some arg →
      ∃ target, s.memory.load array (8 * j) 8 = some (pointerBytes target) ∧
      s.memory.load target 0 (arg.length + 1) = some (arg ++ [0])

theorem allocArray {n : Nat} {g : Grant} (hg : P.answer s.memory s.requests (8 * n + 1) 8 = some g)
    (hData : s.memory.load data 0 bytes.length = some bytes) (hne : bytes ≠ []) :
    ∃ array s₁ s₂ b, allocBlock P (8 * n + 1) 8 s = .ok (array, s₁) ∧
      storeBytes array (8 * n) (pointerBytes 0) s₁ = .ok ((), s₂) ∧ data ≠ array ∧ array ≠ 0 ∧
      s₂.memory.blocks data = s.memory.blocks data ∧ s₂.memory.blocks array = some b ∧
        b.size = 8 * n + 8 ∧
      s₂.memory.load array (8 * n) 8 = some (pointerBytes 0) := by
  obtain ⟨s₁, hAlloc, hFresh, ha, h₁⟩ := allocBlock_granted hg
  obtain ⟨d, hd⟩ := exists_block_of_load (List.length_pos_iff.mpr hne) hData
  have hApart : data ≠ g.ptr := by
    rintro rfl
    rw [hFresh] at hd
    cases hd
  have hFit : 8 * n + (pointerBytes 0).length ≤ (8 * n + 1 + 7) / 8 * 8 := by
    rw [length_pointerBytes]
    omega
  obtain ⟨s₂, hStore, h₂⟩ := storeBytes_overwrites ha h₁.self (8 * n) (pointerBytes_ne_nil 0) hFit
  have h := h₁.trans h₂
  refine ⟨g.ptr, s₁, s₂, _, hAlloc, hStore, hApart, ha, h.other hApart, h.self, ?_, ?_⟩
  · change (8 * n + 1 + 7) / 8 * 8 = _
    omega
  · rw [← length_pointerBytes 0]
    exact load_stored ha h.self hFit

theorem setupCharpparray_nonempty (hData : s.memory.load data 0 bytes.length = some bytes)
    (hne : bytes ≠ []) :
    data ≠ 0 ∧ bytes.length ≠ 0 := by
  have hLength := Nat.ne_of_gt (List.length_pos_iff.mpr hne)
  refine ⟨?_, hLength⟩
  rintro rfl
  rw [Memory.load, if_neg hLength, if_pos rfl] at hData
  cases hData

theorem setupCharpparray_ok (hGrants : P.Grants)
    (hData : s.memory.load data 0 bytes.length = some bytes) (hne : bytes ≠ [])
    (h : Grammar bytes args) :
    ∃ array s', setupCharpparray P data bytes.length s = .ok ((args.length, array), s') ∧
      ArgumentArray s' array args := by
  obtain ⟨hp, hLength⟩ := setupCharpparray_nonempty hData hne
  obtain ⟨g, hg⟩ := hGrants s.memory s.requests (8 * args.length + 1) 8 (Nat.succ_pos _)
  obtain ⟨array, s₁, s₂, b, hAlloc, hStore, hApart, ha, hKeeps, hb, hSize, hNull⟩ :=
    allocArray hg hData hne
  have hPass : Meets (fillArguments P data array bytes.length (bytes.length + 2) 0 0) s₂
      (fun _ s' => True ∧ Fills s₂ s' array 0 args) fun _ => False := by
    refine fillArguments_splits hApart ha (fun t ht => (load_congr ht).trans hData)
      (fun t size ht => ?_)
      (fun {s _ _ _ _ current} hLeft hRest _ => ?_) h rfl hKeeps hb (by omega) (by omega)
    · obtain ⟨g, hg⟩ := hGrants t.memory t.requests (size + 1) 1 (Nat.succ_pos _)
      rw [hg] at ht
      cases ht
    · obtain ⟨rfl, rfl⟩ := hLeft
      exact .of_ok (fillArguments_end (List.drop_eq_nil_iff.mp hRest))
        ⟨trivial, .nil s array current⟩
  obtain ⟨⟨⟩, s₃, hFill, -, h₃⟩ := hPass.exists_ok
  refine ⟨array, s₃, ?_, ?_, fun j arg hj => ?_⟩
  · rw [setupCharpparray, if_neg (not_or.mpr ⟨hp, hLength⟩),
      bind_ok (countArguments_grammar hData h), bind_ok hAlloc, bind_ok hStore, bind_ok hFill]
    rfl
  · obtain ⟨b', hb', hSize', hBytes⟩ := h₃.entries b hb
    rw [← hNull]
    exact load_bytes hb hb' hSize' fun i _ => hBytes _ (Or.inr (by omega))
  · obtain ⟨target, -, hPointer, hString⟩ := h₃.strings j arg hj
    rw [Nat.zero_add] at hPointer
    exact ⟨target, hPointer, hString⟩

theorem setupCharpparray_ragged (hData : s.memory.load data 0 bytes.length = some bytes)
    (hOutside : ∀ s', s'.memory.blocks data = s.memory.blocks data →
      dataAt data bytes.length s' = .error .bounds)
    (hne : bytes ≠ []) (h : Ragged bytes args) :
    Meets (setupCharpparray P data bytes.length) s (fun _ _ => False) fun _ => True := by
  rw [setupCharpparray, if_neg (not_or.mpr (setupCharpparray_nonempty hData hne))]
  refine .after (countArguments_ragged hData h) ?_
  cases hg : P.answer s.memory s.requests (8 * args.length + 1) 8 with
  | none =>
    exact .after (allocBlock_none hg)
      (.after_error (storeBytes_null (pointerBytes_ne_nil 0)) trivial)
  | some g =>
    obtain ⟨array, s₁, s₂, b, hAlloc, hStore, hApart, ha, hKeeps, hb, hSize, -⟩ :=
      allocArray hg hData hne
    refine .after hAlloc (.after hStore ?_)
    refine (fillArguments_splits (A := False) hApart ha (fun t ht => (load_congr ht).trans hData)
      (fun _ _ _ => trivial)
      (fun hLeft hRest ht => ?_) h rfl hKeeps hb (by omega) (by omega)).bind fun _ _ h => h.1.elim
    obtain ⟨l, quote, text, hProper, hQuote, hText, rfl, rfl⟩ := hLeft
    obtain ⟨e, hError⟩ := fillArguments_open ((load_congr ht).trans hData)
      (fun s' hs => hOutside s' (hs.trans ht)) hRest
      hProper hQuote hText
    exact .of_error hError trivial

end Setup

end Dandelion.FileSystem
