import Dandelion.FileSystem.Tokens
import Dandelion.FileSystem.WriteStart

/-! # The scans of `setup_charpparray`

Each scan is at an index of the data; what it does depends on the bytes from
there on. The counting scans only read.
-/

namespace Dandelion.FileSystem

open Foundation.Triples

variable {s : State} {data : Ptr} {bytes text rest : List UInt8} {c quote : UInt8}
  {i fuel count : Nat} {l : List Fragment} {args : List (List UInt8)}

section Suffixes

theorem lt_of_drop (h : bytes.drop i = c :: rest) : i < bytes.length := by
  rw [← Nat.not_le, ← List.drop_eq_nil_iff, h]
  exact List.cons_ne_nil _ _

theorem drop_succ (h : bytes.drop i = c :: rest) : bytes.drop (i + 1) = rest := by
  rw [← List.drop_drop, h]
  rfl

theorem drop_behind (h : bytes.drop i = text ++ rest) : bytes.drop (i + text.length) = rest := by
  rw [← List.drop_drop, h, List.drop_left]

theorem length_of_drop (h : bytes.drop i = text) (hi : i ≤ bytes.length) :
    i + text.length = bytes.length := by
  rw [← h, List.length_drop]
  omega

theorem length_le_of_drop (h : bytes.drop i = text) : text.length ≤ bytes.length := by
  rw [← h, List.length_drop]
  exact Nat.sub_le _ _

theorem source_quoted : (Fragment.quoted quote text).source ++ rest =
    quote :: (text ++ quote :: rest) := by
  simp only [Fragment.source, List.cons_append, List.append_assoc, List.nil_append]

def Starts (suffix : List UInt8) : Prop := ∃ c rest, suffix = c :: rest ∧ c ≠ space

theorem quote_ne_space (h : quote ∈ quotes) : quote ≠ space := by
  rintro rfl
  exact absurd h (by decide)

theorem starts_quote (h : quote ∈ quotes) : Starts (quote :: rest) :=
  ⟨quote, rest, rfl, quote_ne_space h⟩

theorem starts_sourceOf (hne : l ≠ []) (hProper : ∀ x ∈ l, x.Proper) :
    Starts (sourceOf l ++ rest) := by
  cases l with
  | nil => exact absurd rfl hne
  | cons x l =>
    have hx := hProper x List.mem_cons_self
    rw [sourceOf_cons, List.append_assoc]
    cases x with
    | plain c => exact ⟨c, _, rfl, hx.1⟩
    | quoted quote text =>
      rw [source_quoted]
      exact starts_quote hx.1

theorem starts_open (hProper : ∀ x ∈ l, x.Proper) (hQuote : quote ∈ quotes) :
    Starts (sourceOf l ++ quote :: text) := by
  by_cases hne : l = []
  · subst hne
    exact starts_quote hQuote
  · exact starts_sourceOf hne hProper

theorem length_le_sourceOf (l : List Fragment) : l.length ≤ (sourceOf l).length := by
  induction l with
  | nil => exact Nat.le_refl 0
  | cons x l ih =>
    rw [sourceOf_cons, List.length_append, List.length_cons]
    cases x with
    | plain c => rw [Fragment.source, List.length_singleton]; omega
    | quoted quote text => rw [Fragment.source, List.length_append, List.length_singleton]; omega

end Suffixes

section Reading

theorem dataAt_ok (hData : s.memory.load data 0 bytes.length = some bytes)
    (h : bytes.drop i = c :: rest) :
    dataAt data i s = .ok (c, s) := by
  have hi := lt_of_drop h
  have hNonzero : bytes.length ≠ 0 := Nat.ne_of_gt (Nat.lt_of_le_of_lt (Nat.zero_le i) hi)
  unfold Memory.load at hData
  rw [if_neg hNonzero] at hData
  split at hData
  · cases hData
  · rename_i hp
    obtain ⟨b, hb, hBytes⟩ := Option.bind_eq_some_iff.mp hData
    split at hBytes
    · rename_i hSize
      rw [dataAt, bind_ok (getBlockAt_ok hp hb), if_pos (by omega)]
      have hAt : bytes[i]? = some c := by
        rw [← Nat.add_zero i, ← List.getElem?_drop, h]
        rfl
      rw [← Option.some.inj hBytes] at hAt
      simp only [List.getElem?_map, List.getElem?_range hi, Option.map_some, Nat.zero_add,
        Option.some.injEq] at hAt
      rw [hAt]
      rfl
    · cases hBytes

variable (hData : s.memory.load data 0 bytes.length = some bytes)

include hData

theorem skipSpaces_ok (hFuel : bytes.length - i < fuel) : skipSpaces data bytes.length fuel i s =
    .ok (i + ((bytes.drop i).takeWhile fun c => c = space).length, s) := by
  induction fuel generalizing i with
  | zero => exact absurd hFuel (Nat.not_lt_zero _)
  | succ fuel ih =>
    rw [skipSpaces]
    cases hSuffix : bytes.drop i with
    | nil =>
      rw [if_neg (Nat.not_lt.mpr (List.drop_eq_nil_iff.mp hSuffix))]
      rfl
    | cons c rest =>
      have hi := lt_of_drop hSuffix
      rw [if_pos hi, bind_ok (dataAt_ok hData hSuffix)]
      by_cases hSpace : c = space
      · rw [if_pos hSpace, ih (by omega), drop_succ hSuffix,
          List.takeWhile_cons_of_pos (by simpa using hSpace), List.length_cons, Nat.add_assoc,
          Nat.add_comm 1]
      · rw [if_neg hSpace, List.takeWhile_cons_of_neg (by simpa using hSpace)]
        rfl

theorem skipSpaces_starts (hSuffix : bytes.drop i = text) (hStarts : Starts text)
    (hFuel : bytes.length < fuel) :
    i < bytes.length ∧ skipSpaces data bytes.length fuel i s = .ok (i, s) := by
  obtain ⟨c, rest, rfl, hSpace⟩ := hStarts
  refine ⟨lt_of_drop hSuffix, ?_⟩
  rw [skipSpaces_ok hData (by omega), hSuffix, List.takeWhile_cons_of_neg (by simpa using hSpace)]
  rfl

theorem skipQuoted_ok (hSuffix : bytes.drop i = text ++ rest) (hText : quote ∉ text)
    (hRest : rest = [] ∨ ∃ r, rest = quote :: r) (hFuel : text.length < fuel) :
    skipQuoted data bytes.length quote fuel i count s =
      .ok ((i + text.length, count + text.length), s) := by
  induction text generalizing i count fuel with
  | nil =>
    cases fuel with
    | zero => exact absurd hFuel (Nat.not_lt_zero _)
    | succ fuel =>
      rw [skipQuoted]
      rcases hRest with rfl | ⟨r, rfl⟩
      · rw [if_neg (Nat.not_lt.mpr (List.drop_eq_nil_iff.mp hSuffix))]
        rfl
      · rw [if_pos (lt_of_drop hSuffix), bind_ok (dataAt_ok hData hSuffix),
          if_neg (not_not.mpr rfl)]
        rfl
  | cons c text ih =>
    rw [List.mem_cons, not_or] at hText
    cases fuel with
    | zero => exact absurd hFuel (Nat.not_lt_zero _)
    | succ fuel =>
      rw [skipQuoted, if_pos (lt_of_drop hSuffix), bind_ok (dataAt_ok hData hSuffix),
        if_pos (Ne.symm hText.1), ih (drop_succ hSuffix) hText.2 (Nat.lt_of_succ_lt_succ hFuel),
        List.length_cons, Nat.add_assoc i, Nat.add_assoc count, Nat.add_comm 1]

theorem skipArgument_proper (hSuffix : bytes.drop i = sourceOf l ++ rest)
    (hProper : ∀ x ∈ l, x.Proper) :
    skipArgument data bytes.length (l.length + fuel) i count s =
      skipArgument data bytes.length fuel (i + (sourceOf l).length)
        (count + (valueOf l).length) s := by
  induction l generalizing i count with
  | nil =>
    simp only [sourceOf, valueOf, List.flatMap_nil, List.length_nil, Nat.add_zero, Nat.zero_add]
  | cons x l ih =>
    have hx := hProper x List.mem_cons_self
    rw [sourceOf_cons, List.append_assoc] at hSuffix
    have hNext := drop_behind hSuffix
    have hFuel : (x :: l).length + fuel = l.length + fuel + 1 := by rw [List.length_cons]; omega
    rw [sourceOf_cons, valueOf_cons, List.length_append,
      List.length_append, ← Nat.add_assoc, ← Nat.add_assoc, ← ih hNext fun y hy =>
        hProper y (List.mem_cons_of_mem _ hy), hFuel]
    cases x with
    | plain c =>
      rw [skipArgument, if_pos (lt_of_drop hSuffix), bind_ok (dataAt_ok hData hSuffix), if_neg hx.1,
        if_neg (isQuote_of_plain hx.2)]
      rfl
    | quoted quote text =>
      have hInner : bytes.drop (i + 1) = text ++ quote :: (sourceOf l ++ rest) := by
        rw [source_quoted] at hSuffix
        exact drop_succ hSuffix
      have hShort := length_le_of_drop hInner
      rw [List.length_append] at hShort
      rw [skipArgument, if_pos (lt_of_drop hSuffix), bind_ok (dataAt_ok hData hSuffix),
        if_neg (quote_ne_space hx.1), if_pos (isQuote_iff.mpr hx.1),
        bind_ok (skipQuoted_ok hData hInner hx.2 (Or.inr ⟨_, rfl⟩) (by omega))]
      simp only [Fragment.source, Fragment.value, List.length_cons, List.length_append,
        List.length_nil]
      rw [show i + 1 + text.length + 1 = i + (text.length + 1 + (0 + 1)) by omega]

theorem skipArgument_ends (hSuffix : bytes.drop i = sourceOf l ++ rest)
    (hProper : ∀ x ∈ l, x.Proper) (hEnds : Ends rest) (hFuel : bytes.length < fuel) :
    skipArgument data bytes.length fuel i count s =
      .ok ((i + (sourceOf l).length, count + (valueOf l).length), s) := by
  have hShort := length_le_of_drop hSuffix
  have hFragments := length_le_sourceOf l
  rw [List.length_append] at hShort
  obtain ⟨k, rfl⟩ : ∃ k, fuel = l.length + (k + 1) := ⟨fuel - l.length - 1, by omega⟩
  rw [skipArgument_proper hData hSuffix hProper, skipArgument]
  have hStop := drop_behind hSuffix
  rcases hEnds with rfl | ⟨r, rfl⟩
  · rw [if_neg (Nat.not_lt.mpr (List.drop_eq_nil_iff.mp hStop))]
    rfl
  · rw [if_pos (lt_of_drop hStop), bind_ok (dataAt_ok hData hStop), if_pos rfl]
    rfl

theorem skipArgument_open (hSuffix : bytes.drop i = sourceOf l ++ quote :: text)
    (hProper : ∀ x ∈ l, x.Proper) (hQuote : quote ∈ quotes) (hText : quote ∉ text)
    (hFuel : bytes.length + 1 < fuel) :
    skipArgument data bytes.length fuel i count s =
      .ok ((bytes.length + 1, count + (valueOf l ++ text).length), s) := by
  have hShort := length_le_of_drop hSuffix
  have hFragments := length_le_sourceOf l
  rw [List.length_append] at hShort
  obtain ⟨k, rfl⟩ : ∃ k, fuel = l.length + (k + 1 + 1) := ⟨fuel - l.length - 2, by omega⟩
  rw [skipArgument_proper hData hSuffix hProper, skipArgument]
  have hStop := drop_behind hSuffix
  have hi := lt_of_drop hStop
  have hInner : bytes.drop (i + (sourceOf l).length + 1) = text ++ [] := by
    rw [drop_succ hStop, List.append_nil]
  have hTail := length_of_drop hInner hi
  rw [List.append_nil] at hTail
  rw [if_pos hi, bind_ok (dataAt_ok hData hStop), if_neg (quote_ne_space hQuote),
    if_pos (isQuote_iff.mpr hQuote),
    bind_ok (skipQuoted_ok hData hInner hText (Or.inl rfl) (by omega)), hTail, skipArgument,
    if_neg (Nat.not_lt.mpr (Nat.le_succ _)), List.length_append, Nat.add_assoc]
  rfl

end Reading

section Counting

theorem countArguments_end (h : bytes.length ≤ i) :
    countArguments data bytes.length (fuel + 1) i count s = .ok (count, s) := by
  rw [countArguments, if_neg (Nat.not_lt.mpr h)]
  rfl

variable (hData : s.memory.load data 0 bytes.length = some bytes)

include hData

theorem countArguments_space (hSuffix : bytes.drop i = space :: rest) :
    countArguments data bytes.length (fuel + 1) i count s =
      countArguments data bytes.length (fuel + 1) (i + 1) count s := by
  have hi := lt_of_drop hSuffix
  rw [countArguments, countArguments, if_pos hi, bind_ok (skipSpaces_ok hData (by omega)), hSuffix,
    List.takeWhile_cons_of_pos (by decide), List.length_cons, Nat.add_comm _ 1, ← Nat.add_assoc]
  by_cases hNext : i + 1 < bytes.length
  · rw [if_pos hNext, bind_ok (skipSpaces_ok hData (by omega)), drop_succ hSuffix]
  · rw [if_neg hNext, if_pos (by omega)]

theorem countArguments_argument {stop chars : Nat} (hSuffix : bytes.drop i = text)
    (hStarts : Starts text) (hSkip : skipArgument data bytes.length (bytes.length + 2) i 0 s =
      .ok ((stop, chars), s)) :
    countArguments data bytes.length (fuel + 1) i count s =
      countArguments data bytes.length fuel stop (count + 1) s := by
  obtain ⟨hi, hStart⟩ :=
    skipSpaces_starts hData hSuffix hStarts (show bytes.length < bytes.length + 2 by omega)
  rw [countArguments, if_pos hi, bind_ok hStart, if_neg (Nat.not_le.mpr hi), bind_ok hSkip]

theorem countArguments_splits {Left : List UInt8 → List (List UInt8) → Prop} {suffix : List UInt8}
    (hLeft : ∀ {rest args i fuel count}, Left rest args → bytes.drop i = rest → rest.length < fuel →
      countArguments data bytes.length fuel i count s = .ok (count + args.length, s))
    (h : Splits Left suffix args) (hSuffix : bytes.drop i = suffix) (hFuel : suffix.length < fuel) :
    countArguments data bytes.length fuel i count s = .ok (count + args.length, s) := by
  induction h generalizing i fuel count with
  | left h => exact hLeft h hSuffix hFuel
  | space _ ih =>
    obtain ⟨fuel, rfl⟩ : ∃ k, fuel = k + 1 := ⟨fuel - 1, by omega⟩
    rw [List.length_cons] at hFuel
    rw [countArguments_space hData hSuffix, ih (drop_succ hSuffix) (by omega)]
  | argument hne hProper hEnds _ ih =>
    have hPositive := sourceOf_ne_nil hne
    rw [List.length_append] at hFuel
    obtain ⟨fuel, rfl⟩ : ∃ k, fuel = k + 1 := ⟨fuel - 1, by omega⟩
    rw [countArguments_argument hData hSuffix (starts_sourceOf hne hProper)
      (skipArgument_ends hData hSuffix hProper hEnds (by omega)),
      ih (drop_behind hSuffix) (by omega), List.length_cons]
    congr 2
    omega

theorem countArguments_grammar (h : Grammar bytes args) :
    countArguments data bytes.length (bytes.length + 2) 0 0 s = .ok (args.length, s) := by
  rw [← Nat.zero_add args.length]
  refine countArguments_splits hData (fun hLeft hRest hFuel => ?_) h rfl (by omega)
  obtain ⟨rfl, rfl⟩ := hLeft
  obtain ⟨k, rfl⟩ := Nat.exists_eq_add_one.mpr hFuel
  exact countArguments_end (List.drop_eq_nil_iff.mp hRest)

theorem countArguments_ragged (h : Ragged bytes args) :
    countArguments data bytes.length (bytes.length + 2) 0 0 s = .ok (args.length, s) := by
  rw [← Nat.zero_add args.length]
  refine countArguments_splits hData (fun {_ _ _ fuel _} hLeft hRest hFuel => ?_) h rfl (by omega)
  obtain ⟨l, quote, text, hProper, hQuote, hText, rfl, rfl⟩ := hLeft
  rw [List.length_append, List.length_cons] at hFuel
  obtain ⟨k, rfl⟩ : ∃ k, fuel = k + 2 := ⟨fuel - 2, by omega⟩
  rw [countArguments_argument hData hRest (starts_open hProper hQuote)
    (skipArgument_open hData hRest hProper hQuote hText (by omega)),
    countArguments_end (Nat.le_succ _)]
  rfl

end Counting

end Dandelion.FileSystem
