import Dandelion.FileSystem.ExportSteps

/-! # Exporting a tree

`add_output_from_file` adds an output for every regular file of a tree, with the names
on the way to it as identifier. The buffers with these paths are released when a
directory is done, and what was added does not refer to them.
-/

namespace Dandelion.FileSystem

open Foundation.Triples Foundation.Forests

/-- An output for a file in memory `m'`. Its identifier is new since `start`, and its data are new
or belonged to a file in `m`. -/
structure Exported (m start m' : Memory) (set : Nat) (out : Output) (file : Path × List UInt8) :
    Prop where
  set : out.set = set
  ident : m'.load out.ident 0 out.identLen = some file.1
  data : m'.load out.data 0 out.dataLen = some file.2
  identNew : start.blocks out.ident = none
  dataKept : out.dataLen = 0 ∨ m.blocks out.data ≠ none ∨ start.blocks out.data = none

variable {P : Platform} {s : State} {m m₁ m₂ m₃ : Memory} {p path : Ptr} {set n fuel : Nat}
  {before : List UInt8} {F : Folder} {out : Output} {outs : List Output} {file : Path × List UInt8}
  {files : List (Path × List UInt8)}

section Outputs

theorem Exported.later (h : Exported m m₁ m₂ set out file) (hRetains : Retains m₂ m₃) :
    Exported m m₁ m₃ set out file :=
  ⟨h.set, hRetains.load h.ident, hRetains.load h.data, h.identNew, h.dataKept⟩

theorem Exported.earlier (h : Exported m m₂ m₃ set out file) (hRetains : Retains m₁ m₂) :
    Exported m m₁ m₃ set out file :=
  ⟨h.set, h.ident, h.data, hRetains.vacant_block h.identNew,
    h.dataKept.imp_right (Or.imp_right hRetains.vacant_block)⟩

theorem Exported.drop {b : Block} (h : Exported m m₁ m₂ set out file) (hNone : m.blocks p = none)
    (hSome : m₁.blocks p = some b) : Exported m m₁ (m₂.drop p) set out file := by
  have hNe : ∀ {q}, m₁.blocks q = none → q ≠ p := by
    rintro q hq rfl
    rw [hSome] at hq
    cases hq
  have hLoad : ∀ {q k bytes}, m₂.load q 0 k = some bytes → k = 0 ∨ q ≠ p →
      (m₂.drop p).load q 0 k = some bytes := by
    rintro q k bytes hLoad (rfl | hq)
    · exact hLoad
    · have hSame : (m₂.drop p).blocks q = m₂.blocks q := Function.update_of_ne hq _ _
      rwa [load_congr hSame]
  refine ⟨h.set, hLoad h.ident (Or.inr (hNe h.identNew)), hLoad h.data ?_, h.identNew, h.dataKept⟩
  rcases h.dataKept with hZero | hOld | hNew
  · exact Or.inl hZero
  · refine Or.inr ?_
    rintro rfl
    exact hOld hNone
  · exact Or.inr (hNe hNew)

end Outputs

section Walks

/-- What the walk over a tree has to do at each entry, for the outputs of one entry and of the
entries from one on. -/
structure ExportRules (m : Memory) (entry entries : Nat → Ptr → Ptr → Nat → State →
    List (Path × List UInt8) → Prop) :
    Prop where
  none : ∀ {fuel path n s}, entries (fuel + 1) 0 path n s []
  next : ∀ {fuel p path n s f first rest}, p ≠ 0 → Retains m s.memory → m.files p = some f →
    entry fuel p path n s first →
    (∀ {s₁ : State}, Retains s.memory s₁.memory → entries fuel f.next path n s₁ rest) →
      entries (fuel + 1) p path n s (first ++ rest)
  file : ∀ {fuel p path n s f l before}, Retains m s.memory → p ≠ 0 → m.files p = some f →
    f.type = .file →
    trim f.name fsNameLength ≠ [] → Stored m f.link l → Gatherable l →
      s.memory.load path 0 n = some before →
      entry (fuel + 1) p path n s [(before ++ trim f.name fsNameLength, flat l)]
  directory : ∀ {fuel p path n s f before files}, Retains m s.memory → p ≠ 0 → m.files p = some f →
    f.type = .directory → s.memory.load path 0 n = some before →
    (∀ {s₁ : State} {buffer : Ptr}, Retains m s₁.memory →
      s₁.memory.load buffer 0 (n + namelen f.name fsNameLength + 1) =
        some (before ++ trim f.name fsNameLength ++ [slash]) →
      entries fuel f.link buffer (n + namelen f.name fsNameLength + 1) s₁ files) →
    entry (fuel + 1) p path n s files

variable {entry entries : Nat → Ptr → Ptr → Nat → State → List (Path × List UInt8) → Prop}

theorem ExportRules.tree (h : ExportRules m entry entries) (hF : Planted m p F)
    (hRetains : Retains m s.memory) (hPath : s.memory.load path 0 n = some before)
    (hFuel : 2 * F.height < fuel) :
    entries fuel p path n s (F.spelled [slash] before) := by
  induction F generalizing p path n s before fuel with
  | nil =>
    obtain ⟨fuel, rfl⟩ := Nat.exists_eq_add_one.mpr hFuel
    obtain rfl : p = 0 := hF
    exact h.none
  | leaf name bytes rest ih =>
    obtain ⟨hp, f, hf, hType, rfl, hName, ⟨l, hl, hGather, rfl⟩, hRest⟩ := hF
    rw [Forest.height] at hFuel
    obtain ⟨fuel, rfl⟩ : ∃ k, fuel = k + 2 := ⟨fuel - 2, by omega⟩
    rw [Forest.spelled_leaf]
    exact h.next hp hRetains hf (h.file hRetains hp hf hType hName hl hGather hPath)
      fun hRetains₁ => ih hRest (hRetains.trans hRetains₁) (hRetains₁.load hPath) (by omega)
  | branch name inner rest ihInner ih =>
    obtain ⟨hp, f, hf, hType, rfl, -, hInner, hRest⟩ := hF
    rw [Forest.height] at hFuel
    have hInnerLe := Nat.le_max_left inner.height rest.height
    have hRestLe := Nat.le_max_right inner.height rest.height
    obtain ⟨fuel, rfl⟩ : ∃ k, fuel = k + 2 := ⟨fuel - 2, by omega⟩
    rw [Forest.spelled_branch]
    exact h.next hp hRetains hf (h.directory hRetains hp hf hType hPath
      fun hRetains₁ hLoad => ihInner hInner hRetains₁ hLoad (by omega))
      fun hRetains₁ => ih hRest (hRetains.trans hRetains₁) (hRetains₁.load hPath) (by omega)

end Walks

def Adds (m : Memory) (set : Nat) (x : M (Int × List Output)) (s : State)
    (files : List (Path × List UInt8)) : Prop :=
  ∃ outs s', x s = .ok ((0, outs), s') ∧ Retains s.memory s'.memory ∧
    List.Forall₂ (Exported m s.memory s'.memory set) outs files

section Tree

theorem take_namelen (name : List UInt8) :
    name.take (namelen name fsNameLength) = trim name fsNameLength := by
  have hPrefix : trim name fsNameLength <+: name :=
    (List.takeWhile_prefix _).trans (List.take_prefix _ _)
  exact (List.prefix_iff_eq_take.mp hPrefix).symm

theorem addOutput_file {f : DFile} {l : List Piece} (hGrants : P.Grants)
    (hRetains : Retains m s.memory) (hp : p ≠ 0)
    (hf : m.files p = some f) (hType : f.type = .file) (hName : trim f.name fsNameLength ≠ [])
    (hl : Stored m f.link l) (hGather : Gatherable l)
    (hPath : s.memory.load path 0 n = some before) :
    Adds m set (addOutput P set (fuel + 1) p path n) s
      [(before ++ trim f.name fsNameLength, flat l)] := by
  have hLength : namelen f.name fsNameLength = (trim f.name fsNameLength).length := rfl
  have hPos := List.length_pos_iff.mpr hName
  have hBefore := load_length hPath
  obtain ⟨buffer, s₁, hPrefixed, hVacant, hRetains₁, hBuffer⟩ := prefixedName_ok hGrants hPath
    (trim f.name fsNameLength) (show 0 < n + namelen f.name fsNameLength by omega) (by omega)
  obtain ⟨data, s₂, hContent, hRetains₂, hLoad, hKept⟩ :=
    contiguous_ok hGrants (hRetains.trans hRetains₁) hl hGather
  refine ⟨[⟨set, data, (flat l).length, buffer, namelen f.name fsNameLength + n⟩], s₂, ?_,
    hRetains₁.trans hRetains₂,
    .cons ⟨rfl, ?_, hLoad, hVacant.2.2.2, hKept.imp_right (Or.imp_right hRetains₁.vacant_block)⟩
      .nil⟩
  · rw [addOutput, bind_ok (getFileAt_ok hp (by rw [hRetains.files, hf]))]
    simp only [hType, take_namelen]
    rw [bind_ok hPrefixed, if_neg hVacant.ne_zero, bind_ok hContent]
    rfl
  · have hIdent := hRetains₂.load hBuffer.bytes
    rw [List.length_append, hBefore] at hIdent
    rwa [hLength, Nat.add_comm]

theorem addOutput_directory {f : DFile} (hGrants : P.Grants) (hRetains : Retains m s.memory)
    (hp : p ≠ 0) (hf : m.files p = some f) (hType : f.type = .directory)
    (hPath : s.memory.load path 0 n = some before)
    (hInner : ∀ {s₁ : State} {buffer : Ptr}, Retains m s₁.memory →
      s₁.memory.load buffer 0 (n + namelen f.name fsNameLength + 1) =
        some (before ++ trim f.name fsNameLength ++ [slash]) →
      Adds m set (addChildren P set fuel f.link buffer (n + namelen f.name fsNameLength + 1))
        s₁ files) :
    Adds m set (addOutput P set (fuel + 1) p path n) s files := by
  have hLength : namelen f.name fsNameLength = (trim f.name fsNameLength).length := rfl
  have hBefore := load_length hPath
  obtain ⟨buffer, s₁, hPrefixed, hVacant, hRetains₁, hBuffer₁⟩ := prefixedName_ok hGrants hPath
    (trim f.name fsNameLength) (show 0 < n + namelen f.name fsNameLength + 1 by omega) (by omega)
  obtain ⟨s₂, hSlash, hRetains₂, hBuffer₂⟩ := hBuffer₁.store [slash]
    (by rw [List.length_append, hBefore, hLength]; rfl) hVacant.2.2.2 hRetains₁
  rw [List.length_append, hBefore, ← hLength] at hSlash
  have hLoad := hBuffer₂.bytes
  rw [List.length_append, List.length_append, hBefore, ← hLength, List.length_singleton] at hLoad
  obtain ⟨outs, s₃, hChildren, hRetains₃, hOuts⟩ := hInner (hRetains.trans hRetains₂) hLoad
  obtain ⟨b, hb, -, hForeign⟩ := hBuffer₂.block
  have hLive : s₃.memory.allocated buffer = true := by
    rw [Memory.allocated, hRetains₃.blocks buffer b hb, Option.any_some, hForeign]
    exact Bool.or_true _
  refine ⟨outs, { s₃ with memory := s₃.memory.drop buffer }, ?_,
    (hRetains₂.trans hRetains₃).drop hVacant, ?_⟩
  · rw [addOutput, bind_ok (getFileAt_ok hp (by rw [hRetains.files, hf]))]
    simp only [hType, take_namelen]
    rw [bind_ok hPrefixed, if_neg hVacant.ne_zero, bind_ok hSlash, bind_ok hChildren,
      if_neg (not_not.mpr rfl),
      bind_ok (show dandelionFree buffer s₃ =
        .ok ((), { s₃ with memory := s₃.memory.drop buffer }) from if_pos hLive)]
    rfl
  · exact hOuts.imp fun out file h =>
      (h.drop (hRetains.vacant_block hVacant.2.2.2) hb).earlier hRetains₂

theorem addChildren_cons {f : DFile} {first rest : List (Path × List UInt8)} (hp : p ≠ 0)
    (hRetains : Retains m s.memory) (hf : m.files p = some f)
    (hFirst : Adds m set (addOutput P set fuel p path n) s first)
    (hRest : ∀ {s₁ : State}, Retains s.memory s₁.memory →
      Adds m set (addChildren P set fuel f.next path n) s₁ rest) :
    Adds m set (addChildren P set (fuel + 1) p path n) s (first ++ rest) := by
  obtain ⟨outs₁, s₁, hRun₁, hRetains₁, hOuts₁⟩ := hFirst
  obtain ⟨outs₂, s₂, hRun₂, hRetains₂, hOuts₂⟩ := hRest hRetains₁
  have hf₁ : s₁.memory.files p = some f := by rw [hRetains₁.files, hRetains.files, hf]
  refine ⟨outs₁ ++ outs₂, s₂, ?_, hRetains₁.trans hRetains₂, ?_⟩
  · rw [addChildren, if_neg hp, bind_ok hRun₁, if_neg (not_not.mpr rfl),
      bind_ok (getFileAt_ok hp hf₁), bind_ok hRun₂]
    rfl
  · exact List.rel_append (hOuts₁.imp fun _ _ h => h.later hRetains₂)
      (hOuts₂.imp fun _ _ h => h.earlier hRetains₁)

theorem exportRules (set : Nat) (hGrants : P.Grants) : ExportRules m
    (fun fuel p path n s => Adds m set (addOutput P set fuel p path n) s)
    (fun fuel p path n s => Adds m set (addChildren P set fuel p path n) s) where
  none {fuel path n s} := ⟨[], s, by rw [addChildren, if_pos rfl]; rfl, .refl _, .nil⟩
  next := addChildren_cons
  file := addOutput_file hGrants
  directory := addOutput_directory hGrants

end Tree

end Dandelion.FileSystem
