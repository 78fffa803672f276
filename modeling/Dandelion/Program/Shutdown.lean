import Dandelion.FileSystem.ExportLaw
import Dandelion.Program.Handing

/-! # End of a program

`fs_terminate` walks the directories of the output sets and adds outputs on the way. A
refused request for memory makes it pass over files, or ends the process at once.
-/

namespace Dandelion.Program

open Foundation.Components Foundation.Triples Foundation.Forests
open Runtime.IoSets (SystemData Serves dandelionExit)
open FileSystem (ExportRules SetRules Ptr Path Memory Folder Names Retains Planted Piece Stored
  Gatherable DFile exported exportedFrom slash
  eNOMEM flat trim namelen fsNameLength)

variable {H : Host} {d : SystemData} {s : FileSystem.State} {m start : Memory}
  {files : List (Nat × Path × List UInt8)}

section Tree

variable {p path : Ptr} {set n fuel : Nat} {before : List UInt8} {l : List Piece} {F : Folder}
  {f : DFile}

theorem refused_short {size alignment : Nat} (hSize : 0 < size)
    (h : H.files.answer s.memory s.requests size alignment = none) : ¬ H.files.Grants := by
  intro hGrants
  obtain ⟨grant, hGrant⟩ := hGrants s.memory s.requests size alignment hSize
  rw [h] at hGrant
  cases hGrant

theorem contiguous_hands {α : Type} {good : α → Prop} {g : Ptr × Nat → Run α}
    (hStart : Retains start s.memory) (hRetains : Retains m s.memory) (hl : Stored m p l)
    (hGather : Gatherable l) (hg : ∀ data s₁, Retains s.memory s₁.memory →
      s₁.memory.load data 0 (flat l).length = some (flat l) →
      ((flat l).length = 0 ∨ m.blocks data ≠ none ∨ s.memory.blocks data = none) →
      Hands H.files.Grants d m start good (g (data, (flat l).length)) s₁ files) :
    Hands H.files.Grants d m start good (orExit H (FileSystem.contiguous H.files p) >>= g) s
      files := by
  rcases FileSystem.contiguous_cases H.files hRetains hl hGather with ⟨data, s₁, hRun, hRetains₁,
      hLoad, hKept⟩ |
    ⟨hRun, hPos, hRefused⟩
  · intro t outs hServes
    have hLift : orExit H (FileSystem.contiguous H.files p) (s, t) =
        .ok ((data, (flat l).length), s₁, t) := by
      rw [orExit, hRun]
      exact onFirst_ok hRun
    exact .after hLift (hg data s₁ hRetains₁ hLoad hKept t outs hServes)
  · intro t outs hServes
    have hLift : orExit H (FileSystem.contiguous H.files p) (s, t) =
        (endWith (dandelionExit H.sets eNOMEM) : Run (Ptr × Nat)) (s, t) := by rw [orExit, hRun]
    refine .of_eq (bind_congr_at hLift) ?_
    rw [endWith_bind]
    exact Hands.ends (refused_short hPos hRefused) hStart t outs hServes

theorem addOutput_file_hands (hRetains : Retains m s.memory) (hp : p ≠ 0) (hf : m.files p = some f)
    (hType : f.type = .file) (hName : trim f.name fsNameLength ≠ [])
    (hl : Stored m f.link l) (hGather : Gatherable l)
    (hPath : s.memory.load path 0 n = some before) :
    Hands H.files.Grants d m s.memory (· = 0) (addOutput H set (fuel + 1) p path n) s
      [(set, before ++ trim f.name fsNameLength, flat l)] := by
  have hLength : namelen f.name fsNameLength = (trim f.name fsNameLength).length := rfl
  have hPos := List.length_pos_iff.mpr hName
  have hBefore := FileSystem.load_length hPath
  rw [addOutput]
  refine .after (FileSystem.getFileAt_ok hp (by rw [hRetains.files, hf])) ?_
  simp only [hType, FileSystem.take_namelen]
  cases hAnswer : H.files.answer s.memory s.requests (n + namelen f.name fsNameLength) 1 with
  | none =>
    refine .after (FileSystem.prefixedName_refused hAnswer _) ?_
    rw [if_pos rfl]
    exact .short (refused_short (by omega) hAnswer) (.refl _)
  | some grant =>
    obtain ⟨buffer, s₁, hPrefixed, hVacant, hRetains₁, hBuffer⟩ :=
      FileSystem.prefixedName_answered hAnswer hPath
      (trim f.name fsNameLength) (by omega)
    refine .after hPrefixed ?_
    rw [if_neg hVacant.ne_zero]
    refine contiguous_hands hRetains₁ (hRetains.trans hRetains₁) hl hGather
      fun data s₂ hRetains₂ hLoad hKept => ?_
    refine Hands.emit ⟨set, data, (flat l).length, buffer, namelen f.name fsNameLength + n⟩
      (fun _ => rfl)
      (hRetains₁.trans hRetains₂)
        ⟨rfl, ?_, hLoad, hVacant.2.2.2, hKept.imp_right (Or.imp_right hRetains₁.vacant_block)⟩
    have hIdent := hRetains₂.load hBuffer.bytes
    rw [List.length_append, hBefore] at hIdent
    rwa [hLength, Nat.add_comm]

theorem addOutput_directory_hands (hRetains : Retains m s.memory) (hp : p ≠ 0)
    (hf : m.files p = some f) (hType : f.type = .directory)
    (hPath : s.memory.load path 0 n = some before)
    (hInner : ∀ {s₁ : FileSystem.State} {buffer : Ptr}, Retains m s₁.memory →
      s₁.memory.load buffer 0 (n + namelen f.name fsNameLength + 1) =
        some (before ++ trim f.name fsNameLength ++ [slash]) →
      Hands H.files.Grants d m s₁.memory (· = 0)
        (addChildren H set fuel f.link buffer (n + namelen f.name fsNameLength + 1)) s₁ files) :
    Hands H.files.Grants d m s.memory (· = 0) (addOutput H set (fuel + 1) p path n) s files := by
  have hLength : namelen f.name fsNameLength = (trim f.name fsNameLength).length := rfl
  have hBefore := FileSystem.load_length hPath
  rw [addOutput]
  refine .after (FileSystem.getFileAt_ok hp (by rw [hRetains.files, hf])) ?_
  simp only [hType, FileSystem.take_namelen]
  cases hAnswer : H.files.answer s.memory s.requests (n + namelen f.name fsNameLength + 1) 1 with
  | none =>
    refine .after (FileSystem.prefixedName_refused hAnswer _) ?_
    rw [if_pos rfl]
    exact .ends (refused_short (Nat.succ_pos _) hAnswer) (.refl _)
  | some grant =>
    obtain ⟨buffer, s₁, hPrefixed, hVacant, hRetains₁, hBuffer₁⟩ :=
      FileSystem.prefixedName_answered hAnswer hPath
      (trim f.name fsNameLength) (by omega)
    obtain ⟨s₂, hSlash, hRetains₂, hBuffer₂⟩ := hBuffer₁.store [slash]
      (by rw [List.length_append, hBefore, hLength]; rfl) hVacant.2.2.2 hRetains₁
    rw [List.length_append, hBefore, ← hLength] at hSlash
    have hLoad := hBuffer₂.bytes
    rw [List.length_append, List.length_append, hBefore, ← hLength, List.length_singleton] at hLoad
    obtain ⟨b, hb, -, hForeign⟩ := hBuffer₂.block
    refine .after hPrefixed ?_
    rw [if_neg hVacant.ne_zero]
    refine .after hSlash ?_
    -- the walk below the directory counts from the state with the buffer, the whole one from before
    -- it
    intro t outs hServes
    have hChildren := hInner (hRetains.trans hRetains₂) hLoad t outs hServes
    refine (hChildren.mono (fun _ _ h => h) fun halt hStops => ?_).bind fun error q hPost => ?_
    · rcases hStops with hStarves | ⟨hShort, f', t', new, rfl, hCode, hNew, hEncodes⟩
      · exact Or.inl hStarves
      · exact Or.inr ⟨hShort, f', t', new, rfl, hCode, hNew.earlier hRetains₂, hEncodes⟩
    · obtain ⟨s₃, t₃⟩ := q
      obtain ⟨hRefused, hGood, new, hNew, hServes₃⟩ := hPost
      refine .ite (fun _ => .pure ⟨hRefused, hGood, new, hNew.earlier hRetains₂, hServes₃⟩)
        fun _ => ?_
      have hLive : s₃.memory.allocated buffer = true := by
        rw [Memory.allocated, hNew.retains.blocks buffer b hb, Option.any_some, hForeign]
        exact Bool.or_true _
      have hFree : FileSystem.dandelionFree buffer s₃ =
          .ok ((), { s₃ with memory := s₃.memory.drop buffer }) := if_pos hLive
      refine .after (onFirst_ok hFree) (.pure ⟨hRefused, hGood, new, ?_, hServes₃⟩)
      exact hNew.drop hRetains₂ hVacant (hRetains.vacant_block hVacant.2.2.2) hb

theorem addChildren_cons_hands {first rest : List (Nat × Path × List UInt8)} (hp : p ≠ 0)
    (hRetains : Retains m s.memory) (hf : m.files p = some f)
    (hFirst : Hands H.files.Grants d m s.memory (· = 0) (addOutput H set fuel p path n) s first)
    (hRest : ∀ {s₁ : FileSystem.State}, Retains s.memory s₁.memory →
      Hands H.files.Grants d m s₁.memory (· = 0) (addChildren H set fuel f.next path n) s₁ rest) :
    Hands H.files.Grants d m s.memory (· = 0) (addChildren H set (fuel + 1) p path n) s
      (first ++ rest) := by
  rw [addChildren, if_neg hp]
  refine .bind hFirst fun error s₁ hGood hRetains₁ => .ite (fun hne => ?_) fun _ => ?_
  · exact .short (fun hGrants => hne (hGood hGrants)) (.refl _)
  · refine .after (FileSystem.getFileAt_ok hp (by rw [hRetains₁.files, hRetains.files, hf])) ?_
    exact hRest hRetains₁

theorem exportRules_hands (set : Nat) : ExportRules m
    (fun fuel p path n s l =>
      Hands H.files.Grants d m s.memory (· = 0) (addOutput H set fuel p path n) s (l.map (set, ·)))
    (fun fuel p path n s l =>
      Hands H.files.Grants d m s.memory (· = 0) (addChildren H set fuel p path n) s
        (l.map (set, ·)))
    where
  none {fuel path n s} := by
    rw [addChildren, if_pos rfl]
    exact .pure (fun _ => rfl) (.refl _) fun _ => rfl
  next hp hRetains hf hFirst hRest := by
    rw [List.map_append]
    exact addChildren_cons_hands hp hRetains hf hFirst hRest
  file := addOutput_file_hands
  directory := addOutput_directory_hands

end Tree

section Sets

variable {p : Ptr} {set fuel k j : Nat} {F : Folder} {f : DFile}

theorem terminateSet_entry_hands {first rest : List (Nat × Path × List UInt8)} (ident : Path)
    (hp : p ≠ 0) (hRetains : Retains m s.memory) (hf : m.files p = some f)
    (hFirst : ∀ k, m.limit ≤ k →
      Hands H.files.Grants d m s.memory (· = 0) (addOutput H set (2 * k + 1 + 1) p 0 0) s first)
    (hRest : ∀ {s₁ : FileSystem.State}, Retains m s₁.memory →
      Hands H.files.Grants d m s₁.memory (fun _ => True) (terminateSet H ident set fuel f.next)
        s₁ rest) :
    Hands H.files.Grants d m s.memory (fun _ => True) (terminateSet H ident set (fuel + 1) p) s
      (if FileSystem.skipped H.files ident f.name then rest else first ++ rest) := by
  rw [terminateSet, if_neg hp]
  refine .after (FileSystem.getFileAt_ok hp (by rw [hRetains.files, hf])) ?_
  by_cases hSkip : FileSystem.skipped H.files ident f.name = true
  · rw [if_pos hSkip, if_pos hSkip]
    exact hRest hRetains
  · rw [if_neg hSkip, if_neg hSkip]
    refine .bind (.after FileSystem.steps_ok (hFirst _ hRetains.limit)) fun _ s₁ _ hRetains₁ => ?_
    refine .after (FileSystem.getFileAt_ok hp (by rw [hRetains₁.files, hRetains.files, hf])) ?_
    exact hRest (hRetains.trans hRetains₁)

theorem setRules_hands (ident : Path) (set : Nat) : SetRules H.files m ident
    (fun fuel p path n s l =>
      Hands H.files.Grants d m s.memory (· = 0) (addOutput H set fuel p path n) s (l.map (set, ·)))
    (fun fuel p s l => Hands H.files.Grants d m s.memory (fun _ => True)
      (terminateSet H ident set fuel p) s (l.map (set, ·)))
    where
  none {fuel s} := by
    rw [terminateSet, if_pos rfl]
    exact .pure (fun _ => trivial) (.refl _) fun _ => rfl
  next hp hRetains hf hFirst hRest := by
    have hEntry := terminateSet_entry_hands ident hp hRetains hf hFirst hRest
    rwa [← List.map_append, ← apply_ite (List.map _)] at hEntry

def setsFrom (H : Host) (d : SystemData) (F : Nat → Folder) (k n : Nat) : List (Path × Folder) :=
  (List.range' k n).map fun i => (H.outputPath d i, F i)

theorem terminateSets_hands {F : Nat → Folder}
    (hSets : ∀ i < d.outputSetsLen, Names H.files m (H.outputPath d i) (F i))
    (hRetains : Retains m s.memory) (hCount : j + k = d.outputSetsLen) :
    Hands H.files.Grants d m s.memory (fun _ => True) (terminateSets H k j) s
      (exportedFrom j (setsFrom H d F j k)) := by
  induction k generalizing j s with
  | zero => exact .pure (fun _ => trivial) (.refl _) fun _ => rfl
  | succ k ih =>
    have hj : j < d.outputSetsLen := by omega
    obtain ⟨directory, e, hne, hFind, he, hF⟩ := (hSets j hj).find hRetains
    have hFuel : (F j).height < s.memory.limit + 1 :=
      Nat.lt_succ_of_le (hF.height_le.trans hRetains.limit)
    rw [terminateSets, setsFrom, List.range'_succ, List.map_cons, exportedFrom]
    refine .answered (fun t outs hServes => (hServes.outputLabel hj).1)
      (.answered (fun t outs hServes => (hServes.outputLabel hj).2) (.after hFind ?_))
    rw [if_neg hne]
    refine .after (FileSystem.getFileAt_ok hne (by rw [hRetains.files, he]))
      (.after FileSystem.steps_ok ?_)
    refine .bind ((setRules_hands _ j).folder (exportRules_hands j) hF hRetains hFuel)
      fun _ s₁ _ hRetains₁ => ?_
    exact ih (hRetains.trans hRetains₁) (by omega)

end Sets

end Dandelion.Program
