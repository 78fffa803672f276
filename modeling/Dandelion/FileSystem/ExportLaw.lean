import Dandelion.FileSystem.Export
import Dandelion.FileSystem.Readdir
import Dandelion.FileSystem.SteadyRuns

/-! # The export law

`fs_terminate` goes through the output sets and adds the files below the directories
that they name, each file once and in the order of the child lists. What a run gave
the program as its input in the `stdio` folder is left out.
-/

namespace Dandelion.FileSystem

open Foundation.Triples Foundation.Forests Foundation.Runs

def inputNames : List Path := [environName, argvName, stdinName]

/-- The entries of the directory of a set that are exported. -/
def exported (ident : Path) (F : Folder) : Folder :=
  F.keep fun name => !(decide (trim ident ident.length = stdioName) && inputNames.contains name)

/-- An output set: its identifier names a directory in the root, which holds the given entries. -/
structure Names (P : Platform) (m : Memory) (ident : Path) (F : Folder) : Prop where
  component : ident ≠ [dot] ∧ ident ≠ [dot, dot]
  directory : ∃ l f, Entries m fsRoot l ∧ Sorted P m l ∧ lookupIn m ident l ≠ 0 ∧
    m.files (lookupIn m ident l) = some f ∧ f.type = .directory ∧ Planted m f.link F

/-- The files of the sets from a given one on: the set, the path below its directory and the
content. -/
def exportedFrom : Nat → List (Path × Folder) → List (Nat × Path × List UInt8)
  | _, [] => []
  | set, x :: rest =>
    ((exported x.1 x.2).spelled [slash] []).map (fun file => (set, file)) ++ exportedFrom
      (set + 1) rest

/-- What memory holds for a buffer that was added. -/
structure Emits (m : Memory) (out : Output) (file : Nat × Path × List UInt8) : Prop where
  set : out.set = file.1
  ident : m.load out.ident 0 out.identLen = some file.2.1
  data : m.load out.data 0 out.dataLen = some file.2.2

variable {P : Platform} {s : State} {m : Memory} {p : Ptr} {set fuel : Nat} {F : Folder}
  {ident : Path}

section Sets

theorem skipped_eq (P : Platform) (ident : Path) (name : List UInt8) : skipped P ident name =
    (decide (trim ident ident.length = stdioName) && inputNames.contains
      (trim name fsNameLength)) := by
  have hName : ∀ other : Path, trim other other.length = other →
      decide (namecmp P.signedChar name fsNameLength other other.length = 0) =
        decide (trim name fsNameLength = other) := by
    intro other hOther
    rw [decide_eq_decide, namecmp_eq_zero_iff, hOther]
  have hSet : sameName P ident stdioName = decide (trim ident ident.length = stdioName) := by
    rw [sameName, decide_eq_decide, namecmp_eq_zero_iff]
    rfl
  rw [skipped, hSet, hName environName rfl, hName argvName rfl, hName stdinName rfl]
  simp [inputNames, Bool.or_assoc]

def AddsAll (m : Memory) (set : Nat) (x : M (List Output)) (s : State)
    (files : List (Path × List UInt8)) : Prop :=
  ∃ outs s', x s = .ok (outs, s') ∧ Retains s.memory s'.memory ∧
    List.Forall₂ (Exported m s.memory s'.memory set) outs files

theorem terminateSet_entry {f : DFile} {first rest : List (Path × List UInt8)} (ident : Path)
    (hp : p ≠ 0) (hRetains : Retains m s.memory) (hf : m.files p = some f)
    (hFirst : ∀ k, m.limit ≤ k → Adds m set (addOutput P set (2 * k + 1 + 1) p 0 0) s first)
    (hRest : ∀ {s₁ : State}, Retains m s₁.memory →
      AddsAll m set (terminateSet P ident set fuel f.next) s₁ rest) :
    AddsAll m set (terminateSet P ident set (fuel + 1) p) s (if skipped P ident f.name then rest
      else first ++ rest) := by
  have hf' : s.memory.files p = some f := by rw [hRetains.files, hf]
  by_cases hSkip : skipped P ident f.name = true
  · obtain ⟨outs, s₁, hRun, hRest'⟩ := hRest hRetains
    refine ⟨outs, s₁, ?_, ?_⟩
    · rw [terminateSet, if_neg hp, bind_ok (getFileAt_ok hp hf'), if_pos hSkip, hRun]
    · rwa [if_pos hSkip]
  · obtain ⟨outs₁, s₁, hRun₁, hRetains₁, hOuts₁⟩ := hFirst s.memory.limit hRetains.limit
    obtain ⟨outs₂, s₂, hRun₂, hRetains₂, hOuts₂⟩ := hRest (hRetains.trans hRetains₁)
    have hf₁ : s₁.memory.files p = some f := by rw [hRetains₁.files, hf']
    have hOutput : addOutputFromFile P p 0 0 set s = .ok ((0, outs₁), s₁) := by
      rw [addOutputFromFile, bind_ok steps_ok]
      exact hRun₁
    refine ⟨outs₁ ++ outs₂, s₂, ?_, hRetains₁.trans hRetains₂, ?_⟩
    · rw [terminateSet, if_neg hp, bind_ok (getFileAt_ok hp hf'), if_neg hSkip, bind_ok hOutput,
        bind_ok (getFileAt_ok hp hf₁), bind_ok hRun₂]
      rfl
    · rw [if_neg hSkip]
      exact List.rel_append (hOuts₁.imp fun _ _ h => h.later hRetains₂)
        (hOuts₂.imp fun _ _ h => h.earlier hRetains₁)

/-- What the loop over the entries of a directory has to do at each of them. -/
structure SetRules (P : Platform) (m : Memory) (ident : Path)
    (entry : Nat → Ptr → Ptr → Nat → State → List (Path × List UInt8) → Prop)
    (loop : Nat → Ptr → State → List (Path × List UInt8) → Prop) : Prop where
  none : ∀ {fuel s}, loop (fuel + 1) 0 s []
  next : ∀ {fuel p s f first rest}, p ≠ 0 → Retains m s.memory → m.files p = some f →
    (∀ k, m.limit ≤ k → entry (2 * k + 1 + 1) p 0 0 s first) →
    (∀ {s₁ : State}, Retains m s₁.memory → loop fuel f.next s₁ rest) →
      loop (fuel + 1) p s (if skipped P ident f.name then rest else first ++ rest)

theorem SetRules.folder {entry entries : Nat → Ptr → Ptr → Nat → State →
    List (Path × List UInt8) → Prop}
    {loop : Nat → Ptr → State → List (Path × List UInt8) → Prop} (h : SetRules P m ident entry loop)
    (hTree : ExportRules m entry entries) (hF : Planted m p F) (hRetains : Retains m s.memory)
    (hFuel : F.height < fuel) : loop fuel p s ((exported ident F).spelled [slash] []) := by
  have hPath : ∀ {s : State}, s.memory.load 0 0 0 = some [] := rfl
  induction F generalizing p s fuel with
  | nil =>
    obtain ⟨fuel, rfl⟩ := Nat.exists_eq_add_one.mpr hFuel
    obtain rfl : p = 0 := hF
    exact h.none
  | leaf name bytes rest ih =>
    obtain ⟨hp, f, hf, hType, rfl, hName, ⟨l, hl, hGather, rfl⟩, hRest⟩ := hF
    rw [Forest.height] at hFuel
    obtain ⟨fuel, rfl⟩ : ∃ k, fuel = k + 1 := ⟨fuel - 1, by omega⟩
    have hEntry := h.next hp hRetains hf
      (fun k _ => hTree.file hRetains hp hf hType hName hl hGather hPath)
      (fun hRetains₁ => ih hRest hRetains₁ (Nat.lt_of_succ_lt_succ hFuel))
    rw [exported, Forest.keep, ← skipped_eq P]
    cases hSkip : skipped P ident f.name with
    | true => rwa [hSkip] at hEntry
    | false =>
      rw [hSkip] at hEntry
      rw [Bool.not_false, if_pos rfl, Forest.spelled_leaf]
      exact hEntry
  | branch name inner rest _ ih =>
    obtain ⟨hp, f, hf, hType, rfl, -, hInner, hRest⟩ := hF
    rw [Forest.height] at hFuel
    have hRestLe := Nat.le_max_right inner.height rest.height
    obtain ⟨fuel, rfl⟩ : ∃ k, fuel = k + 1 := ⟨fuel - 1, by omega⟩
    have hLt : rest.height < fuel := by omega
    have hEntry := h.next hp hRetains hf
      (fun k hk => hTree.directory hRetains hp hf hType hPath fun hRetains₁ hLoad =>
        hTree.tree hInner hRetains₁ hLoad (by have hLe := hInner.height_le; omega))
      (fun hRetains₁ => ih hRest hRetains₁ hLt)
    rw [exported, Forest.keep, ← skipped_eq P]
    cases hSkip : skipped P ident f.name with
    | true => rwa [hSkip] at hEntry
    | false =>
      rw [hSkip] at hEntry
      rw [Bool.not_false, if_pos rfl, Forest.spelled_branch]
      exact hEntry

theorem setRules :
    SetRules P m ident (fun fuel p path n s => Adds m set (addOutput P set fuel p path n) s)
    (fun fuel p s => AddsAll m set (terminateSet P ident set fuel p) s) where
  none {fuel s} := ⟨[], s, by rw [terminateSet, if_pos rfl]; rfl, .refl _, .nil⟩
  next := terminateSet_entry ident

theorem Names.find (h : Names P m ident F) (hRetains : Retains m s.memory) : ∃ d f, d ≠ 0 ∧
    findFileInDir P fsRoot ident s = .ok (d, s) ∧ m.files d = some f ∧ Planted m f.link F := by
  obtain ⟨l, f, hEntries, hSorted, hne, hf, -, hF⟩ := h.directory
  have hEntries' : Entries s.memory fsRoot l := hEntries.frame
    (fun e he => ⟨e, by rw [hRetains.files, he], rfl, rfl⟩)
    fun q _ => by rw [nextNode, nextNode, hRetains.files]
  have hSame : ∀ q ∈ l, nameOf s.memory q = nameOf m q :=
    fun q _ => by rw [nameOf, nameOf, hRetains.files]
  have hFind := findFileInDir_ok hEntries' (hSorted.congr hSame) h.component.1 h.component.2
  rw [lookupIn_congr hSame] at hFind
  exact ⟨_, f, hne, hFind, hf, hF⟩

theorem terminateSets_ok (hGrants : P.Grants) {sets : List (Path × Folder)}
    (hSets : ∀ x ∈ sets, Names P m x.1 x.2)
    (hRetains : Retains m s.memory) (set : Nat) :
    ∃ outs s', terminateSets P set (sets.map Prod.fst) s = .ok (outs, s') ∧
      Retains s.memory s'.memory ∧ List.Forall₂ (Emits s'.memory) outs (exportedFrom set sets) := by
  induction sets generalizing s set with
  | nil => exact ⟨[], s, rfl, .refl _, .nil⟩
  | cons x rest ih =>
    obtain ⟨d, f, hd, hFind, hf, hF⟩ := (hSets x List.mem_cons_self).find hRetains
    have hFuel : x.2.height < s.memory.limit + 1 :=
      Nat.lt_succ_of_le (hF.height_le.trans hRetains.limit)
    obtain ⟨outs₁, s₁, hRun₁, hRetains₁, hOuts₁⟩ :=
      setRules.folder (exportRules set hGrants) hF hRetains hFuel
    obtain ⟨outs₂, s₂, hRun₂, hRetains₂, hOuts₂⟩ :=
      ih (fun y hy => hSets y (List.mem_cons_of_mem _ hy))
      (hRetains.trans hRetains₁) (set + 1)
    refine ⟨outs₁ ++ outs₂, s₂, ?_, hRetains₁.trans hRetains₂, ?_⟩
    · rw [List.map_cons, terminateSets, bind_ok hFind, if_neg hd,
        bind_ok (getFileAt_ok hd (by rw [hRetains.files, hf])), bind_ok steps_ok, bind_ok hRun₁,
        bind_ok hRun₂]
      rfl
    · refine List.rel_append ?_ hOuts₂
      refine List.forall₂_map_right_iff.mpr (hOuts₁.imp fun out file h => ?_)
      exact ⟨h.set, hRetains₂.load h.ident, hRetains₂.load h.data⟩

end Sets

section Law

/-- Every file below the directory of an output set is added to that set, once and in order, and
nothing else is. -/
theorem outputs_exported (hGrants : P.Grants) (sets : List (Path × Folder))
    (hSets : ∀ x ∈ sets, Names P s.memory x.1 x.2) :
    ∃ outs s', fsTerminate P (sets.map Prod.fst) s = .ok (outs, s') ∧
      List.Forall₂ (Emits s'.memory) outs (exportedFrom 0 sets) := by
  obtain ⟨outs, s', hRun, -, hOuts⟩ := terminateSets_ok hGrants hSets (.refl s.memory) 0
  exact ⟨outs, s', hRun, hOuts⟩

def offers (m : Memory) (ident : Path) (F : Folder) : Bool :=
  decide (ident ≠ [dot] ∧ ident ≠ [dot, dot] ∧ lookupIn m ident (entriesAt m fsRoot) ≠ 0) &&
    (m.files (lookupIn m ident (entriesAt m fsRoot))).any fun f : DFile =>
      decide (f.type = .directory ∧ forestWithin m (m.limit + 1) f.link = some F)

theorem Listing.names {L : Ptr → List Ptr} (h : Listing P m L) (hOffers : offers m ident F = true) :
    Names P m ident F := by
  obtain ⟨r, hr, hRoot, -⟩ := h.root
  rw [offers, Bool.and_eq_true, decide_eq_true_eq, Option.any_eq_true,
    entriesAt_eq h (isDirectory_iff.mpr ⟨r, hr, hRoot⟩)] at hOffers
  obtain ⟨⟨hDot, hDots, hne⟩, f, hf, hTest⟩ := hOffers
  obtain ⟨hType, hForest⟩ := of_decide_eq_true hTest
  exact ⟨⟨hDot, hDots⟩, L fsRoot, f, h.entries fsRoot r hr hRoot, h.sorted fsRoot, hne, hf, hType,
    planted_of_forestWithin hForest⟩

/-- The files `out/a` with two bytes and `out/b/c` without any. -/
theorem outputs_exported_nested : ∃ x, Reachable (Started (.bump 0)) (Completes (.bump 0)) x ∧
    ∃ outs s', fsTerminate (.bump 0) [[111, 117, 116]] x.state = .ok (outs, s') ∧
      List.Forall₂ (Emits s'.memory) outs [(0, [97], [1, 2]), (0, [98, slash, 99], [])] := by
  obtain ⟨x, hx, hTest⟩ := exists_of_bareRun (P := .bump 0)
    [.openFile [111, 117, 116, slash, 97] (oWRONLY ||| oCREAT) sIRWXU, .write 3 [1, 2] 0 moveOffset,
      .openFile [111, 117, 116, slash, 98, slash, 99] (oWRONLY ||| oCREAT) sIRWXU]
    (fun x => offers x.state.memory [111, 117, 116]
      (.leaf [97] [1, 2] (.branch [98] (.leaf [99] [] .nil) .nil)))
    (by decide +kernel)
  obtain ⟨L, hSteady⟩ := steady_of_reachable linkable_bump (proceeds_of_completes hx)
  refine ⟨x, hx, outputs_exported (grants_bump 0)
    [([111, 117, 116], .leaf [97] [1, 2] (.branch [98] (.leaf [99] [] .nil) .nil))] ?_⟩
  intro y hy
  rw [List.mem_singleton.mp hy]
  exact hSteady.listing.names hTest

end Law

end Dandelion.FileSystem
