import Dandelion.FileSystem.Keeps
import Dandelion.FileSystem.Walks

/-! # Creating directories on the way

A creation walk enters the directories that exist and makes those that do not.
The relation `Creates` records what such a walk did, so that an invariant of the
file system is shown for a single new directory and holds after the whole walk.
-/

namespace Dandelion.FileSystem

open Foundation.Triples

structure Same (s s' : State) : Prop where
  files : s'.memory.files = s.memory.files
  chunks : s'.memory.chunks = s.memory.chunks
  blocks : s'.memory.blocks = s.memory.blocks
  openFiles : s'.openFiles = s.openFiles

/-- What nodes that are not directories refer to is not a node, and will not become one. -/
def Leaves (m : Memory) : Prop :=
  ∀ p f, m.files p = some f → f.type ≠ .directory →
    m.files f.link = none ∧ (f.link < staticEnd ∨ (m.chunks f.link).isSome)

/-- The walk of `create_directories` from a node along components, and the node it returns. -/
inductive Creates (P : Platform) (preventUp : Bool) :
    State → (Ptr → List Ptr) → Ptr → List Path → State → (Ptr → List Ptr) → Ptr → Prop
  | done {s : State} {L : Ptr → List Ptr} {d : Ptr} : Creates P preventUp s L d [] s L d
  | stay {s s' : State} {L L' : Ptr → List Ptr} {d r : Ptr} {rest : List Path} :
      Creates P preventUp s L d rest s' L' r → Creates P preventUp s L d ([dot] :: rest) s' L' r
  | up {s s' : State} {L L' : Ptr → List Ptr} {d r : Ptr} {rest : List Path} : preventUp = false →
      Creates P preventUp s L (if parentOf s.memory d = 0 then d else parentOf s.memory d)
        rest s' L' r →
      Creates P preventUp s L d ([dot, dot] :: rest) s' L' r
  | enter {s s' : State} {L L' : Ptr → List Ptr} {d r : Ptr} {c : Path} {rest : List Path} :
      c ≠ [dot] → c ≠ [dot, dot] → isDirectory s.memory d → lookupIn s.memory c (L d) ≠ 0 →
      Creates P preventUp s L (lookupIn s.memory c (L d)) rest s' L' r →
        Creates P preventUp s L d (c :: rest) s' L' r
  | make {s s₁ s₂ s' : State} {L L₂ L' : Ptr → List Ptr} {d n r : Ptr} {c : Path} {rest : List Path}
      {g : Grant}
      {a b : List Ptr} :
      c ≠ [dot] → c ≠ [dot, dot] → c.length ≤ fsNameLength → isDirectory s.memory d →
      lookupIn s.memory c (L d) = 0 → P.answer s.memory s.requests sizeofFile 8 = some g →
      AddsNode s s₁ n ((DFile.ofBytes g.bytes).nameDirectory c) → Links P s₁ L d n a b s₂ L₂ →
      Creates P preventUp s₂ L₂ n rest s' L' r → Creates P preventUp s L d (c :: rest) s' L' r
  | refused {s s' : State} {L : Ptr → List Ptr} {d : Ptr} {names : List Path} :
      Same s s' → Creates P preventUp s L d names s' L 0

variable {P : Platform} {s s' s'' : State} {L L' : Ptr → List Ptr} {c d n p q : Ptr}
  {a b : List Ptr} {e f : DFile} {preventUp : Bool}

section Nodes

theorem ensures_modifyFile_edits (p : Ptr) (g : DFile → DFile) :
    Ensures (modifyFile p g) s fun _ s' => p ≠ 0 ∧ (∃ f, s.memory.files p = some f) ∧
      Edits s s' (editAt p g) := by
  by_cases hp : p = 0
  · subst hp
    exact .of_error (e := .null) rfl trivial
  · cases hf : s.memory.files p with
    | none =>
      refine .of_error (e := .invalid) (bind_error ?_) trivial
      simp only [getFileAt, readAt, if_neg hp, hf]
    | some f =>
      obtain ⟨s', hRun, hEdit⟩ := modifyFile_edits g hp hf
      exact .of_ok hRun ⟨hp, ⟨f, rfl⟩, hEdit⟩

theorem Same.refl (s : State) : Same s s := ⟨rfl, rfl, rfl, rfl⟩

section

variable (h : AddsNode s s' n f)

include h

theorem AddsNode.old (hq : s.memory.files q = some e) : s'.memory.files q = some e := by
  rw [h.files, Function.update_of_ne (h.vacant.ne_file hq).symm, hq]

theorem AddsNode.undo :
    ∃ s'', dandelionFree n s' = .ok ((), s'') ∧ Same s s'' := by
  have hAllocated : s'.memory.allocated n = true := by
    simp only [Memory.allocated, h.live, Option.isSome_some, h.vacant.1, decide_true, Bool.and_self,
      Bool.true_or]
  refine ⟨_, if_pos hAllocated, ?_, ?_, ?_, h.openFiles⟩
  · change Function.update s'.memory.files n none = _
    rw [h.files, Function.update_idem, Function.update_eq_self_iff]
    exact h.vacant.2.1.symm
  · change Function.update s'.memory.chunks n none = _
    rw [h.chunks, Function.update_eq_self_iff]
    exact h.vacant.2.2.1.symm
  · change Function.update s'.memory.blocks n none = _
    rw [h.blocks, Function.update_eq_self_iff]
    exact h.vacant.2.2.2.symm

theorem AddsNode.listing (hListing : Listing P s.memory L)
    (hLink : f.type = .directory → f.link = 0) : Listing P s'.memory L :=
  hListing.add h.vacant.2.1 h.ne_zero h.files hLink

theorem AddsNode.unlisted (hListing : Listing P s.memory L) (d : Ptr) : n ∉ L d :=
  hListing.unlisted_of_none h.vacant.2.1 d

theorem AddsNode.ne_root (hListing : Listing P s.memory L) : n ≠ fsRoot := by
  obtain ⟨f, hf, _⟩ := hListing.root
  exact h.vacant.ne_file hf

/-- A new node can be linked to any directory. -/
theorem AddsNode.link (hListing : Listing P s.memory L) (he : s.memory.files d = some e)
    (hType : e.type = .directory) (hLink : f.type = .directory → f.link = 0) :
    ∃ s'' L' a b, linkFileToFolder P d n s' = .ok (0, s'') ∧ Links P s' L d n a b s'' L' :=
  (h.listing hListing hLink).link (h.old he) hType h.live (h.ne_root hListing) (h.unlisted hListing)

theorem AddsNode.leaves (hLeaves : Leaves s.memory)
    (hNew : f.type ≠ .directory → s.memory.files f.link = none ∧
      (f.link < staticEnd ∨ (s.memory.chunks f.link).isSome)) :
    Leaves s'.memory := by
  intro p e he hType
  have hOld : s.memory.files e.link = none ∧
      (e.link < staticEnd ∨ (s.memory.chunks e.link).isSome) := by
    by_cases hp : p = n
    · subst hp
      obtain rfl := Option.mem_unique he h.live
      exact hNew hType
    · rw [h.files, Function.update_of_ne hp] at he
      exact hLeaves p e he hType
  -- the new node is not where the leaf leads to
  have hne : e.link ≠ n := by
    rintro rfl
    rcases hOld.2 with hLow | hChunk
    · exact absurd h.vacant.1 (Nat.not_le.mpr hLow)
    · rw [h.vacant.2.2.1] at hChunk
      cases hChunk
  rw [h.files, Function.update_of_ne hne, h.chunks]
  exact hOld

end

theorem Edits.leaves {g : Ptr → DFile → DFile} (h : Edits s s' g) (hLeaves : Leaves s.memory)
    (hg : ∀ q f, s.memory.files q = some f → (g q f).type = f.type ∧
      (f.type ≠ .directory → (g q f).link = f.link)) :
    Leaves s'.memory := by
  intro p e he hType
  rw [h.files] at he
  obtain ⟨f, hf, rfl⟩ := Option.map_eq_some_iff.mp he
  have hType' : f.type ≠ .directory := fun hDir => hType ((hg p f hf).1.trans hDir)
  obtain ⟨hNone, hRest⟩ := hLeaves p f hf hType'
  rw [(hg p f hf).2 hType', h.files, hNone, h.chunks]
  exact ⟨rfl, hRest⟩

theorem Links.leaves (h : Links P s L d p a b s' L') (he : s.memory.files d = some e)
    (hDir : e.type = .directory) (hLeaves : Leaves s.memory) : Leaves s'.memory := by
  refine h.edits.leaves hLeaves fun q f hf => ⟨rfl, fun hType => if_neg fun hAnd => hType ?_⟩
  obtain ⟨rfl, _⟩ := hAnd
  obtain rfl := Option.mem_unique hf he
  exact hDir

theorem Links.rooted (h : Links P s L d p a b s' L') (hd : Rooted L d) : Rooted L' p := by
  have hMono : ∀ c q, q ∈ L c → q ∈ L' c := by
    intro c q hq
    rw [h.lists]
    by_cases hc : c = d
    · subst hc
      rw [Function.update_self]
      rw [h.split] at hq
      simp only [List.mem_append, List.mem_cons] at hq ⊢
      tauto
    · rwa [Function.update_of_ne hc]
  have hd' : Rooted L' d := Relation.ReflTransGen.mono (fun c q hq => hMono c q hq) _ _ hd
  exact hd'.child (by rw [h.lists, Function.update_self]; simp)

end Nodes

section Walk

theorem directory_of {d : Ptr} (hListing : Listing P s.memory L) (h : Rooted L d)
    (hNot : ¬ isDirectory s.memory d) :
    ∃ f, s.memory.files d = some f ∧ f.type ≠ .directory := by
  obtain ⟨f, hf⟩ := h.live hListing
  exact ⟨f, hf, fun hType => hNot (isDirectory_iff.mpr ⟨f, hf, hType⟩)⟩

theorem findFileInDir_leaf {name : Path} (hLeaves : Leaves s.memory)
    (hf : s.memory.files d = some f) (hType : f.type ≠ .directory) (hDot : name ≠ [dot])
    (hDots : name ≠ [dot, dot]) :
    Ensures (findFileInDir P d name) s fun r s' => r = 0 ∧ s' = s := by
  rw [findFileInDir, if_neg hDot, if_neg hDots]
  refine ensures_file fun e _ he => ?_
  obtain rfl := Option.mem_unique hf he
  refine .after steps_ok ?_
  rw [scanChildren]
  refine .ite (fun _ => .pure ⟨rfl, rfl⟩) fun _ => (ensures_getFileAt f.link).bind fun g s₁ h => ?_
  rw [(hLeaves d f hf hType).1] at h
  exact absurd h.2.2 (by simp)

theorem createFrom_creates {names : List Path} (hListing : Listing P s.memory L)
    (hLeaves : Leaves s.memory) (hRooted : Rooted L d) :
    Ensures (createFrom P preventUp d names) s fun r s' =>
      ∃ L', Creates P preventUp s L d names s' L' r := by
  induction names generalizing s L d with
  | nil => exact .pure ⟨L, .done⟩
  | cons name rest ih =>
    rw [createFrom]
    refine .ite (fun _ => .pure ⟨L, .refused (.refl s)⟩) fun hLength =>
      .ite (fun hDot => ?_) fun hDot => ?_
    · subst hDot
      refine (ih hListing hLeaves hRooted).imp ?_
      rintro r s' ⟨L', h⟩
      exact ⟨L', .stay h⟩
    refine .ite (fun hDots => ?_) fun hDots => ?_
    · subst hDots
      refine .ite (fun _ => .pure ⟨L, .refused (.refl s)⟩) fun hUp => ?_
      have hUp : preventUp = false := by simpa using hUp
      obtain ⟨f, hf⟩ := hRooted.live hListing
      refine .after (getFileAt_ok (hListing.ne_zero hf) hf) ?_
      have hGo : ∀ {r}, r = (if parentOf s.memory d = 0 then d else parentOf s.memory d) →
          Rooted L r →
          Ensures (createFrom P preventUp r rest) s fun r s' =>
            ∃ L', Creates P preventUp s L d ([dot, dot] :: rest) s' L' r := by
        rintro r rfl hr
        refine (ih hListing hLeaves hr).imp ?_
        rintro r s' ⟨L', h⟩
        exact ⟨L', .up hUp h⟩
      rw [parentOf_of hf] at hGo
      refine .ite (fun hZero => hGo (if_pos hZero).symm hRooted) fun hNonzero =>
        hGo (if_neg hNonzero).symm ?_
      rcases hRooted.parent hListing with ⟨_, hZero⟩ | ⟨_, hParent⟩
      · exact absurd ((parentOf_of hf).symm.trans hZero) hNonzero
      · rwa [parentOf_of hf] at hParent
    by_cases hDir : isDirectory s.memory d = true
    · obtain ⟨f, hf, hType⟩ := isDirectory_iff.mp hDir
      refine .after
        (findFileInDir_ok (hListing.entries d f hf hType) (hListing.sorted d) hDot hDots) ?_
      refine .ite (fun hFound => ?_) fun hMissing => ?_
      · refine (ih hListing hLeaves (hRooted.child (lookupIn_mem hFound).1)).imp ?_
        rintro r s' ⟨L', h⟩
        exact ⟨L', .enter hDot hDots hDir hFound h⟩
      · refine meets_newDirectory (fun _ => trivial) fun g s₁ hg hAdds => ?_
        have hLeaves₁ : Leaves s₁.memory := hAdds.leaves hLeaves fun hNot => absurd rfl hNot
        obtain ⟨s₂, L₂, a, b, hRun, hLinks⟩ := hAdds.link hListing hf hType fun _ => rfl
        refine .after hRun (.ite (fun h => absurd h (by decide)) fun _ => ?_)
        refine (ih hLinks.listing (hLinks.leaves (hAdds.old hf) hType hLeaves₁)
          (hLinks.rooted hRooted)).imp ?_
        rintro r s' ⟨L', h⟩
        exact ⟨L', .make hDot hDots (Nat.not_lt.mp hLength) hDir
          (not_not.mp hMissing) hg hAdds hLinks h⟩
    · -- the walk came to a file: nothing can be linked to it
      obtain ⟨f, hf, hType⟩ := directory_of hListing hRooted hDir
      refine (findFileInDir_leaf hLeaves hf hType hDot hDots).bind fun r s' h => ?_
      obtain ⟨rfl, rfl⟩ := h
      rw [if_neg (not_not.mpr rfl)]
      refine meets_newDirectory (fun _ => trivial) fun g s₁ _ hAdds => ?_
      obtain ⟨s₂, hFree, hSame⟩ := hAdds.undo
      refine .after (linkFileToFolder_refused (hListing.ne_zero hf) (hAdds.old hf) hType)
        (.ite (fun _ => .after hFree (.pure ⟨L, .refused hSame⟩)) fun h => absurd (by decide) h)

theorem Same.leaves (h : Same s s') (hLeaves : Leaves s.memory) : Leaves s'.memory := by
  intro p f hf hType
  rw [h.files] at hf
  rw [h.files, h.chunks]
  exact hLeaves p f hf hType

theorem Creates.forest {names : List Path} {r : Ptr} (h : Creates P preventUp s L d names s' L' r)
    (hListing : Listing P s.memory L) (hLeaves : Leaves s.memory) (hRooted : Rooted L d) :
    Listing P s'.memory L' ∧ Leaves s'.memory ∧ (r ≠ 0 → Rooted L' r) := by
  induction h with
  | done => exact ⟨hListing, hLeaves, fun _ => hRooted⟩
  | stay _ ih => exact ih hListing hLeaves hRooted
  | up _ _ ih =>
    refine ih hListing hLeaves ?_
    split
    · exact hRooted
    · rename_i hne
      rcases hRooted.parent hListing with ⟨_, hZero⟩ | ⟨_, hParent⟩
      · exact absurd hZero hne
      · exact hParent
  | enter _ _ _ hFound _ ih => exact ih hListing hLeaves (hRooted.child (lookupIn_mem hFound).1)
  | make _ _ _ hDir _ _ hAdds hLinks _ ih =>
    obtain ⟨e, he, hType⟩ := isDirectory_iff.mp hDir
    exact ih hLinks.listing
      (hLinks.leaves (hAdds.old he) hType (hAdds.leaves hLeaves fun hNot => absurd rfl hNot))
      (hLinks.rooted hRooted)
  | refused hSame =>
    exact ⟨hListing.of_files hSame.files, hSame.leaves hLeaves, fun h => absurd rfl h⟩

theorem Creates.openFiles {names : List Path} {r : Ptr}
    (h : Creates P preventUp s L d names s' L' r) :
    s'.openFiles = s.openFiles := by
  induction h with
  | done => rfl
  | stay _ ih => exact ih
  | up _ _ ih => exact ih
  | enter _ _ _ _ _ ih => exact ih
  | make _ _ _ _ _ _ hAdds hLinks _ ih =>
    exact ih.trans (hLinks.edits.openFiles.trans hAdds.openFiles)
  | refused hSame => exact hSame.openFiles

end Walk

end Dandelion.FileSystem
