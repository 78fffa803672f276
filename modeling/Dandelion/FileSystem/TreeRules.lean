import Dandelion.FileSystem.Freeing
import Dandelion.FileSystem.Lookups

/-! # Rules for invariants of the tree

Calls on paths and descriptors recount, detach, release, empty and make nodes. An
invariant of the tree and its lists that each of these steps keeps is kept by the
calls.
-/

namespace Dandelion.FileSystem

open Foundation.Chains Foundation.Triples

/-- A node was given back, a regular file after its chunks. -/
def Drops (s s' : State) (p : Ptr) : Prop :=
  ∃ f cs s₁, s.memory.files p = some f ∧
    (cs = [] ∨ f.type = .file ∧ Chain (nextChunk s.memory) f.link cs) ∧
    (∀ q ∈ cs, ∀ c, s.memory.chunks q = some c → s.memory.allocated c.data) ∧ Frees s s₁ cs ∧
    s' = { s₁ with memory := s₁.memory.drop p }

def Counted (m : Memory) (L : Ptr → List Ptr) : Prop :=
  ∀ d p f, p ∈ L d → m.files p = some f → f.hardLinks ≠ 0

/-- The steps that only touch the table of descriptors and the counts of nodes. -/
structure EntryRules (I : State → (Ptr → List Ptr) → Prop) : Prop where
  table : ∀ {s L} o, I s L → I { s with openFiles := o } L
  recount : ∀ {s L} p (k : DFile → Nat), I s L →
    Ensures (modifyFile p fun f => { f with openDescriptors := k f }) s fun _ s' => I s' L

/-- The steps of opening a file. -/
structure OpenRules (I : State → (Ptr → List Ptr) → Prop) : Prop extends EntryRules I where
  empty : ∀ {s L p f}, I s L → s.memory.files p = some f → f.type = .file →
    Ensures (do
      freeFileChunks f.link
      modifyFile p fun f => { f with link := 0 }) s fun _ s' => I s' L

/-- The steps that take nodes out of the tree. -/
structure TreeRules (P : Platform) (I : State → (Ptr → List Ptr) → Prop) : Prop
    extends EntryRules I where
  listing : ∀ {s L}, I s L → Listing P s.memory L
  holding : ∀ {s L}, I s L → Holding s.memory
  counted : ∀ {s L}, I s L → Counted s.memory L
  remove : ∀ {s L d p}, I s L → p ∈ L d →
    Ensures (do
      detach p
      modifyFile p fun f => { f with hardLinks := (f.hardLinks + (2 ^ 16 - 1)) % 2 ^ 16 }) s
      fun _ s' => ∃ L', I s' L'
  drops : ∀ {s s' L p}, I s L → (∀ d, p ∉ L d) → p ≠ fsRoot → Drops s s' p →
    I s' (Function.update L p [])

variable {P : Platform} {I : State → (Ptr → List Ptr) → Prop} {s s' : State} {L : Ptr → List Ptr}
  {p : Ptr}

section Release

theorem freeChildren_listed {fuel : Nat} {l : List Ptr} (hChain : Chain (nextNode s.memory) p l)
    (hCounted : ∀ q ∈ l, ∀ f, s.memory.files q = some f → f.hardLinks ≠ 0) :
    Ensures (freeChildren fuel p) s fun _ s' => s' = s := by
  induction fuel using Nat.strongRecOn generalizing p l with
  | ind fuel ih =>
    match fuel with
    | 0 =>
      rw [freeChildren]
      trivial
    | 1 =>
      rw [freeChildren]
      refine .ite (fun _ => .pure rfl) fun _ => ?_
      exact .of_error (bind_error (by rw [freeNode]; rfl)) trivial
    | fuel + 2 =>
      rw [freeChildren]
      refine .ite (fun _ => .pure rfl) fun hp => ?_
      obtain ⟨r, rest, rfl, hNext, hRest⟩ := Chain.head hChain hp
      obtain ⟨f, hf, rfl⟩ := file_of_nextNode hNext
      have hNode : freeNode (fuel + 1) p s = .ok (0, s) := by
        rw [freeNode, bind_ok (getFileAt_ok hp hf),
          if_pos (Or.inl (hCounted p List.mem_cons_self f hf))]
        rfl
      refine .after hNode (.after (getFileAt_ok hp hf) ?_)
      exact ih (fuel + 1) (Nat.lt_succ_self _) hRest fun q hq =>
        hCounted q (List.mem_cons_of_mem _ hq)

theorem Frees.nil (h : Holding s.memory) : Frees s s [] :=
  ⟨rfl, rfl, fun _ h => absurd h List.not_mem_nil, fun _ _ => rfl,
    fun _ h => absurd h List.not_mem_nil, fun _ _ => rfl, h⟩

theorem Holding.root_static (h : Holding s.memory) {f : DFile}
    (hf : s.memory.files fsRoot = some f) :
    s.memory.allocated fsRoot = false := by
  obtain ⟨hChunk, hBlock⟩ := h.alone fsRoot f hf
  have hLow : ¬ staticEnd ≤ fsRoot := by decide
  simp [Memory.allocated, hChunk, hBlock, hLow]

/-- What is listed has a link, so that only a node that is not listed is given back. -/
theorem freeData_drops (hListing : Listing P s.memory L) (hHolding : Holding s.memory)
    (hCounted : Counted s.memory L) (p : Ptr) :
    Ensures (freeData p) s fun _ s' => s' = s ∨ (∀ d, p ∉ L d) ∧ p ≠ fsRoot ∧ Drops s s' p := by
  rw [freeData]
  refine .after steps_ok ?_
  rw [show 2 * (s.memory.limit + 1) = 2 * s.memory.limit + 1 + 1 by omega, freeNode]
  refine ensures_file fun f _ hf => ?_
  refine .ite (fun _ => .pure (Or.inl rfl)) fun hCounts => ?_
  have hZero : f.hardLinks = 0 := by
    by_contra hne
    exact hCounts (Or.inl hne)
  have hFree : ∀ {s₂ : State} {cs},
      (cs = [] ∨ f.type = .file ∧ Chain (nextChunk s.memory) f.link cs) →
      (∀ q ∈ cs, ∀ c, s.memory.chunks q = some c → s.memory.allocated c.data) → Frees s s₂ cs →
      Ensures (do dandelionFree p; pure (0 : Int)) s₂ fun _ s' =>
        s' = s ∨ (∀ d, p ∉ L d) ∧ p ≠ fsRoot ∧ Drops s s' p := by
    intro s₂ cs hChain hOwn hFrees
    refine (ensures_dandelionFree p).bind fun _ s₃ h₃ => .pure (Or.inr ?_)
    obtain ⟨hAllocated, hs₃⟩ := h₃
    refine ⟨fun d hMem => hCounted d p f hMem hf hZero, ?_, f, cs, s₂, hf, hChain, hOwn,
      hFrees, hs₃⟩
    rintro rfl
    rw [hFrees.holding.root_static (hFrees.files ▸ hf)] at hAllocated
    cases hAllocated
  have hAlone := hFree (Or.inl rfl) (fun _ h => absurd h List.not_mem_nil) (Frees.nil hHolding)
  cases hType : f.type with
  | directory =>
    obtain ⟨_, e, he, _, hChain⟩ := hListing.entries p f hf hType
    obtain rfl := Option.mem_unique hf he
    refine (freeChildren_listed hChain fun q hq g hg => hCounted p q g hq hg).bind
      fun _ s₂ hs₂ => ?_
    subst hs₂
    exact hAlone
  | file =>
    by_cases hOwned : Owned s.memory f.link
    · obtain ⟨cs, hChain, hOwn⟩ := hOwned
      obtain ⟨s₂, hRun, hFrees⟩ := freeFileChunks_ok hHolding hChain hOwn
      exact .after hRun (hFree (Or.inr ⟨hType, hChain⟩) hOwn hFrees)
    · exact (owned_of_freeFileChunks hHolding).bind fun _ _ hAll => absurd hAll hOwned
  | device => exact hAlone
  | unknown => exact .pure (Or.inl rfl)

theorem Drops.file {q : Ptr} (h : Drops s s' p) (hq : q ≠ p) :
    s'.memory.files q = s.memory.files q := by
  obtain ⟨f, cs, s₁, -, -, -, hFrees, rfl⟩ := h
  rw [drop_files, Function.update_of_ne hq, hFrees.files]

end Release

namespace TreeRules

variable (h : TreeRules P I)

include h

theorem freeData (hs : I s L) (p : Ptr) : Ensures (freeData p) s fun _ s' => ∃ L', I s' L' := by
  refine (freeData_drops (h.listing hs) (h.holding hs) (h.counted hs) p).imp fun _ s' h' => ?_
  rcases h' with rfl | ⟨hUnlisted, hRoot, hDrops⟩
  · exact ⟨L, hs⟩
  · exact ⟨_, h.drops hs hUnlisted hRoot hDrops⟩

theorem closedir (hs : I s L) (dir : Ptr) :
    Ensures (dandelionClosedir dir) s fun _ s' => ∃ L', I s' L' := by
  rw [dandelionClosedir]
  exact Meets.bind (h.recount dir _ hs) fun _ s₁ h₁ => h.freeData h₁ dir

theorem close (hs : I s L) (fd : Int) :
    Ensures (dandelionClose fd) s fun _ s' => ∃ L', I s' L' := by
  rw [dandelionClose]
  refine (ensures_getOpenFile fd).bind fun o s₁ ho => ?_
  obtain ⟨rfl, hRange, -⟩ := ho
  refine .ite (fun _ => .pure ⟨L, hs⟩) fun _ => Meets.bind (h.recount _ _ hs) fun _ s₂ h₂ => ?_
  refine (h.freeData h₂ _).bind fun _ s₃ h₃ => ?_
  obtain ⟨L₃, h₃⟩ := h₃
  exact .after (getOpenFile_ok hRange) (.after (setOpenFile_ok hRange _) (.pure ⟨L₃, h.table _ h₃⟩))

theorem unlink (hs : I s L) (name : List UInt8) :
    Ensures (dandelionUnlink P name) s fun _ s' => ∃ L', I s' L' := by
  rw [dandelionUnlink]
  refine (ensures_findFile (h.listing hs) name).bind fun p s₁ hFound => ?_
  obtain ⟨rfl, -, hRooted⟩ := hFound
  refine .ite (fun _ => .pure ⟨L, hs⟩) fun hp => ?_
  rcases (hRooted hp).cases with rfl | ⟨d, -, hMem⟩
  · -- the root has no parent
    obtain ⟨f, hf, -, hParent⟩ := (h.listing hs).root
    refine .after_error (e := .null) ?_ trivial
    rw [detach, bind_ok (getFileAt_ok hp hf), hParent]
    rfl
  · rw [← bind_assoc]
    refine (h.remove hs hMem).bind fun _ s₂ h₂ => ?_
    obtain ⟨L₂, h₂⟩ := h₂
    exact (h.freeData h₂ p).bind fun _ s₃ h₃ => .pure h₃

theorem rmdir (hs : I s L) (name : List UInt8) :
    Ensures (dandelionRmdir P name) s fun _ s' => ∃ L', I s' L' := by
  rw [dandelionRmdir]
  refine (readsOnly_findFile name).seq fun p => ?_
  refine .ite (fun _ => .pure ⟨L, hs⟩) fun _ => (readsOnly_getFileAt p).seq fun f => ?_
  exact .ite (fun _ => .pure ⟨L, hs⟩) fun _ =>
    .ite (fun _ => .pure ⟨L, hs⟩) fun _ => h.unlink hs name

theorem opendir (hs : I s L) (name : List UInt8) :
    Ensures (dandelionOpendir P name) s fun _ s' => ∃ L', I s' L' := by
  rw [dandelionOpendir]
  refine (readsOnly_findFile name).seq fun current => ?_
  refine .ite (fun _ => .pure ⟨L, hs⟩) fun _ => (readsOnly_getFileAt current).seq fun f => ?_
  exact .ite (fun _ => .pure ⟨L, hs⟩) fun _ =>
    Meets.bind (h.recount current _ hs) fun _ s₃ h₃ => .pure ⟨L, h₃⟩

theorem mkdir (hs : I s L) (name : List UInt8) (mode : Nat)
    (hMake : ∀ {d path}, Rooted L d → 0 ∉ path →
      Ensures (createDirectories P d path false) s fun _ s' => ∃ L', I s' L')
    (hMode : ∀ {s L} p, I s L →
      Ensures (modifyFile p fun f => { f with mode := mode }) s fun _ s' => I s' L) :
    Ensures (dandelionMkdir P name mode) s fun _ s' => ∃ L', I s' L' := by
  rw [dandelionMkdir]
  refine (ensures_pathFromString name).bind fun path s₁ hPath => ?_
  obtain ⟨rfl, rfl, -⟩ := hPath
  cases hFile : getFile (pathOf name) with
  | none => trivial
  | some dirName =>
    have hZero : 0 ∉ dirName := fun hMem => zero_not_mem_pathOf name (getFile_mem hFile hMem)
    have hListing := h.listing hs
    refine .after (findFrom_ok hListing .root _) (.ite (fun _ => .pure ⟨L, hs⟩) fun hParent => ?_)
    refine (readsOnly_getFileAt _).seq fun f => ?_
    refine .ite (fun _ => .pure ⟨L, hs⟩) fun _ => ?_
    refine (readsOnly_findFileInDir _ dirName).seq fun existing => ?_
    refine .ite (fun _ => .pure ⟨L, hs⟩) fun _ => ?_
    refine (hMake (Rooted.walk hListing .root hParent) hZero).bind fun newDir s₄ h₄ => ?_
    obtain ⟨L₄, h₄⟩ := h₄
    refine .ite (fun _ => .pure ⟨L₄, h₄⟩) fun _ => ?_
    exact (hMode newDir h₄).bind fun _ s₅ h₅ => .pure ⟨L₄, h₅⟩

end TreeRules

namespace OpenRules

variable (h : OpenRules I)

include h

theorem openExistingFile (hs : I s L) (index : Int) (p : Ptr) (flags : Nat) (checks : Bool) :
    Ensures (openExistingFile index p flags checks) s fun _ s' => I s' L := by
  have hFinish : ∀ {s : State}, I s L → ∀ access,
      Ensures (finishOpen index p access) s fun _ s' => I s' L := by
    intro s hs access
    rw [finishOpen]
    refine (readsOnly_getFileAt p).seq fun f => ?_
    refine Meets.bind (h.recount p _ hs) fun _ s₂ h₂ => ?_
    by_cases hRange : 0 ≤ index ∧ index < fsMaxFiles
    · exact .after (setOpenFile_ok hRange _) (.pure (h.table _ h₂))
    · exact .after_error (if_neg hRange) trivial
  rw [FileSystem.openExistingFile]
  refine ensures_file fun f _ hf => ?_
  refine .ite (fun _ => .pure hs) fun _ => .ite (fun _ => .pure hs) fun _ => ?_
  refine .ite (fun hCut => ?_) fun _ => hFinish hs _
  rw [← bind_assoc]
  exact (h.empty hs hf hCut.2.2).bind fun _ s₂ h₂ => hFinish h₂ _

theorem openDescriptor (hs : I s L) (p : Ptr) (flags : Nat) :
    Ensures (openDescriptor p flags) s fun _ s' => I s' L := by
  rw [FileSystem.openDescriptor]
  obtain ⟨free, hFree, -⟩ := lowestFree_ok (s := s)
  refine .after hFree ?_
  cases free with
  | none => exact .pure hs
  | some i =>
    exact (h.openExistingFile hs i p flags true).bind fun error s₁ h₁ =>
      .ite (fun _ => .pure h₁) fun _ => .pure h₁

end OpenRules

end Dandelion.FileSystem
