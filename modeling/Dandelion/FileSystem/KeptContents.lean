import Dandelion.FileSystem.CallRules
import Dandelion.FileSystem.Freeing
import Dandelion.FileSystem.SteadyRuns

/-! # Calls that keep what is in files

Calls that create nodes leave every chunk alone. A call that removes a node gives
back the chunks of that node, and as long as no chunk is on the lists of two files
the content of the others stays what it was.
-/

namespace Dandelion.FileSystem

open Foundation.Chains Foundation.Triples

/-- No chunk is on the lists of two regular files. -/
def Separate (m : Memory) : Prop :=
  ∀ p q f g cs ds, p ≠ q → m.files p = some f → m.files q = some g → f.type = .file →
    g.type = .file →
    Chain (nextChunk m) f.link cs → Chain (nextChunk m) g.link ds → ∀ r ∈ cs, r ∉ ds

/-- At most the file at `p` has chunks. -/
def Memory.onlyAt (m : Memory) (p : Ptr) : Bool :=
  (List.range m.limit).all fun q => (m.files q).all fun f =>
    decide (f.type = .file → f.link ≠ 0 → q = p)

/-- The regular files that are still there have the content they had. -/
def KeepsContents (m m' : Memory) : Prop :=
  ∀ p f f' c, m.files p = some f → m'.files p = some f' → f.type = .file →
    content m f.link = some c → content m' f'.link = some c

variable {P : Platform} {s s' : State} {m m' m'' : Memory} {p q : Ptr} {f : DFile} {cs : List Ptr}
  {l : List Piece} {L : Ptr → List Ptr}

section Relation

theorem stored_of_eq (h : Stored m p l) (hChunks : m'.chunks = m.chunks)
    (hBlocks : m'.blocks = m.blocks) : Stored m' p l :=
  h.congr (fun x hx => by rw [hChunks, h.chunk_eq hx]) fun _ _ => load_congr (congrFun hBlocks _)

theorem KeepsContents.refl (m : Memory) : KeepsContents m m := by
  intro p f f' c hf hf' _ hc
  obtain rfl := Option.mem_unique hf hf'
  exact hc

/-- What comes before only has to keep nodes and chunks. -/
theorem Keeps.before (h : Keeps m m') (h' : KeepsContents m' m'') : KeepsContents m m'' := by
  intro p f f' c hf hf' hType hc
  obtain ⟨g, hg, hSame, hLink⟩ := h.old p f hf
  obtain ⟨l, hl, rfl⟩ := stored_of_content hc
  refine h' p g f' _ hg hf' (hSame.trans hType) ?_
  rw [hLink hType]
  exact (stored_of_eq hl h.chunks h.blocks).content_eq

theorem Keeps.contents (h : Keeps m m') : KeepsContents m m' := h.before (.refl m')

theorem Keeps.separate (h : Keeps m m') (hSeparate : Separate m) : Separate m' := by
  have hNext : nextChunk m' = nextChunk m := by
    funext q
    rw [nextChunk, nextChunk, h.chunks]
  intro p q f' g' cs ds hne hf' hg' hFile hFile' hcs hds r hr hr'
  rw [hNext] at hcs hds
  rcases h.origin hf' hFile with hZero | ⟨f, hf, hType, hLink⟩
  · rw [hZero] at hcs
    rw [hcs.unique (show Chain (nextChunk m) 0 [] from rfl)] at hr
    exact List.not_mem_nil hr
  rcases h.origin hg' hFile' with hZero | ⟨g, hg, hType', hLink'⟩
  · rw [hZero] at hds
    rw [hds.unique (show Chain (nextChunk m) 0 [] from rfl)] at hr'
    exact List.not_mem_nil hr'
  exact hSeparate p q f g cs ds hne hf hg hType hType' (hLink ▸ hcs) (hLink' ▸ hds) r hr hr'

theorem separate_of_onlyAt (h : m.onlyAt p = true) : Separate m := by
  have hOnly : ∀ q f, m.files q = some f → f.type = .file → f.link ≠ 0 → q = p := by
    intro q f hf
    have hLive : q < m.limit := by
      by_contra hLe
      rw [(m.bounded q (Nat.not_lt.mp hLe)).1] at hf
      cases hf
    have hTest := List.all_eq_true.mp h q (List.mem_range.mpr hLive)
    rw [hf, Option.all_some, decide_eq_true_eq] at hTest
    exact hTest
  -- a list that starts at no chunk is empty
  have hNone : ∀ {q r : Ptr} {f : DFile} {cs}, q ≠ p → m.files q = some f → f.type = .file →
      Chain (nextChunk m) f.link cs → r ∉ cs := by
    intro q r f cs hq hf hType hcs hr
    have hLink : f.link = 0 := by
      by_contra hne
      exact hq (hOnly q f hf hType hne)
    rw [hLink] at hcs
    rw [hcs.unique (show Chain (nextChunk m) 0 [] from rfl)] at hr
    exact List.not_mem_nil hr
  intro q r f g cs ds hne hf hg hType hType' hcs hds u hu hu'
  by_cases hq : q = p
  · exact hNone (fun hr => hne (hq.trans hr.symm)) hg hType' hds hu'
  · exact hNone hq hf hType hcs hu

theorem Edits.keeps {g : Ptr → DFile → DFile} (h : Edits s s' g)
    (hg : ∀ q f, s.memory.files q = some f →
      (g q f).type = f.type ∧ (f.type = .file → (g q f).link = f.link)) :
    Keeps s.memory s'.memory := by
  refine ⟨h.chunks, h.blocks, fun q f hf =>
    ⟨g q f, by rw [h.files, hf, Option.map_some], hg q f hf⟩,
    fun q f' hf' hNone => ?_⟩
  rw [h.files, hNone] at hf'
  cases hf'

end Relation

section Release

theorem Frees.stored (h : Frees s s' cs) (hHolding : Holding s.memory) (hl : Stored s.memory q l)
    (hOut : ∀ x ∈ l, x.ptr ∉ cs) : Stored s'.memory q l := by
  refine hl.congr (fun x hx => ?_) fun x hx => load_congr (h.blocks _ fun r hr c hc hData => ?_)
  · rw [h.kept _ (hOut x hx), hl.chunk_eq hx]
  · exact hOut x hx (hHolding.own r x.ptr c x.chunk hc (hl.chunk_eq hx) hData ▸ hr)

/-- The node of a file is given back after its chunks, which are those of no other file. -/
theorem Frees.contents (h : Frees s s' cs) (hHolding : Holding s.memory)
    (hf : s.memory.files p = some f)
    (hOut : ∀ q g ds, q ≠ p → s.memory.files q = some g → g.type = .file →
      Chain (nextChunk s.memory) g.link ds → ∀ r ∈ ds, r ∉ cs) :
    KeepsContents s.memory (s'.memory.drop p) := by
  intro q g g' c hg hg' hType hc
  have hq : q ≠ p := by
    rintro rfl
    rw [drop_files, Function.update_self] at hg'
    cases hg'
  rw [drop_files, Function.update_of_ne hq, h.files] at hg'
  obtain rfl := Option.mem_unique hg hg'
  obtain ⟨l, hl, rfl⟩ := stored_of_content hc
  have hKept := h.stored hHolding hl fun x hx =>
    hOut q g _ hq hg hType hl.chain x.ptr (List.mem_map_of_mem hx)
  obtain ⟨hChunk, hBlock⟩ := h.holding.alone p f (h.files ▸ hf)
  refine (stored_of_eq hKept ?_ ?_).content_eq
  · rw [drop_chunks, ← hChunk, Function.update_eq_self]
  · rw [drop_blocks, ← hBlock, Function.update_eq_self]

theorem Steady.freeData_contents (h : Steady P s L) (hSeparate : Separate s.memory) (p : Ptr) :
    Ensures (FileSystem.freeData p) s fun _ s' => KeepsContents s.memory s'.memory := by
  refine (freeData_drops h.listing h.holding h.counted p).imp fun _ s' h' => ?_
  rcases h' with rfl | ⟨-, -, f, cs, s₁, hf, hChain, -, hFrees, rfl⟩
  · exact .refl _
  refine hFrees.contents h.holding hf fun q g ds hq hg hType hds r hr hr' => ?_
  rcases hChain with rfl | ⟨hFile, hChain⟩
  · exact List.not_mem_nil hr'
  · exact hSeparate p q f g cs ds (Ne.symm hq) hf hg hFile hType hChain hds r hr' hr

theorem Steady.unlink_contents (h : Steady P s L) (hSeparate : Separate s.memory)
    (name : List UInt8) :
    Ensures (dandelionUnlink P name) s fun _ s' => KeepsContents s.memory s'.memory := by
  rw [dandelionUnlink]
  refine (ensures_findFile h.listing name).bind fun p s₁ hFound => ?_
  obtain ⟨rfl, -, hRooted⟩ := hFound
  refine .ite (fun _ => .pure (.refl _)) fun hp => ?_
  rcases (hRooted hp).cases with rfl | ⟨d, -, hMem⟩
  · -- the root has no parent
    obtain ⟨f, hf, _, hParent⟩ := h.listing.root
    refine .after_error (e := .null) ?_ trivial
    rw [FileSystem.detach, bind_ok (getFileAt_ok hp hf), hParent]
    rfl
  · obtain ⟨s₂, a, b, hDetach, -, hEdits, h₂, hUnlisted, hCount⟩ := h.detach hMem
    obtain ⟨e, he, hDirectory⟩ := h.listing.directory hMem
    have hKeeps : Keeps s₁.memory s₂.memory := by
      refine hEdits.keeps fun q f hf => ⟨rfl, fun hFile => if_neg ?_⟩
      rintro ⟨rfl, -⟩
      obtain rfl := Option.mem_unique he hf
      rw [hDirectory] at hFile
      cases hFile
    have hEdit := ensures_modifyFile (s := s₂) (p := p)
      (g := fun f => { f with hardLinks := (f.hardLinks + (2 ^ 16 - 1)) % 2 ^ 16 })
      fun _ _ => ⟨rfl, fun _ => rfl⟩
    refine .after hDetach (((h₂.discount hUnlisted hCount).and hEdit).bind fun _ s₃ h₃ => ?_)
    obtain ⟨hSteady, hKeeps', -⟩ := h₃
    have hAll := hKeeps.trans hKeeps'
    exact (hSteady.freeData_contents (hAll.separate hSeparate) p).bind fun _ _ h₄ =>
      .pure (hAll.before h₄)

theorem Steady.closedir_contents (h : Steady P s L) (hSeparate : Separate s.memory) (dir : Ptr) :
    Ensures (dandelionClosedir dir) s fun _ s' => KeepsContents s.memory s'.memory := by
  have hEdit := ensures_modifyFile (s := s) (p := dir)
    (g := fun f => { f with openDescriptors := (f.openDescriptors + (2 ^ 16 - 1)) % 2 ^ 16 })
    fun _ _ => ⟨rfl, fun _ => rfl⟩
  refine ((h.recount dir _).and hEdit).bind fun _ s₁ h₁ => ?_
  obtain ⟨hSteady, hKeeps, -⟩ := h₁
  exact (hSteady.freeData_contents (hKeeps.separate hSeparate) dir).imp
    fun _ _ h₂ => hKeeps.before h₂

theorem Steady.close_contents (h : Steady P s L) (hSeparate : Separate s.memory) (fd : Int) :
    Ensures (dandelionClose fd) s fun _ s' => KeepsContents s.memory s'.memory := by
  rw [dandelionClose]
  refine (ensures_getOpenFile fd).bind fun o s₁ ho => ?_
  obtain ⟨rfl, hRange, -⟩ := ho
  -- the node is given up as a directory stream is
  have hLeave := h.closedir_contents hSeparate o.file
  rw [dandelionClosedir] at hLeave
  refine .ite (fun _ => .pure (.refl _)) fun _ => ?_
  rw [← bind_assoc]
  refine hLeave.bind fun _ s₂ h₂ => ?_
  exact .after (getOpenFile_ok hRange) (.after (setOpenFile_ok hRange _) (.pure h₂))

theorem Steady.rmdir_contents (h : Steady P s L) (hSeparate : Separate s.memory)
    (name : List UInt8) :
    Ensures (dandelionRmdir P name) s fun _ s' => KeepsContents s.memory s'.memory := by
  rw [dandelionRmdir]
  refine (readsOnly_findFile name).seq fun p => ?_
  refine .ite (fun _ => .pure (.refl _)) fun _ => (readsOnly_getFileAt p).seq fun f => ?_
  exact .ite (fun _ => .pure (.refl _)) fun _ => .ite (fun _ => .pure (.refl _)) fun _ =>
    h.unlink_contents hSeparate name

end Release

/-- Only a call on content and an open that truncates can change what is in a file. -/
theorem Steady.keeps_contents {x y : Session} {q : Request} (h : Steady P x.state L)
    (hSeparate : Separate x.state.memory) (hStep : Performs P x q y)
    (hq : ∀ c, q = .call c → c.onContent = false ∧ c.truncates = false) :
    KeepsContents x.state.memory y.state.memory := by
  cases q with
  | link old new =>
    obtain ⟨-, r, hRun⟩ := hStep
    exact ((keepingRules.dandelionLink old new x.state).result hRun).contents
  | call c =>
    obtain ⟨hContent, hTrunc⟩ := hq c rfl
    have hRules := keepingRules (P := P)
    have hCreates : Obeys (fun s s' => Keeps s.memory s'.memory) (c.perform P x.dirs) →
        KeepsContents x.state.memory y.state.memory := fun h => ((h x.state).result hStep).contents
    have hRemoves : Ensures (c.perform P x.dirs) x.state
        (fun _ s' => KeepsContents x.state.memory s'.memory) →
        KeepsContents x.state.memory y.state.memory := fun h => h.result hStep
    cases c with
    | openFile name flags mode =>
      have hNot : hasBit flags oTRUNC ≠ true :=
        fun hFlag => Bool.false_ne_true (hTrunc.symm.trans hFlag)
      exact hCreates (hRules.bind (hRules.dandelionOpen name mode fun hFlag => absurd hFlag hNot)
        fun _ => hRules.pure _)
    | mkdir name mode =>
      exact hCreates (hRules.bind (hRules.dandelionMkdir name mode) fun _ => hRules.pure _)
    | opendir name =>
      exact hCreates (hRules.bind (hRules.dandelionOpendir name) fun _ => hRules.pure _)
    | read fd len offset options =>
      exact hCreates (hRules.bind (hRules.dandelionRead fd len offset options)
        fun _ => hRules.pure _)
    | close fd => exact hRemoves ((h.close_contents hSeparate fd).bind fun _ _ h => .pure h)
    | unlink name => exact hRemoves ((h.unlink_contents hSeparate name).bind fun _ _ h => .pure h)
    | rmdir name => exact hRemoves ((h.rmdir_contents hSeparate name).bind fun _ _ h => .pure h)
    | closedir dir => exact hRemoves ((h.closedir_contents hSeparate dir).bind fun _ _ h => .pure h)
    | write | lseek | truncate | ftruncate => exact Bool.noConfusion hContent

end Dandelion.FileSystem
