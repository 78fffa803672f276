import Dandelion.FileSystem.TreeRules

/-! # Trees that any run keeps

Whatever a program does with paths and descriptors, the nodes form well-formed
lists and everything listed has a link, so that releasing a node never takes one
that is listed. Names need not be distinct, content may be cut off under an open
descriptor, and fresh nodes may hold any bytes as long as their link count does
not wrap around when they are linked.
-/

namespace Dandelion.FileSystem

def Listed (m : Memory) (L : Ptr → List Ptr) (Q : Ptr → Nat → Prop) : Prop :=
  ∀ d p f, p ∈ L d → m.files p = some f → Q p f.hardLinks

def Linked (p : Ptr) (hardLinks : Nat) : Prop :=
  hardLinks ≠ 0 ∧ (p < staticEnd → hardLinks % 2 ^ 16 ≠ 1)

structure Steady (P : Platform) (s : State) (L : Ptr → List Ptr) : Prop where
  listing : Listing P s.memory L
  counts : Listed s.memory L Linked
  single : ∀ p f, s.memory.files p = some f → f.type = .file → f.hardLinks ≤ 1
  holding : Holding s.memory

/-- Blocks for nodes come filled with zeros. -/
def Platform.Zeroed (P : Platform) : Prop :=
  ∀ m count g, P.answer m count sizeofFile 8 = some g → ∀ i, g.bytes i = 0

theorem zeroed_bump : (Platform.bump 0).Zeroed := by
  intro m count g hg i
  unfold Platform.bump at hg
  simp only at hg
  split at hg
  · cases hg
  · obtain rfl := Option.some.inj hg
    rfl

/-- Fresh nodes can be linked: the count they start with is not the greatest one. -/
def Platform.Linkable (P : Platform) : Prop :=
  ∀ m count g, P.answer m count sizeofFile 8 = some g → wordAt g.bytes 96 2 + 1 < 2 ^ 16

theorem Platform.Zeroed.linkable {P : Platform} (h : P.Zeroed) : P.Linkable := by
  intro m count g hg
  simp [wordAt, h m count g hg]

theorem linkable_bump : (Platform.bump 0).Linkable := zeroed_bump.linkable

variable {P : Platform} {s s' : State} {m m' : Memory} {L L' : Ptr → List Ptr} {c d n p q : Ptr}
  {a b : List Ptr} {e f : DFile} {Q : Ptr → Nat → Prop} {sized : Prop}

section Lists

theorem Listed.mono (h : Listed m L Q) (hSub : ∀ c q, q ∈ L' c → q ∈ L c)
    (hFiles : ∀ c q f', q ∈ L' c → m'.files q = some f' →
      ∃ f, m.files q = some f ∧ f'.hardLinks = f.hardLinks) :
    Listed m' L' Q := by
  intro d q f' hq hf'
  obtain ⟨f, hf, hSame⟩ := hFiles d q f' hq hf'
  rw [hSame]
  exact h d q f (hSub d q hq) hf

theorem Links.listed (h : Links P s L d n a b s' L') (hListed : Listed s.memory L Q)
    (hUnlisted : ∀ c, n ∉ L c)
    (hNew : ∀ f, s.memory.files n = some f → Q n ((f.hardLinks + 1) % 2 ^ 16)) :
    Listed s'.memory L' Q := by
  intro c p f' hp hf'
  rw [h.edits.files] at hf'
  obtain ⟨f, hf, rfl⟩ := Option.map_eq_some_iff.mp hf'
  rcases h.mem_iff.mp hp with hOld | ⟨_, rfl⟩
  · have hne : p ≠ n := fun hEq => hUnlisted c (hEq ▸ hOld)
    have hSame : (linked d n a b p f).hardLinks = f.hardLinks := if_neg hne
    rw [hSame]
    exact hListed c p f hOld hf
  · have hMore : (linked d p a b p f).hardLinks = (f.hardLinks + 1) % 2 ^ 16 := if_pos rfl
    rw [hMore]
    exact hNew f hf

end Lists

section Steps

theorem Steady.nodes {g : Ptr → DFile → DFile} (h : Steady P s L) (hHolding : Holding s'.memory)
    (hFiles : ∀ q, s'.memory.files q = (s.memory.files q).map (g q))
    (hg : ∀ q f, s.memory.files q = some f → (g q f).name = f.name ∧ (g q f).next = f.next ∧
      (g q f).parent = f.parent ∧ (g q f).type = f.type ∧
        (f.type = .directory → (g q f).link = f.link))
    (hCount : ∀ d q f, q ∈ L d → s.memory.files q = some f → (g q f).hardLinks = f.hardLinks)
    (hSingle : ∀ q f, s.memory.files q = some f → f.hardLinks ≤ 1 → (g q f).hardLinks ≤ 1) :
    Steady P s' L where
  listing := h.listing.map hFiles hg
  counts := by
    refine h.counts.mono (fun _ _ hq => hq) fun c q f' hq hf' => ?_
    rw [hFiles] at hf'
    obtain ⟨f, hf, rfl⟩ := Option.map_eq_some_iff.mp hf'
    exact ⟨f, hf, hCount c q f hq hf⟩
  single q f' hf' hType := by
    rw [hFiles] at hf'
    obtain ⟨f, hf, rfl⟩ := Option.map_eq_some_iff.mp hf'
    exact hSingle q f hf (h.single q f hf ((hg q f hf).2.2.2.1.symm.trans hType))
  holding := hHolding

theorem Edits.holding {g : Ptr → DFile → DFile} (h : Edits s s' g) (hHolding : Holding s.memory) :
    Holding s'.memory :=
  hHolding.congr (fun q hq => by rw [h.files, hq, Option.map_none]) h.chunks h.blocks

section

variable (h : Steady P s L)

include h

theorem Steady.table (o : Nat → OpenFile) : Steady P { s with openFiles := o } L :=
  ⟨h.listing, h.counts, h.single, h.holding⟩

theorem Steady.of_files (hHolding : Holding s'.memory)
    (hFiles : s'.memory.files = s.memory.files) : Steady P s' L := by
  refine h.nodes hHolding (g := fun _ f => f) (fun q => ?_)
    (fun _ _ _ => ⟨rfl, rfl, rfl, rfl, fun _ => rfl⟩) (fun _ _ _ _ _ => rfl) fun _ _ _ hLe => hLe
  rw [hFiles, Option.map_id_fun', id]

theorem Steady.same (hSame : Same s s') : Steady P s' L :=
  h.of_files (h.holding.congr (fun q hq => by rw [hSame.files, hq]) hSame.chunks hSame.blocks)
    hSame.files

theorem Steady.reworks (hReworks : Reworks sized s s') : Steady P s' L := by
  obtain ⟨hHolding, hRelinks⟩ := hReworks.holding h.holding
  refine h.nodes hHolding (g := fun q f =>
    { f with link := ((s'.memory.files q).map (·.link)).getD 0 })
    (fun q => ?_) (fun q f hf => ⟨rfl, rfl, rfl, rfl, fun hDir => ?_⟩) (fun _ _ _ _ _ => rfl)
      fun _ _ _ hLe => hLe
  · rcases hRelinks q with ⟨hNone, hNone'⟩ | ⟨f, link, hf, hf', _⟩
    · rw [hNone, hNone', Option.map_none]
    · rw [hf, hf', Option.map_some, Option.map_some, Option.getD_some]
  · obtain ⟨link, hf', hLink⟩ := hRelinks.file hf
    rw [hf', Option.map_some, Option.getD_some]
    exact hLink (by rw [hDir]; decide)

theorem Steady.modify (p : Ptr) {g : DFile → DFile}
    (hg : ∀ f, s.memory.files p = some f → (g f).name = f.name ∧ (g f).next = f.next ∧
      (g f).parent = f.parent ∧
      (g f).type = f.type ∧ (f.type = .directory → (g f).link = f.link))
    (hCount : ∀ d f, p ∈ L d → s.memory.files p = some f → (g f).hardLinks = f.hardLinks)
    (hSingle : ∀ f, s.memory.files p = some f → f.hardLinks ≤ 1 → (g f).hardLinks ≤ 1) :
    Ensures (modifyFile p g) s fun _ s' => Steady P s' L := by
  refine (ensures_modifyFile_edits p g).imp fun _ s' hs' => ?_
  obtain ⟨_, _, hEdit⟩ := hs'
  refine h.nodes (hEdit.holding h.holding) hEdit.files (fun q f hf => ?_) (fun d q f hq hf => ?_)
    fun q f hf hLe => ?_
  · by_cases hqp : q = p
    · subst hqp
      rw [editAt, if_pos rfl]
      exact hg f hf
    · rw [editAt, if_neg hqp]
      exact ⟨rfl, rfl, rfl, rfl, fun _ => rfl⟩
  · by_cases hqp : q = p
    · subst hqp
      rw [editAt, if_pos rfl]
      exact hCount d f hq hf
    · rw [editAt, if_neg hqp]
  · by_cases hqp : q = p
    · subst hqp
      rw [editAt, if_pos rfl]
      exact hSingle f hf hLe
    · rw [editAt, if_neg hqp]
      exact hLe

theorem Steady.recount (p : Ptr) (k : DFile → Nat) :
    Ensures (modifyFile p fun f => { f with openDescriptors := k f }) s fun _ s' => Steady P s' L :=
  h.modify p (fun _ _ => ⟨rfl, rfl, rfl, rfl, fun _ => rfl⟩) (fun _ _ _ _ => rfl) fun _ _ hLe => hLe

theorem Steady.chmod (p : Ptr) (mode : Nat) :
    Ensures (modifyFile p fun f => { f with mode := mode }) s fun _ s' => Steady P s' L :=
  h.modify p (fun _ _ => ⟨rfl, rfl, rfl, rfl, fun _ => rfl⟩) (fun _ _ _ _ => rfl) fun _ _ hLe => hLe

end

theorem AddsNode.holding (h : AddsNode s s' n f) (hHolding : Holding s.memory) :
    Holding s'.memory := by
  refine ⟨fun q e he => ?_, ?_, ?_, ?_⟩
  · rw [h.chunks, h.blocks]
    by_cases hq : q = n
    · exact hq ▸ h.vacant.2.2
    · rw [h.files, Function.update_of_ne hq] at he
      exact hHolding.alone q e he
  · rw [h.chunks, h.blocks]
    exact hHolding.apart
  · rw [h.chunks, h.blocks]
    exact hHolding.data
  · rw [h.chunks]
    exact hHolding.own

theorem Steady.adds (h : Steady P s L) (hAdds : AddsNode s s' n f) (hLink : f.link = 0)
    (hSingle : f.type = .file → f.hardLinks ≤ 1) : Steady P s' L where
  listing := hAdds.listing h.listing fun _ => hLink
  counts := by
    refine h.counts.mono (fun _ _ hq => hq) fun c q f' hq hf' => ?_
    obtain ⟨e, he, _⟩ := h.listing.live hq
    obtain rfl := Option.mem_unique (hAdds.old he) hf'
    exact ⟨_, he, rfl⟩
  single q e he hType := by
    by_cases hq : q = n
    · subst hq
      obtain rfl := Option.mem_unique hAdds.live he
      exact hSingle hType
    · rw [hAdds.files, Function.update_of_ne hq] at he
      exact h.single q e he hType
  holding := hAdds.holding h.holding

theorem Steady.links (h : Steady P s L) (hLinks : Links P s L d n a b s' L')
    (hUnlisted : ∀ c, n ∉ L c)
    (hNew : ∀ f, s.memory.files n = some f → Linked n ((f.hardLinks + 1) % 2 ^ 16) ∧
      (f.type = .file → (f.hardLinks + 1) % 2 ^ 16 ≤ 1)) : Steady P s' L' where
  listing := hLinks.listing
  counts := hLinks.listed h.counts hUnlisted fun f hf => (hNew f hf).1
  single q f' hf' hType := by
    rw [hLinks.edits.files] at hf'
    obtain ⟨f, hf, rfl⟩ := Option.map_eq_some_iff.mp hf'
    by_cases hq : q = n
    · subst hq
      have hMore : (linked d q a b q f).hardLinks = (f.hardLinks + 1) % 2 ^ 16 := if_pos rfl
      rw [hMore]
      exact (hNew f hf).2 hType
    · have hSame : (linked d n a b q f).hardLinks = f.hardLinks := if_neg hq
      rw [hSame]
      exact h.single q f hf hType
  holding := hLinks.edits.holding h.holding

theorem linked_new (hf : m.files n = some f) (hLow : staticEnd ≤ n)
    (hCount : f.hardLinks + 1 < 2 ^ 16) (hSingle : f.type = .file → f.hardLinks = 0) :
    ∀ e, m.files n = some e → Linked n ((e.hardLinks + 1) % 2 ^ 16) ∧
      (e.type = .file → (e.hardLinks + 1) % 2 ^ 16 ≤ 1) := by
  intro e he
  obtain rfl := Option.mem_unique hf he
  rw [Nat.mod_eq_of_lt hCount]
  exact ⟨⟨Nat.succ_ne_zero _, fun hLt => absurd hLow (Nat.not_le.mpr hLt)⟩,
    fun hType => by rw [hSingle hType]⟩

theorem Steady.link (h : Steady P s L) (hd : isDirectory s.memory d = true)
    (hf : s.memory.files n = some f) (hUnlisted : ∀ c, n ∉ L c) (hLow : staticEnd ≤ n)
    (hCount : f.hardLinks + 1 < 2 ^ 16) (hSingle : f.type = .file → f.hardLinks = 0) :
    ∃ s' L' a b, linkFileToFolder P d n s = .ok (0, s') ∧ Links P s L d n a b s' L' ∧
      Steady P s' L' := by
  obtain ⟨e, he, hType⟩ := isDirectory_iff.mp hd
  have hRoot : n ≠ fsRoot :=
    Nat.ne_of_gt (Nat.lt_of_lt_of_le (show fsRoot < staticEnd by decide) hLow)
  obtain ⟨s₁, L₁, a, b, hRun, hLinks⟩ := h.listing.link he hType hf hRoot hUnlisted
  exact ⟨s₁, L₁, a, b, hRun, hLinks, h.links hLinks hUnlisted (linked_new hf hLow hCount hSingle)⟩

theorem Steady.place (h : Steady P s L) (hf : s.memory.files n = some f) (hUnlisted : ∀ c, n ∉ L c)
    (hLow : staticEnd ≤ n) (hCount : f.hardLinks + 1 < 2 ^ 16)
    (hSingle : f.type = .file → f.hardLinks = 0) (d : Ptr) :
    Ensures (linkFileToFolder P d n) s fun error s' => error = 0 ∧ isDirectory s.memory d ∧
      (∃ L' a b, Links P s L d n a b s' L' ∧ Steady P s' L') ∨ error = -1 ∧ s' = s := by
  by_cases hDir : isDirectory s.memory d = true
  · obtain ⟨s₁, L₁, a, b, hRun, hLinks, h₁⟩ := h.link hDir hf hUnlisted hLow hCount hSingle
    exact .of_ok hRun (Or.inl ⟨rfl, hDir, L₁, a, b, hLinks, h₁⟩)
  · rw [linkFileToFolder]
    refine ensures_file fun e _ he => ?_
    exact .ite (fun _ => .pure (Or.inr ⟨rfl, rfl⟩)) fun hType =>
      absurd (isDirectory_iff.mpr ⟨e, he, not_not.mp hType⟩) hDir

end Steps

section Removing

theorem Steady.detach (h : Steady P s L) (hp : p ∈ L d) :
    ∃ s' a b, detach p s = .ok ((), s') ∧ L d = a ++ p :: b ∧ Edits s s' (unlinked d a b) ∧
      Steady P s' (Function.update L d (a ++ b)) ∧ (∀ c, p ∉ Function.update L d (a ++ b) c) ∧
      ∀ f, s'.memory.files p = some f → f.hardLinks ≠ 0 := by
  obtain ⟨s', a, b, hRun, hSplit, hEdit, hListing⟩ := h.listing.detach hp
  have hMem : ∀ {c q}, q ∈ Function.update L d (a ++ b) c ↔ q ∈ L c ∧ q ≠ p :=
    h.listing.mem_remove_iff hSplit
  have hOld : ∀ q f', s'.memory.files q = some f' →
      ∃ f, s.memory.files q = some f ∧ f' = unlinked d a b q f := by
    intro q f' hf'
    rw [hEdit.files] at hf'
    obtain ⟨f, hf, rfl⟩ := Option.map_eq_some_iff.mp hf'
    exact ⟨f, hf, rfl⟩
  refine ⟨s', a, b, hRun, hSplit, hEdit,
    ⟨hListing, h.counts.mono (fun c q hq => (hMem.mp hq).1) fun c q f' hq hf' => ?_,
    fun q f' hf' hType => ?_, hEdit.holding h.holding⟩, fun c hc => (hMem.mp hc).2 rfl,
      fun f' hf' => ?_⟩
  · obtain ⟨f, hf, rfl⟩ := hOld q f' hf'
    exact ⟨f, hf, rfl⟩
  · obtain ⟨f, hf, rfl⟩ := hOld q f' hf'
    exact h.single q f hf hType
  · obtain ⟨f, hf, rfl⟩ := hOld p f' hf'
    exact (h.counts d p f hp hf).1

theorem Holding.drop (h : Holding m) (hf : m.files p = some f) : Holding (m.drop p) := by
  obtain ⟨hChunk, hBlock⟩ := h.alone p f hf
  refine h.congr (fun q hq => ?_) (Function.update_eq_self_iff.mpr hChunk.symm)
    (Function.update_eq_self_iff.mpr hBlock.symm)
  rw [drop_files]
  by_cases hqp : q = p
  · rw [hqp, Function.update_self]
  · rw [Function.update_of_ne hqp, hq]

section

variable (h : Steady P s L)

include h

theorem Steady.drop (hUnlisted : ∀ d, p ∉ L d) (hRoot : p ≠ fsRoot)
    (hf : s.memory.files p = some f) :
    Steady P { s with memory := s.memory.drop p } (Function.update L p []) := by
  have hOld : ∀ q f', (s.memory.drop p).files q = some f' → s.memory.files q = some f' := by
    intro q f' hf'
    rw [drop_files] at hf'
    by_cases hqp : q = p
    · rw [hqp, Function.update_self] at hf'
      cases hf'
    · rwa [Function.update_of_ne hqp] at hf'
  refine ⟨h.listing.drop hUnlisted hRoot rfl, h.counts.mono (fun c q hq => ?_) fun c q f' _ hf' =>
    ⟨f', hOld q f' hf', rfl⟩,
    fun q f' hf' hType => h.single q f' (hOld q f' hf') hType, h.holding.drop hf⟩
  by_cases hc : c = p
  · rw [hc, Function.update_self] at hq
    exact absurd hq List.not_mem_nil
  · rwa [Function.update_of_ne hc] at hq

theorem Steady.discount (hUnlisted : ∀ d, p ∉ L d)
    (hCount : ∀ f, s.memory.files p = some f → f.hardLinks ≠ 0) :
    Ensures (modifyFile p fun f => { f with hardLinks := (f.hardLinks + (2 ^ 16 - 1)) % 2 ^ 16 }) s
      fun _ s' =>
      Steady P s' L := by
  refine h.modify p (fun _ _ => ⟨rfl, rfl, rfl, rfl, fun _ => rfl⟩)
    (fun d _ hq => absurd hq (hUnlisted d)) fun f hf hLe => ?_
  have hOne : f.hardLinks = 1 := Nat.le_antisymm hLe (Nat.one_le_iff_ne_zero.mpr (hCount f hf))
  change (f.hardLinks + (2 ^ 16 - 1)) % 2 ^ 16 ≤ 1
  rw [hOne]
  decide

theorem Steady.drops (hUnlisted : ∀ d, p ∉ L d) (hRoot : p ≠ fsRoot)
    (hDrops : Drops s s' p) : Steady P s' (Function.update L p []) := by
  obtain ⟨f, cs, s₁, hf, -, -, hFrees, rfl⟩ := hDrops
  exact (h.of_files hFrees.holding hFrees.files).drop hUnlisted hRoot (hFrees.files ▸ hf)

theorem Steady.counted : Counted s.memory L := fun d p f hp hf => (h.counts d p f hp hf).1

theorem Steady.freeData_lists (p : Ptr) :
    Ensures (freeData p) s fun _ s' => ∃ L', Steady P s' L' ∧
      (L' = L ∨ L' = Function.update L p []) ∧
      ∀ q, q ≠ p → s'.memory.files q = s.memory.files q := by
  refine (freeData_drops h.listing h.holding h.counted p).imp fun _ s' h' => ?_
  rcases h' with rfl | ⟨hUnlisted, hRoot, hDrops⟩
  · exact ⟨L, h, Or.inl rfl, fun _ _ => rfl⟩
  · exact ⟨_, h.drops hUnlisted hRoot hDrops, Or.inr rfl, fun _ hq => hDrops.file hq⟩

theorem Steady.remove (hp : p ∈ L d) :
    Ensures (do
      FileSystem.detach p
      modifyFile p fun f => { f with hardLinks := (f.hardLinks + (2 ^ 16 - 1)) % 2 ^ 16 }) s
      fun _ s' => ∃ L', Steady P s' L' := by
  obtain ⟨s₁, a, b, hDetach, -, -, h₁, hUnlisted, hCount⟩ := h.detach hp
  exact .after hDetach ((h₁.discount hUnlisted hCount).imp fun _ _ h₂ => ⟨_, h₂⟩)

theorem Steady.empty (hf : s.memory.files p = some f) (hType : f.type = .file) :
    Ensures (do
      freeFileChunks f.link
      modifyFile p fun f => { f with link := 0 }) s fun _ s' => Steady P s' L := by
  refine (freeFileChunks_reworks f.link s).bind fun _ s₁ h₁ => ?_
  obtain ⟨link, hf₁, -⟩ := (h₁.holding h.holding).2.file hf
  refine (h.reworks h₁).modify p (fun e he => ⟨rfl, rfl, rfl, rfl, fun hDir => ?_⟩)
    (fun _ _ _ _ => rfl)
    fun _ _ hLe => hLe
  obtain rfl := Option.mem_unique hf₁ he
  exact absurd (hType.symm.trans hDir) (by decide)

end

theorem steadyOpens : OpenRules (Steady P) where
  table o h := h.table o
  recount p k h := h.recount p k
  empty := Steady.empty

theorem steadyRules : TreeRules P (Steady P) where
  toEntryRules := steadyOpens.toEntryRules
  listing := Steady.listing
  holding := Steady.holding
  counted := Steady.counted
  remove := Steady.remove
  drops := Steady.drops

end Removing

end Dandelion.FileSystem
