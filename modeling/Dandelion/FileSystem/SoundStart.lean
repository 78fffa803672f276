import Dandelion.FileSystem.Containment
import Dandelion.FileSystem.Handling

/-! # Memory starts sound

The chunks that `fs_initialize` makes hold the buffers of the items, which are all
different, and have their lengths. What it allocates besides are nodes and strings.
-/

namespace Dandelion.FileSystem

/-- The content of files is in buffers of the platform, which the file system may not free. -/
def Borrowed (m : Memory) : Prop :=
  ∀ p c, m.chunks p = some c → ∃ b, m.blocks c.data = some b ∧ b.foreign = true

/-- No chunk holds the buffers of these items. -/
def Pending (m : Memory) (items : List Item) : Prop :=
  ∀ item ∈ items, item.data ≠ 0 →
    (∃ b, m.blocks item.data = some b ∧ b.foreign = true ∧ item.dataLen ≤ b.size) ∧
    ∀ p c, m.chunks p = some c → c.data ≠ item.data

def Apart (items : List Item) : Prop :=
  (items.filter fun item => item.data ≠ 0).Pairwise fun a b => a.data ≠ b.data

/-- Sound memory while the given items are still to come. -/
structure Stocked (items : List Item) (s : State) : Prop where
  sound : Sound s.memory
  borrowed : Borrowed s.memory
  pending : Pending s.memory items
  apart : Apart items

variable {P : Platform} {s s' : State} {m m' : Memory} {L L' : Ptr → List Ptr} {d n p r : Ptr}
  {f : DFile} {item : Item} {items : List Item} {preventUp : Bool} {length : Nat}

section Memory

theorem Borrowed.mono (h : Borrowed m) (hChunks : m'.chunks = m.chunks)
    (hBlocks : ∀ p b, m.blocks p = some b → ∃ b', m'.blocks p = some b' ∧ b'.foreign = b.foreign ∧
      b'.size = b.size) :
    Borrowed m' := by
  intro p c hc
  rw [hChunks] at hc
  obtain ⟨b, hb, hForeign⟩ := h p c hc
  obtain ⟨b', hb', hSame, -⟩ := hBlocks _ b hb
  exact ⟨b', hb', hSame.trans hForeign⟩

theorem Pending.mono (h : Pending m items) (hChunks : m'.chunks = m.chunks)
    (hBlocks : ∀ p b, m.blocks p = some b → ∃ b', m'.blocks p = some b' ∧ b'.foreign = b.foreign ∧
      b'.size = b.size) :
    Pending m' items := by
  intro item hItem hData
  obtain ⟨⟨b, hb, hForeign, hSize⟩, hOther⟩ := h item hItem hData
  obtain ⟨b', hb', hSame, hSame'⟩ := hBlocks _ b hb
  rw [hChunks]
  exact ⟨⟨b', hb', hSame.trans hForeign, hSame' ▸ hSize⟩, hOther⟩

theorem Apart.tail (h : Apart (item :: items)) : Apart items := by
  unfold Apart at h
  rw [List.filter_cons] at h
  split at h
  · exact h.tail
  · exact h

theorem Apart.append {front : List Item} (h : Apart (front ++ items)) : Apart items := by
  unfold Apart at h
  rw [List.filter_append] at h
  exact (List.pairwise_append.mp h).2.1

theorem AddsFile.holding {content length : Nat} (h : AddsFile s s' n f content length)
    (hHolding : Holding s.memory)
    (hContent : content ≠ 0 → (∃ b, s.memory.blocks content = some b) ∧
      ∀ p c, s.memory.chunks p = some c → c.data ≠ content) : Holding s'.memory := by
  -- the node first, then the chunk
  have hNode : ∀ q e, s'.memory.files q = some e → s.memory.chunks q = none ∧
      s.memory.blocks q = none := by
    intro q e he
    by_cases hq : q = n
    · exact hq ▸ h.vacant.2.2
    · rw [h.files, Function.update_of_ne hq] at he
      exact hHolding.alone q e he
  rcases h.content with ⟨_, _, hSame⟩ | ⟨hne, hLink, hVacant, hUpdate⟩
  · refine ⟨?_, ?_, ?_, ?_⟩
    · rw [hSame, h.blocks]
      exact hNode
    · rw [hSame, h.blocks]
      exact hHolding.apart
    · rw [hSame, h.blocks]
      exact hHolding.data
    · rw [hSame]
      exact hHolding.own
  · obtain ⟨hBlock, hOther⟩ := hContent hne
    have hCases : ∀ q c, s'.memory.chunks q = some c →
        q = f.link ∧ c.data = content ∨ q ≠ f.link ∧ s.memory.chunks q = some c := by
      intro q c hc
      rw [hUpdate] at hc
      by_cases hq : q = f.link
      · rw [hq, Function.update_self, Option.some.injEq] at hc
        exact Or.inl ⟨hq, by rw [← hc]⟩
      · rw [Function.update_of_ne hq] at hc
        exact Or.inr ⟨hq, hc⟩
    refine ⟨fun q e he => ?_, fun q c hc => ?_, fun q c hc => ?_, fun p q c c' hc hc' hEq => ?_⟩
    · obtain ⟨hChunk, hNone⟩ := hNode q e he
      refine ⟨?_, by rw [h.blocks, hNone]⟩
      have hq : q ≠ f.link := by
        by_cases hq : q = n
        · exact hq ▸ hLink.symm
        · rw [h.files, Function.update_of_ne hq] at he
          exact (hVacant.ne_file he).symm
      rw [hUpdate, Function.update_of_ne hq, hChunk]
    · rw [h.blocks]
      rcases hCases q c hc with ⟨rfl, _⟩ | ⟨_, hOld⟩
      · exact hVacant.2.2.2
      · exact hHolding.apart q c hOld
    · rw [h.blocks]
      rcases hCases q c hc with ⟨_, hData⟩ | ⟨_, hOld⟩
      · rw [hData]
        exact hBlock
      · exact hHolding.data q c hOld
    · rcases hCases p c hc with ⟨rfl, hData⟩ | ⟨_, hOld⟩ <;> rcases hCases q c' hc' with ⟨rfl,
          hData'⟩ | ⟨_, hOld'⟩
      · rfl
      · exact absurd (hEq.symm.trans hData) (hOther q c' hOld')
      · exact absurd (hEq.trans hData') (hOther p c hOld)
      · exact hHolding.own p q c c' hOld hOld' hEq

theorem AddsFile.fits {content length : Nat} (h : AddsFile s s' n f content length)
    (hFits : Fits s.memory) (hContent : content ≠ 0 →
      ∃ b, s.memory.blocks content = some b ∧ length ≤ b.size) : Fits s'.memory := by
  rcases h.content with ⟨_, _, hSame⟩ | ⟨hne, _, _, hUpdate⟩
  · exact hFits.congr hSame h.blocks
  · intro q c hc
    rw [hUpdate] at hc
    rw [h.blocks]
    by_cases hq : q = f.link
    · rw [hq, Function.update_self, Option.some.injEq] at hc
      subst hc
      obtain ⟨b, hb, hSize⟩ := hContent hne
      refine ⟨hne, Nat.le_refl _, fun b' hb' => ?_⟩
      obtain rfl := Option.mem_unique hb hb'
      exact hSize
    · rw [Function.update_of_ne hq] at hc
      exact hFits q c hc

theorem Outfits.holding (h : Outfits s s') (hHolding : Holding s.memory) : Holding s'.memory := by
  have hNone : ∀ q, s.memory.blocks q = none → s.memory.files q ≠ none ∨ s.memory.chunks q ≠ none →
      s'.memory.blocks q = none := by
    intro q hq hLive
    cases hb : s'.memory.blocks q with
    | none => rfl
    | some b' =>
      rcases h.new q b' hb with ⟨b, hOld⟩ | ⟨hFile, hChunk⟩
      · rw [hq] at hOld
        cases hOld
      · exact absurd hLive (by rw [hFile, hChunk]; simp)
  refine ⟨fun q f hf => ?_, fun q c hc => ?_, fun q c hc => ?_, fun q q' c c' hc hc' hEq => ?_⟩
  · rw [h.files] at hf
    obtain ⟨hChunk, hBlock⟩ := hHolding.alone q f hf
    exact ⟨by rw [h.chunks, hChunk], hNone q hBlock (Or.inl (by rw [hf]; simp))⟩
  · rw [h.chunks] at hc
    exact hNone q (hHolding.apart q c hc) (Or.inr (by rw [hc]; simp))
  · rw [h.chunks] at hc
    obtain ⟨b, hb⟩ := hHolding.data q c hc
    obtain ⟨b', hb', _⟩ := h.old _ b hb
    exact ⟨b', hb'⟩
  · rw [h.chunks] at hc hc'
    exact hHolding.own q q' c c' hc hc' hEq

theorem Outfits.fits (h : Outfits s s') (hHolding : Holding s.memory) (hFits : Fits s.memory) :
    Fits s'.memory := by
  intro q c hc
  rw [h.chunks] at hc
  obtain ⟨hne, hUsed, hSize⟩ := hFits q c hc
  refine ⟨hne, hUsed, fun b' hb' => ?_⟩
  obtain ⟨b, hb⟩ := hHolding.data q c hc
  obtain ⟨b'', hb'', _, hSame⟩ := h.old _ b hb
  obtain rfl := Option.mem_unique hb'' hb'
  exact hSame ▸ hSize b hb

end Memory

section Steps

theorem Stocked.skip {front : List Item} (h : Stocked (front ++ items) s) : Stocked items s :=
  ⟨h.sound, h.borrowed, fun item hItem => h.pending item (List.mem_append_right _ hItem),
    h.apart.append⟩

theorem Stocked.next (h : Stocked (item :: items) s) : Stocked items s :=
  skip (show Stocked ([item] ++ items) s from h)

theorem Stocked.same (h : Stocked items s) (hHolding : Holding s'.memory)
    (hChunks : s'.memory.chunks = s.memory.chunks) (hBlocks : s'.memory.blocks = s.memory.blocks) :
    Stocked items s' := by
  have hOld : ∀ p b, s.memory.blocks p = some b →
      ∃ b', s'.memory.blocks p = some b' ∧ b'.foreign = b.foreign ∧ b'.size = b.size :=
        fun _ b hb =>
    ⟨b, by rw [hBlocks, hb], rfl, rfl⟩
  exact ⟨⟨hHolding, h.sound.fits.congr hChunks hBlocks⟩, h.borrowed.mono hChunks hOld,
    h.pending.mono hChunks hOld, h.apart⟩

theorem Stocked.edits {g : Ptr → DFile → DFile} (h : Stocked items s) (hEdits : Edits s s' g) :
    Stocked items s' :=
  h.same (hEdits.holding h.sound.holding) hEdits.chunks hEdits.blocks

theorem Stocked.opens {index : Nat} (h : Stocked items s) (hOpens : OpensAt s s' index p) :
    Stocked items s' := by
  obtain ⟨s₁, hEdit, hMemory⟩ := hOpens.edits
  have h₁ := h.edits hEdit
  exact ⟨hMemory ▸ h₁.sound, hMemory ▸ h₁.borrowed, hMemory ▸ h₁.pending, h.apart⟩

theorem Stocked.outfits (h : Stocked items s) (hOutfits : Outfits s s') : Stocked items s' :=
  ⟨⟨hOutfits.holding h.sound.holding, hOutfits.fits h.sound.holding h.sound.fits⟩,
    h.borrowed.mono hOutfits.chunks hOutfits.old, h.pending.mono hOutfits.chunks hOutfits.old,
    h.apart⟩

theorem Stocked.adds (h : Stocked items s) (hAdds : AddsFile s s' n f 0 length) :
    Stocked items s' :=
  h.same (hAdds.holding h.sound.holding fun hne => absurd rfl hne)
    (hAdds.content.resolve_right fun hContent => hContent.1 rfl).2.2 hAdds.blocks

theorem Stocked.place (h : Stocked (item :: items) s)
    (hAdds : AddsFile s s' n f item.data item.dataLen) :
    Stocked items s' := by
  have hContent := h.pending item List.mem_cons_self
  have hHolding := hAdds.holding h.sound.holding fun hne =>
    ⟨(hContent hne).1.imp fun _ hb => hb.1, (hContent hne).2⟩
  have hFits := hAdds.fits h.sound.fits fun hne => (hContent hne).1.imp fun _ hb => ⟨hb.1, hb.2.2⟩
  rcases hAdds.content with ⟨-, -, hSame⟩ | ⟨hne, -, -, hUpdate⟩
  · exact h.next.same hHolding hSame hAdds.blocks
  -- the new chunk holds the buffer of the item, which the others do not have
  have hCases : ∀ q c, s'.memory.chunks q = some c → c.data = item.data ∨
      s.memory.chunks q = some c := by
    intro q c hc
    rw [hUpdate] at hc
    by_cases hq : q = f.link
    · rw [hq, Function.update_self, Option.some.injEq] at hc
      exact Or.inl (by rw [← hc])
    · rw [Function.update_of_ne hq] at hc
      exact Or.inr hc
  refine ⟨⟨hHolding, hFits⟩, fun q c hc => ?_, fun other hOther hData => ?_, h.apart.tail⟩
  · rw [hAdds.blocks]
    rcases hCases q c hc with hData | hOld
    · exact hData ▸ (hContent hne).1.imp fun _ hb => ⟨hb.1, hb.2.1⟩
    · exact h.borrowed q c hOld
  · obtain ⟨hBlock, hChunks⟩ := h.pending other (List.mem_cons_of_mem _ hOther) hData
    rw [hAdds.blocks]
    refine ⟨hBlock, fun q c hc hEq => ?_⟩
    rcases hCases q c hc with hItem | hOld
    · have hApart := h.apart
      unfold Apart at hApart
      rw [List.filter_cons_of_pos (by simpa using hne), List.pairwise_cons] at hApart
      exact hApart.1 other (List.mem_filter.mpr ⟨hOther, by simpa using hData⟩)
        (hItem.symm.trans hEq)
    · exact hChunks q c hOld hEq

theorem Stocked.creates {names : List Path} (h : Stocked items s)
    (hCreates : Creates P preventUp s L d names s' L' r) : Stocked items s' := by
  induction hCreates with
  | done => exact h
  | stay _ ih => exact ih h
  | up _ _ ih => exact ih h
  | enter _ _ _ _ _ ih => exact ih h
  | make _ _ _ _ _ _ hAdds hLinks _ ih =>
    exact ih ((h.same (hAdds.holding h.sound.holding) hAdds.chunks hAdds.blocks).edits hLinks.edits)
  | refused hSame =>
    exact h.same (h.sound.holding.congr (fun q hq => by rw [hSame.files, hq]) hSame.chunks
      hSame.blocks) hSame.chunks
      hSame.blocks

theorem Stocked.imports {isStdio : Bool} {D : Ptr} (h : Stocked (item :: items) s)
    (hImports : ImportsItem P D isStdio item s L 0 s' L') : Stocked items s' := by
  cases hImports with
  | skipped _ => exact h.next
  | placed _ hCreates _ _ _ _ hAdds hLinks hOpens hOutfits =>
    have h₃ := ((h.creates hCreates).place hAdds).edits hLinks.edits
    split at hOpens
    · exact (h₃.opens hOpens).outfits hOutfits
    · subst hOpens
      exact h₃.outfits hOutfits

theorem stockedRules : BuildRules P fun items s _ => Stocked items s where
  skip := Stocked.skip
  creates := Stocked.creates
  item := Stocked.imports
  stream h hAdds hOpens hLinks := ((h.adds hAdds).opens hOpens).edits hLinks.edits
  outfits := Stocked.outfits

end Steps

section Initialize

theorem Boots.stocked {sets : List InputSet} (h : Boots sets s) :
    Stocked (sets.flatMap fun set => set.items) s := by
  have hChunk : ∀ q c, s.memory.chunks q ≠ some c := fun q c hc => by
    rw [h.chunks q] at hc
    cases hc
  refine ⟨⟨⟨fun q f hf => ⟨h.chunks q, ?_⟩, fun q c hc => absurd hc (hChunk q c),
    fun q c hc => absurd hc (hChunk q c), fun q _ c _ hc => absurd hc (hChunk q c)⟩, fun q c hc =>
      absurd hc (hChunk q c)⟩,
    fun q c hc => absurd hc (hChunk q c), fun item hItem hData => ?_, h.apart⟩
  · cases hb : s.memory.blocks q with
    | none => rfl
    | some b =>
      -- the static nodes are below all blocks
      have hLow := (h.blocks q b hb).2
      rw [h.files] at hf
      rcases staticFiles_cases hf with ⟨rfl, -⟩ | ⟨rfl, -⟩ | ⟨rfl, -⟩ | ⟨rfl, -⟩ <;> exact absurd
          hLow (by decide)
  · obtain ⟨set, hSet, hMem⟩ := List.mem_flatMap.mp hItem
    obtain ⟨b, hb, hSize⟩ := h.items set hSet item hMem hData
    exact ⟨⟨b, hb, (h.blocks _ b hb).1, hSize⟩, fun q c hc => absurd hc (hChunk q c)⟩

/-- The three links of the start. -/
theorem linkStatics_stocked {sets : List InputSet} (h : Boots sets s) :
    ∃ s' L', linkStatics P s = .ok (0, s') ∧ Grounded P s' L' ∧
      Stocked (sets.flatMap fun set => set.items) s' ∧
      Listed s'.memory L' Linked ∧ ∀ p f, s'.memory.files p = some f → f.type ≠ .file := by
  obtain ⟨s', L', hRun, -, hStage, hCounts, hTypes, hNone, hChunks, hBlocks⟩ :=
    linkStatics_stage (P := P) h
  have hHolding := h.stocked.sound.holding.congr hNone hChunks hBlocks
  refine ⟨s', L', hRun, hStage.grounded, h.stocked.same hHolding hChunks hBlocks,
    fun d q f hq hf => ?_, hTypes⟩
  have hRoot : q ≠ fsRoot := fun hEq => hStage.listing.root_unlisted d (hEq ▸ hq)
  rw [(hCounts q f hf hRoot).1]
  exact ⟨by decide, fun _ => by decide⟩

theorem stocked_of_boots {sets : List InputSet} {outputs : List Path} (h : Boots sets s) :
    Ensures (fsInitialize P sets outputs) s fun r s' => r.1 = 0 → Stocked [] s' := by
  obtain ⟨s', L', hRun, hGrounded, hStocked, -⟩ := linkStatics_stocked (P := P) h
  refine (stockedRules.fsInitialize hRun hStocked hGrounded).imp fun r s' hs' hr => ?_
  obtain ⟨_, hStocked⟩ := hs' hr
  exact hStocked

end Initialize

end Dandelion.FileSystem
