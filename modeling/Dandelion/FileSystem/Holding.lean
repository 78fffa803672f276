import Dandelion.FileSystem.ReworkCalls

/-! # What chunks hold

Every chunk has a block of its own, and nodes, chunks and blocks are at different
addresses. Changes of content keep this, also those that release chunks while
something still refers to them. What they do to nodes is to give regular files
other chunks.
-/

namespace Dandelion.FileSystem

open Relation

structure Holding (m : Memory) : Prop where
  alone : ∀ p f, m.files p = some f → m.chunks p = none ∧ m.blocks p = none
  apart : ∀ p c, m.chunks p = some c → m.blocks p = none
  data : ∀ p c, m.chunks p = some c → ∃ b, m.blocks c.data = some b
  own : ∀ p q c c', m.chunks p = some c → m.chunks q = some c' → c.data = c'.data → p = q

def Relinks (m m' : Memory) : Prop :=
  ∀ p, m.files p = none ∧ m'.files p = none ∨
    ∃ f link, m.files p = some f ∧ m'.files p = some { f with link := link } ∧
      (f.type ≠ .file → link = f.link)

variable {s s' : State} {m m' m'' : Memory} {sized : Prop} {p q : Ptr} {c : FileChunk} {b : Block}

section Nodes

theorem Relinks.of_eq (h : m'.files = m.files) : Relinks m m' := by
  intro p
  rw [h]
  cases m.files p with
  | none => exact Or.inl ⟨rfl, rfl⟩
  | some f => exact Or.inr ⟨f, f.link, rfl, rfl, fun _ => rfl⟩

theorem Relinks.trans (h : Relinks m m') (h' : Relinks m' m'') : Relinks m m'' := by
  intro p
  rcases h p with ⟨hNone, hNone'⟩ | ⟨f, link, hf, hf', hLink⟩
  · rcases h' p with ⟨_, hNone''⟩ | ⟨f', _, hf', _⟩
    · exact Or.inl ⟨hNone, hNone''⟩
    · rw [hNone'] at hf'
      cases hf'
  · rcases h' p with ⟨hNone', _⟩ | ⟨e, link', he, hf'', hLink'⟩
    · rw [hNone'] at hf'
      cases hf'
    · obtain rfl := Option.mem_unique hf' he
      exact Or.inr ⟨f, link', hf, hf'', fun hType => (hLink' hType).trans (hLink hType)⟩

theorem Relinks.file (h : Relinks m m') {f : DFile} (hf : m.files p = some f) :
    ∃ link, m'.files p = some { f with link := link } ∧ (f.type ≠ .file → link = f.link) := by
  rcases h p with ⟨hNone, _⟩ | ⟨e, link, he, hf', hLink⟩
  · rw [hNone] at hf
    cases hf
  · obtain rfl := Option.mem_unique hf he
    exact ⟨link, hf', hLink⟩

end Nodes

section Steps

section

variable (h : Holding m)

include h

theorem Holding.block_ne_file {f : DFile} (hb : m.blocks p = some b) : m.files p ≠ some f := by
  intro hf
  rw [(h.alone p f hf).2] at hb
  cases hb

theorem Holding.files_data (hc : m.chunks p = some c) : m.files c.data = none := by
  obtain ⟨b, hb⟩ := h.data p c hc
  cases hf : m.files c.data with
  | none => rfl
  | some f => exact absurd hf (h.block_ne_file hb)

theorem Holding.files_chunk (hc : m.chunks p = some c) : m.files p = none := by
  cases hf : m.files p with
  | none => rfl
  | some f =>
    rw [(h.alone p f hf).1] at hc
    cases hc

theorem Holding.chunks_data (hc : m.chunks p = some c) : m.chunks c.data = none := by
  obtain ⟨b, hb⟩ := h.data p c hc
  cases hc' : m.chunks c.data with
  | none => rfl
  | some c' =>
    rw [h.apart _ c' hc'] at hb
    cases hb

theorem Holding.congr (hFiles : ∀ q, m.files q = none → m'.files q = none)
    (hChunks : m'.chunks = m.chunks) (hBlocks : m'.blocks = m.blocks) : Holding m' := by
  constructor
  · intro q f' hf'
    rw [hChunks, hBlocks]
    cases hf : m.files q with
    | none =>
      rw [hFiles q hf] at hf'
      cases hf'
    | some f => exact h.alone q f hf
  · rw [hChunks, hBlocks]
    exact h.apart
  · rw [hChunks, hBlocks]
    exact h.data
  · rw [hChunks]
    exact h.own

theorem Holding.refill {c' : FileChunk} (hc : m.chunks p = some c) (hData : c'.data = c.data)
    (hFiles : m'.files = m.files) (hChunks : m'.chunks = Function.update m.chunks p (some c'))
    (hBlocks : m'.blocks = m.blocks) : Holding m' := by
  -- every chunk was there before, with the same data
  have hOld : ∀ q k, m'.chunks q = some k → ∃ k₀, m.chunks q = some k₀ ∧ k.data = k₀.data := by
    intro q k hk
    rw [hChunks] at hk
    by_cases hq : q = p
    · subst hq
      rw [Function.update_self, Option.some.injEq] at hk
      exact ⟨c, hc, hk ▸ hData⟩
    · rw [Function.update_of_ne hq] at hk
      exact ⟨k, hk, rfl⟩
  refine ⟨fun q f hf => ?_, fun q k hk => ?_, fun q k hk => ?_, fun q r k k' hk hk' hEq => ?_⟩
  · rw [hFiles] at hf
    have hne : q ≠ p := by
      rintro rfl
      rw [(h.alone q f hf).1] at hc
      cases hc
    rw [hChunks, hBlocks, Function.update_of_ne hne]
    exact h.alone q f hf
  · obtain ⟨k₀, hk₀, _⟩ := hOld q k hk
    rw [hBlocks]
    exact h.apart q k₀ hk₀
  · obtain ⟨k₀, hk₀, hSame⟩ := hOld q k hk
    rw [hBlocks, hSame]
    exact h.data q k₀ hk₀
  · obtain ⟨k₀, hk₀, hSame⟩ := hOld q k hk
    obtain ⟨k₁, hk₁, hSame'⟩ := hOld r k' hk'
    exact h.own q r k₀ k₁ hk₀ hk₁ (hSame.symm.trans (hEq.trans hSame'))

theorem Holding.fill {b' : Block} (hb : m.blocks p = some b) (hFiles : m'.files = m.files)
    (hChunks : m'.chunks = m.chunks) (hBlocks : m'.blocks = Function.update m.blocks p (some b')) :
    Holding m' := by
  have hNone : ∀ q, m.blocks q = none → m'.blocks q = none := by
    intro q hq
    have hne : q ≠ p := by
      rintro rfl
      rw [hq] at hb
      cases hb
    rw [hBlocks, Function.update_of_ne hne, hq]
  refine ⟨fun q f hf => ?_, fun q k hk => ?_, fun q k hk => ?_, ?_⟩
  · rw [hFiles] at hf
    rw [hChunks]
    exact ⟨(h.alone q f hf).1, hNone q (h.alone q f hf).2⟩
  · rw [hChunks] at hk
    exact hNone q (h.apart q k hk)
  · rw [hChunks] at hk
    obtain ⟨b₀, hb₀⟩ := h.data q k hk
    rw [hBlocks]
    by_cases hq : k.data = p
    · exact ⟨b', by rw [hq, Function.update_self]⟩
    · exact ⟨b₀, by rw [Function.update_of_ne hq, hb₀]⟩
  · rw [hChunks]
    exact h.own

theorem Holding.supply {n : Ptr} {k : FileChunk} (hFresh : Fresh m n k)
    (hFiles : m'.files = m.files) (hChunks : m'.chunks = Function.update m.chunks n (some k))
    (hBlocks : m'.blocks = Function.update m.blocks k.data (some b)) : Holding m' := by
  have hOther : ∀ q k₀, m.chunks q = some k₀ → k₀.data ≠ k.data := by
    intro q k₀ hk₀ hEq
    obtain ⟨b₀, hb₀⟩ := h.data q k₀ hk₀
    exact hFresh.data.ne_block hb₀ hEq.symm
  refine ⟨fun q f hf => ?_, fun q c hc => ?_, fun q c hc => ?_, fun q r c c' hc hc' hEq => ?_⟩
  · rw [hFiles] at hf
    rw [hChunks, hBlocks, Function.update_of_ne (hFresh.ptr.ne_file hf).symm,
      Function.update_of_ne (hFresh.data.ne_file hf).symm]
    exact h.alone q f hf
  · rw [hChunks] at hc
    rw [hBlocks]
    by_cases hq : q = n
    · rw [hq, Function.update_of_ne hFresh.ne]
      exact hFresh.ptr.2.2.2
    · rw [Function.update_of_ne hq] at hc
      rw [Function.update_of_ne (hFresh.data.ne_chunk hc).symm]
      exact h.apart q c hc
  · rw [hChunks] at hc
    rw [hBlocks]
    by_cases hq : q = n
    · rw [hq, Function.update_self, Option.some.injEq] at hc
      exact ⟨b, by rw [← hc, Function.update_self]⟩
    · rw [Function.update_of_ne hq] at hc
      rw [Function.update_of_ne (hOther q c hc)]
      exact h.data q c hc
  · rw [hChunks] at hc hc'
    by_cases hq : q = n
    · by_cases hr : r = n
      · exact hq.trans hr.symm
      · rw [hq, Function.update_self, Option.some.injEq] at hc
        rw [Function.update_of_ne hr] at hc'
        exact absurd (hEq.symm.trans (congrArg _ hc.symm)) (hOther r c' hc')
    · rw [Function.update_of_ne hq] at hc
      by_cases hr : r = n
      · rw [hr, Function.update_self, Option.some.injEq] at hc'
        exact absurd (hEq.trans (congrArg _ hc'.symm)) (hOther q c hc)
      · rw [Function.update_of_ne hr] at hc'
        exact h.own q r c c' hc hc' hEq

theorem Holding.drop_chunk (hc : m.chunks p = some c) :
    ((m.drop c.data).drop p).files = m.files ∧
      ((m.drop c.data).drop p).chunks = Function.update m.chunks p none ∧
      ((m.drop c.data).drop p).blocks = Function.update m.blocks c.data none := by
  have hFiles : Function.update m.files c.data none = m.files :=
    Function.update_eq_self_iff.mpr (h.files_data hc).symm
  have hChunks : Function.update m.chunks c.data none = m.chunks :=
    Function.update_eq_self_iff.mpr (h.chunks_data hc).symm
  have hne : p ≠ c.data := by
    intro hEq
    have hNone := h.chunks_data hc
    rw [← hEq, hc] at hNone
    cases hNone
  refine ⟨?_, ?_, ?_⟩
  · rw [drop_files, drop_files, hFiles]
    exact Function.update_eq_self_iff.mpr (h.files_chunk hc).symm
  · rw [drop_chunks, drop_chunks, hChunks]
  · rw [drop_blocks, drop_blocks]
    refine Function.update_eq_self_iff.mpr ?_
    rw [Function.update_of_ne hne, h.apart p c hc]

end

theorem Rework.relinks (h : Rework sized m m') (hHolding : Holding m) : Relinks m m' := by
  cases h with
  | rest hFiles _ _ => exact .of_eq hFiles
  | chunk _ _ _ hFiles _ _ => exact .of_eq hFiles
  | block _ _ hFiles _ _ => exact .of_eq hFiles
  | append _ _ _ hFiles _ _ => exact .of_eq hFiles
  | @first p n f k b hf hType hLink hFresh _ hFiles _ _ =>
    intro q
    rw [hFiles]
    by_cases hq : q = p
    · subst hq
      exact Or.inr ⟨f, n, hf, Function.update_self _ _ _, fun hne => absurd hType hne⟩
    · rw [Function.update_of_ne hq]
      exact (Relinks.of_eq rfl) q
  | release hc hFiles _ _ =>
    exact .of_eq (hFiles.trans (hHolding.drop_chunk hc).1)

theorem Holding.release (h : Holding m) (hc : m.chunks p = some c) (hFiles : m'.files = m.files)
    (hChunks : m'.chunks = Function.update m.chunks p none)
    (hBlocks : m'.blocks = Function.update m.blocks c.data none) : Holding m' := by
  have hOld : ∀ q k, m'.chunks q = some k → q ≠ p ∧ m.chunks q = some k := by
    intro q k hk
    rw [hChunks] at hk
    by_cases hq : q = p
    · rw [hq, Function.update_self] at hk
      cases hk
    · rw [Function.update_of_ne hq] at hk
      exact ⟨hq, hk⟩
  have hNone : ∀ q, m.blocks q = none → m'.blocks q = none := by
    intro q hq
    rw [hBlocks]
    by_cases hEq : q = c.data
    · rw [hEq, Function.update_self]
    · rw [Function.update_of_ne hEq, hq]
  refine ⟨fun q f hf => ?_, fun q k hk => ?_, fun q k hk => ?_, fun q r k k' hk hk' hEq => ?_⟩
  · rw [hFiles] at hf
    obtain ⟨hChunk, hBlock⟩ := h.alone q f hf
    refine ⟨?_, hNone q hBlock⟩
    cases hk : m'.chunks q with
    | none => rfl
    | some k =>
      rw [(hOld q k hk).2] at hChunk
      cases hChunk
  · exact hNone q (h.apart q k (hOld q k hk).2)
  · obtain ⟨hne, hk₀⟩ := hOld q k hk
    rw [hBlocks, Function.update_of_ne fun hEq => hne (h.own q p k c hk₀ hc hEq)]
    exact h.data q k hk₀
  · exact h.own q r k k' (hOld q k hk).2 (hOld r k' hk').2 hEq

theorem Rework.holding (h : Rework sized m m') (hHolding : Holding m) : Holding m' := by
  cases h with
  | rest hFiles hChunks hBlocks =>
    exact hHolding.congr (fun q hq => by rw [hFiles, hq]) hChunks hBlocks
  | chunk hc hData _ hFiles hChunks hBlocks =>
    exact hHolding.refill hc hData.1 hFiles hChunks hBlocks
  | block hb _ hFiles hChunks hBlocks => exact hHolding.fill hb hFiles hChunks hBlocks
  | @append p n c k b hc hFresh _ hFiles hChunks hBlocks =>
    have hSupplied : Holding ((m.setChunk n k).setBlock k.data b) :=
      hHolding.supply hFresh rfl rfl rfl
    have hc' : ((m.setChunk n k).setBlock k.data b).chunks p = some c :=
      (Function.update_of_ne (hFresh.ptr.ne_chunk hc).symm _ _).trans hc
    have hData : ({ c with next := n } : FileChunk).data = c.data := rfl
    exact hSupplied.refill hc' hData hFiles hChunks hBlocks
  | @first p n f k b hf _ _ hFresh _ hFiles hChunks hBlocks =>
    have hSupplied : Holding ((m.setChunk n k).setBlock k.data b) :=
      hHolding.supply hFresh rfl rfl rfl
    refine hSupplied.congr (fun q hq => ?_) hChunks hBlocks
    have hq' : m.files q = none := hq
    have hne : q ≠ p := by
      rintro rfl
      rw [hq'] at hf
      cases hf
    rw [hFiles, Function.update_of_ne hne, hq']
  | release hc hFiles hChunks hBlocks =>
    obtain ⟨hFiles', hChunks', hBlocks'⟩ := hHolding.drop_chunk hc
    exact hHolding.release hc (hFiles.trans hFiles') (hChunks.trans hChunks')
      (hBlocks.trans hBlocks')

theorem Reworks.holding (h : Reworks sized s s') (hHolding : Holding s.memory) :
    Holding s'.memory ∧ Relinks s.memory s'.memory := by
  have hAll : ∀ m, ReflTransGen (Rework sized) s.memory m → Holding m ∧ Relinks s.memory m := by
    intro m hm
    induction hm with
    | refl => exact ⟨hHolding, .of_eq rfl⟩
    | tail _ hStep ih => exact ⟨hStep.holding ih.1, ih.2.trans (hStep.relinks ih.1)⟩
  exact hAll _ h.1

end Steps

end Dandelion.FileSystem
