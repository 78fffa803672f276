import Dandelion.FileSystem.Holding

/-! # Releasing chunk lists

`free_file_chunks` completes exactly on a list of live chunks whose data all come
from `dandelion_alloc`, and then it has released these chunks and nothing else.
-/

namespace Dandelion.FileSystem

open Foundation.Chains Foundation.Triples

/-- A chunk list that ends, with data that may be given back. -/
def Owned (m : Memory) (first : Ptr) : Prop :=
  ∃ cs, Chain (nextChunk m) first cs ∧ ∀ p ∈ cs, ∀ c, m.chunks p = some c → m.allocated c.data

structure Frees (s s' : State) (cs : List Ptr) : Prop where
  files : s'.memory.files = s.memory.files
  openFiles : s'.openFiles = s.openFiles
  gone : ∀ q ∈ cs, s'.memory.chunks q = none
  kept : ∀ q, q ∉ cs → s'.memory.chunks q = s.memory.chunks q
  data : ∀ q ∈ cs, ∀ c, s.memory.chunks q = some c → s'.memory.blocks c.data = none
  blocks : ∀ q, (∀ p ∈ cs, ∀ c, s.memory.chunks p = some c → c.data ≠ q) →
    s'.memory.blocks q = s.memory.blocks q
  holding : Holding s'.memory

variable {s s' : State} {m : Memory} {p q : Ptr} {c : FileChunk} {cs : List Ptr}

theorem Holding.allocated_data (h : Holding m) (hc : m.chunks p = some c) :
    m.allocated c.data = ((m.blocks c.data).any fun b => !b.foreign) := by
  rw [Memory.allocated, h.files_data hc, h.chunks_data hc]
  rfl

theorem nextChunk_of (hc : m.chunks p = some c) : nextChunk m p = some c.next := by
  rw [nextChunk, hc, Option.map_some]

theorem chunk_lt_limit (hc : m.chunks p = some c) : p < m.limit := by
  by_contra hLe
  rw [(m.bounded p (Nat.not_lt.mp hLe)).2.1] at hc
  cases hc

theorem Chain.chunk_live (h : Chain (nextChunk m) p cs) (hq : q ∈ cs) :
    ∃ c, m.chunks q = some c := by
  obtain ⟨r, hr⟩ := Segment.defined h hq
  obtain ⟨c, hc, _⟩ := Option.map_eq_some_iff.mp hr
  exact ⟨c, hc⟩

theorem Owned.congr {m' : Memory} (h : Owned m p) (hHolding : Holding m) (hHolding' : Holding m')
    (hChunks : m'.chunks = m.chunks) (hBlocks : m'.blocks = m.blocks) : Owned m' p := by
  obtain ⟨cs, hChain, hOwn⟩ := h
  refine ⟨cs, Segment.congr hChain fun q _ => by rw [nextChunk, nextChunk, hChunks],
    fun q hq c hc => ?_⟩
  have hc₀ : m.chunks q = some c := by rw [← hChunks, hc]
  rw [hHolding'.allocated_data hc, hBlocks, ← hHolding.allocated_data hc₀]
  exact hOwn q hq c hc₀

section Release

theorem release_ok (h : Holding s.memory) (hc : s.memory.chunks p = some c)
    (hOwn : s.memory.allocated c.data) :
    ∃ s₁ s', dandelionFree c.data s = .ok ((), s₁) ∧ dandelionFree p s₁ = .ok ((), s') ∧
      s'.openFiles = s.openFiles ∧
      s'.memory.files = s.memory.files ∧ s'.memory.chunks = Function.update s.memory.chunks p none ∧
      s'.memory.blocks = Function.update s.memory.blocks c.data none ∧ Holding s'.memory := by
  obtain ⟨hFiles, hChunks, hBlocks⟩ := h.drop_chunk hc
  have hne : p ≠ c.data := by
    intro hEq
    have hNone := h.chunks_data hc
    rw [← hEq, hc] at hNone
    cases hNone
  have hChunk : (s.memory.drop c.data).allocated p = true := by
    rw [Memory.allocated, drop_chunks, Function.update_of_ne hne, hc]
    simp
  exact ⟨_, _, if_pos hOwn, if_pos hChunk, rfl, hFiles, hChunks, hBlocks,
    h.release hc hFiles hChunks hBlocks⟩

theorem Chain.released (h : Chain (nextChunk m) q cs) {m' : Memory} (hp : p ∉ cs)
    (hChunks : m'.chunks = Function.update m.chunks p none) : Chain (nextChunk m') q cs := by
  refine Segment.congr h fun r hr => ?_
  have hne : r ≠ p := fun hEq => hp (hEq ▸ hr)
  rw [nextChunk, nextChunk, hChunks, Function.update_of_ne hne]

theorem freeChunksFrom_ok {fuel : Nat} (h : Holding s.memory)
    (hChain : Chain (nextChunk s.memory) p cs)
    (hOwn : ∀ q ∈ cs, ∀ c, s.memory.chunks q = some c → s.memory.allocated c.data)
    (hFuel : cs.length < fuel) :
    ∃ s', freeChunksFrom fuel p s = .ok ((), s') ∧ Frees s s' cs := by
  induction cs generalizing fuel p s with
  | nil =>
    obtain ⟨fuel, rfl⟩ := Nat.exists_eq_add_one_of_ne_zero (Nat.ne_of_gt hFuel)
    obtain rfl : p = 0 := hChain
    exact ⟨s, by rw [freeChunksFrom, if_pos rfl]; rfl, rfl, rfl,
      fun _ h => absurd h List.not_mem_nil, fun _ _ => rfl, fun _ h => absurd h List.not_mem_nil,
      fun _ _ => rfl, h⟩
  | cons q cs ih =>
    obtain ⟨fuel, rfl⟩ := Nat.exists_eq_add_one.mpr (Nat.zero_lt_of_lt hFuel)
    have hNotIn : q ∉ cs := (List.nodup_cons.mp hChain.nodup).1
    obtain ⟨rfl, hp, r, hNext, hRest⟩ := hChain
    obtain ⟨c, hc, rfl⟩ := Option.map_eq_some_iff.mp hNext
    obtain ⟨s₁, s₂, hFirst, hSecond, hTable, hFiles, hChunks, hBlocks, hHolding⟩ :=
      release_ok h hc (hOwn _ List.mem_cons_self c hc)
    have hOld : ∀ {q k}, q ∈ cs → s.memory.chunks q = some k → s₂.memory.chunks q = some k ∧
        k.data ≠ c.data := by
      intro r k hr hk
      have hne : r ≠ p := fun hEq => hNotIn (hEq ▸ hr)
      exact ⟨by rw [hChunks, Function.update_of_ne hne, hk],
        fun hEq => hne (h.own r p k c hk hc hEq)⟩
    have hOwn₂ : ∀ r ∈ cs, ∀ k, s₂.memory.chunks r = some k → s₂.memory.allocated k.data := by
      intro r hr k hk
      have hne : r ≠ p := fun hEq => hNotIn (hEq ▸ hr)
      have hk₀ : s.memory.chunks r = some k := by rwa [hChunks, Function.update_of_ne hne] at hk
      rw [hHolding.allocated_data hk, hBlocks,
        Function.update_of_ne (hOld hr hk₀).2, ← h.allocated_data hk₀]
      exact hOwn r (List.mem_cons_of_mem _ hr) k hk₀
    obtain ⟨s', hRun, hFrees⟩ :=
      ih hHolding (Chain.released hRest hNotIn hChunks) hOwn₂ (Nat.lt_of_succ_lt_succ hFuel)
    refine ⟨s', ?_, hFrees.files.trans hFiles, hFrees.openFiles.trans hTable, fun q hq => ?_,
      fun q hq => ?_, fun q hq k hk => ?_, fun q hq => ?_, hFrees.holding⟩
    · rw [freeChunksFrom, if_neg hp, bind_ok (getChunkAt_ok hp hc), bind_ok hFirst,
        bind_ok hSecond, hRun]
    · rcases List.mem_cons.mp hq with rfl | hq
      · rw [hFrees.kept _ hNotIn, hChunks, Function.update_self]
      · exact hFrees.gone q hq
    · rw [List.mem_cons, not_or] at hq
      rw [hFrees.kept q hq.2, hChunks, Function.update_of_ne hq.1]
    · rcases List.mem_cons.mp hq with rfl | hq
      · obtain rfl := Option.mem_unique hc hk
        rw [hFrees.blocks, hBlocks, Function.update_self]
        intro r hr k' hk' hEq
        have hne : r ≠ q := fun hEq => hNotIn (hEq ▸ hr)
        rw [hChunks, Function.update_of_ne hne] at hk'
        exact (hOld hr hk').2 hEq
      · exact hFrees.data q hq k (hOld hq hk).1
    · rw [hFrees.blocks, hBlocks, Function.update_of_ne (hq p List.mem_cons_self c hc).symm]
      intro r hr k hk
      have hne : r ≠ p := fun hEq => hNotIn (hEq ▸ hr)
      rw [hChunks, Function.update_of_ne hne] at hk
      exact hq r (List.mem_cons_of_mem _ hr) k hk

theorem freeFileChunks_ok (h : Holding s.memory) (hChain : Chain (nextChunk s.memory) p cs)
    (hOwn : ∀ q ∈ cs, ∀ c, s.memory.chunks q = some c → s.memory.allocated c.data) :
    ∃ s', freeFileChunks p s = .ok ((), s') ∧ Frees s s' cs := by
  rw [freeFileChunks, bind_ok steps_ok]
  refine freeChunksFrom_ok h hChain hOwn (Nat.lt_succ_of_le (hChain.length_le fun q hq => ?_))
  obtain ⟨c, hc⟩ := Chain.chunk_live hChain hq
  exact chunk_lt_limit hc

theorem owned_of_freeChunksFrom {fuel : Nat} (h : Holding s.memory) :
    Ensures (freeChunksFrom fuel p) s fun _ _ => Owned s.memory p := by
  induction fuel generalizing p s with
  | zero => exact .of_error rfl trivial
  | succ fuel ih =>
    rw [freeChunksFrom]
    refine .ite (fun hp => .pure ⟨[], hp, fun _ h => absurd h List.not_mem_nil⟩) fun hp => ?_
    refine ensures_chunk fun c _ hc => ?_
    by_cases hOwn : s.memory.allocated c.data = true
    · obtain ⟨s₂, s₃, hFirst, hSecond, _, _, hChunks, hBlocks, hHolding⟩ := release_ok h hc hOwn
      refine .after hFirst (.after hSecond ((ih hHolding).imp fun _ _ hOwned => ?_))
      obtain ⟨cs, hChain, hAll⟩ := hOwned
      -- what is left of the list does not come back to the released chunk
      have hLive : ∀ q ∈ cs, q ≠ p := by
        rintro q hq rfl
        obtain ⟨k, hk⟩ := Chain.chunk_live hChain hq
        rw [hChunks, Function.update_self] at hk
        cases hk
      refine ⟨p :: cs, ⟨rfl, hp, c.next, nextChunk_of hc, Segment.congr hChain fun q hq => ?_⟩,
        fun q hq k hk => ?_⟩
      · rw [nextChunk, nextChunk, hChunks, Function.update_of_ne (hLive q hq)]
      · rcases List.mem_cons.mp hq with rfl | hq
        · obtain rfl := Option.mem_unique hc hk
          exact hOwn
        · have hk' : s₃.memory.chunks q = some k := by
            rw [hChunks, Function.update_of_ne (hLive q hq), hk]
          have hne : k.data ≠ c.data := fun hEq => hLive q hq (h.own q p k c hk hc hEq)
          have hAllocated := hAll q hq k hk'
          rwa [hHolding.allocated_data hk', hBlocks,
            Function.update_of_ne hne, ← h.allocated_data hk] at hAllocated
    · exact .after_error (if_neg hOwn) trivial

theorem owned_of_freeFileChunks (h : Holding s.memory) :
    Ensures (freeFileChunks p) s fun _ _ => Owned s.memory p := by
  rw [freeFileChunks]
  exact .after steps_ok (owned_of_freeChunksFrom h)

end Release

end Dandelion.FileSystem
