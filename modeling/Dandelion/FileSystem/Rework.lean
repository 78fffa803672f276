import Mathlib.Logic.Relation
import Dandelion.FileSystem.Creation

/-! # What the calls on content can do

Reading, writing, seeking and truncating change memory in a few ways only: a
chunk or a block is filled, a new chunk is hung behind another one or becomes
the first of an empty file, or a chunk is released with its data. An invariant
that each of these keeps is kept by the calls, whatever their arguments are and
wherever the descriptors point.
-/

namespace Dandelion.FileSystem

open Relation

structure Fresh (m : Memory) (n : Ptr) (k : FileChunk) : Prop where
  ptr : m.Vacant n
  data : m.Vacant k.data
  ne : n ≠ k.data
  last : k.next = 0

structure Provides (s s' : State) (n : Ptr) (k : FileChunk) (b : Block) : Prop where
  fresh : Fresh s.memory n k
  files : s'.memory.files = s.memory.files
  chunks : s'.memory.chunks = Function.update s.memory.chunks n (some k)
  blocks : s'.memory.blocks = Function.update s.memory.blocks k.data (some b)
  openFiles : s'.openFiles = s.openFiles

/-- The chunk uses no more than its capacity, and its block is as large as that. -/
def FileChunk.FitsIn (k : FileChunk) (b : Block) : Prop := k.used ≤ k.capacity ∧ k.capacity ≤ b.size

/-- One change of the content of files. If `sized` holds, chunks go on to fit into their blocks. -/
inductive Rework (sized : Prop) (m m' : Memory) : Prop
  | rest : m'.files = m.files → m'.chunks = m.chunks → m'.blocks = m.blocks → Rework sized m m'
  | chunk {p : Ptr} {c c' : FileChunk} : m.chunks p = some c → c'.data = c.data ∧
      c'.capacity = c.capacity →
      (sized → c.used ≤ c.capacity → c'.used ≤ c.capacity) → m'.files = m.files →
      m'.chunks = Function.update m.chunks p (some c') → m'.blocks = m.blocks → Rework sized m m'
  | block {p : Ptr} {b b' : Block} : m.blocks p = some b → b'.size = b.size → m'.files = m.files →
      m'.chunks = m.chunks → m'.blocks = Function.update m.blocks p (some b') → Rework sized m m'
  | append {p n : Ptr} {c k : FileChunk} {b : Block} : m.chunks p = some c → Fresh m n k →
      (sized → k.FitsIn b) → m'.files = m.files →
      m'.chunks = Function.update (Function.update m.chunks n (some k)) p
        (some { c with next := n }) →
      m'.blocks = Function.update m.blocks k.data (some b) → Rework sized m m'
  | first {p n : Ptr} {f : DFile} {k : FileChunk} {b : Block} : m.files p = some f →
      f.type = .file →
      f.link = 0 → Fresh m n k → (sized → k.FitsIn b) →
      m'.files = Function.update m.files p (some { f with link := n }) →
      m'.chunks = Function.update m.chunks n (some k) →
      m'.blocks = Function.update m.blocks k.data (some b) → Rework sized m m'
  | release {p : Ptr} {c : FileChunk} : m.chunks p = some c →
      m'.files = ((m.drop c.data).drop p).files → m'.chunks = ((m.drop c.data).drop p).chunks →
      m'.blocks = ((m.drop c.data).drop p).blocks → Rework sized m m'

def OpenFile.refers (o : OpenFile) : Ptr × Nat := (o.file, o.openFlags)

/-- An entry without a chunk stands at the start of its file. -/
def OpenFile.Anchored (o : OpenFile) : Prop := o.currentChunk = 0 → o.offset = 0

/-- The entry refers to the same node, at whichever place. -/
structure OpenFile.Moves (o o' : OpenFile) : Prop where
  refers : o'.refers = o.refers
  anchored : o.Anchored → o'.Anchored

/-- Changes one after the other; descriptors only move in their files. -/
def Reworks (sized : Prop) (s s' : State) : Prop :=
  ReflTransGen (Rework sized) s.memory s'.memory ∧ ∀ i, (s.openFiles i).Moves (s'.openFiles i)

def Reworking {α : Type} (sized : Prop) (x : M α) : Prop :=
  ∀ s, Ensures x s fun _ s' => Reworks sized s s'

variable {P : Platform} {s s' s'' : State} {sized : Prop} {o o' o'' : OpenFile} {p : Ptr}
  {α β : Type}

section Relation

theorem OpenFile.Moves.of_eq (h : o' = o) : o.Moves o' := h ▸ ⟨rfl, fun h => h⟩

theorem OpenFile.Moves.trans (h : o.Moves o') (h' : o'.Moves o'') : o.Moves o'' :=
  ⟨h'.refers.trans h.refers, fun hAnchored => h'.anchored (h.anchored hAnchored)⟩

theorem Reworks.refl (s : State) : Reworks sized s s := ⟨.refl, fun _ => .of_eq rfl⟩

theorem Reworks.trans (h : Reworks sized s s') (h' : Reworks sized s' s'') : Reworks sized s s'' :=
  ⟨h.1.trans h'.1, fun i => (h.2 i).trans (h'.2 i)⟩

theorem Rework.reworks (h : Rework sized s.memory s'.memory) (hTable : s'.openFiles = s.openFiles) :
    Reworks sized s s' :=
  ⟨.single h, fun i => .of_eq (by rw [hTable])⟩

theorem Same.reworks (h : Same s s') : Reworks sized s s' :=
  (Rework.rest h.files h.chunks h.blocks).reworks h.openFiles

theorem Reworks.then {x : M α} (h : Reworks sized s s')
    (hx : Ensures x s' fun _ t => Reworks sized s' t) :
    Ensures x s' fun _ t => Reworks sized s t := hx.imp fun _ _ h' => h.trans h'

theorem reworks_bind {x : M α} {k : α → M β} (hx : Ensures x s' fun _ s'' => Reworks sized s s'')
    (hk : ∀ a s'', Reworks sized s s'' → Ensures (k a) s'' fun _ t => Reworks sized s'' t) :
    Ensures (x >>= k) s' fun _ t => Reworks sized s t := by
  exact hx.bind fun a s₁ h₁ => h₁.then (hk a s₁ h₁)

theorem ReadsOnly.reworking {x : M α} (h : ReadsOnly x) : Reworking sized x := fun s =>
  (h s).imp fun _ s' hs' => by rw [hs']; exact .refl s

theorem Reworking.pure (a : α) : Reworking sized (pure a : M α) := (ReadsOnly.pure a).reworking

theorem Reworking.bind {x : M α} {k : α → M β} (hx : Reworking sized x)
    (hk : ∀ a, Reworking sized (k a)) :
    Reworking sized (x >>= k) := fun s => reworks_bind (hx s) fun a s' _ => hk a s'

theorem Reworking.ite {c : Prop} [Decidable c] {x y : M α} (hx : Reworking sized x)
    (hy : Reworking sized y) :
    Reworking sized (if c then x else y) := by
  split
  · exact hx
  · exact hy

end Relation

section Primitives

theorem readsOnly_getChunkAt (p : Ptr) : ReadsOnly (getChunkAt p) := readsOnly_readAt _ p

theorem readsOnly_getBlockAt (p : Ptr) : ReadsOnly (getBlockAt p) := readsOnly_readAt _ p

theorem ensures_getChunkAt (p : Ptr) :
    Ensures (getChunkAt p) s fun c s' => s' = s ∧ p ≠ 0 ∧ s.memory.chunks p = some c :=
  ensures_readAt _ p

theorem ensures_chunk {α : Type} {k : FileChunk → M α} {post : α → State → Prop}
    (hk : ∀ c, p ≠ 0 → s.memory.chunks p = some c → Ensures (k c) s post) :
    Ensures (getChunkAt p >>= k) s post := by
  refine (ensures_getChunkAt p).bind fun c s' h => ?_
  obtain ⟨rfl, hp, hc⟩ := h
  exact hk c hp hc

theorem getChunkAt_cases (p : Ptr) :
    (∃ e, getChunkAt p s = .error e) ∨ ∃ c, p ≠ 0 ∧ s.memory.chunks p = some c := by
  cases hRead : getChunkAt p s with
  | error e => exact Or.inl ⟨e, rfl⟩
  | ok r =>
    obtain ⟨_, hp, hc⟩ :=
      (ensures_getChunkAt p).result (show getChunkAt p s = .ok (r.1, r.2) from hRead)
    exact Or.inr ⟨r.1, hp, hc⟩

theorem readsOnly_loadBytes (p : Ptr) (offset count : Nat) : ReadsOnly (loadBytes p offset count) :=
  .ite (.pure _) ((readsOnly_getBlockAt p).bind fun _ => .ite (.pure _) (.fail _))

theorem readsOnly_getOpenFile (fd : Int) : ReadsOnly (getOpenFile fd) := by
  intro s
  by_cases hRange : 0 ≤ fd ∧ fd < fsMaxFiles
  · exact .of_ok (getOpenFile_ok hRange) rfl
  · exact .of_error (if_neg hRange) trivial

theorem ensures_getOpenFile (fd : Int) :
    Ensures (getOpenFile fd) s fun o s' => s' = s ∧ (0 ≤ fd ∧ fd < fsMaxFiles) ∧
      o = s.openFiles fd.toNat := by
  by_cases hRange : 0 ≤ fd ∧ fd < fsMaxFiles
  · exact .of_ok (getOpenFile_ok hRange) ⟨rfl, hRange, rfl⟩
  · exact .of_error (if_neg hRange) trivial

theorem ensures_open {α : Type} {fd : Int} {k : OpenFile → M α} {post : α → State → Prop}
    (hk : 0 ≤ fd ∧ fd < fsMaxFiles → Ensures (k (s.openFiles fd.toNat)) s post) :
    Ensures (getOpenFile fd >>= k) s post := by
  refine (ensures_getOpenFile fd).bind fun o s' h => ?_
  obtain ⟨rfl, hRange, rfl⟩ := h
  exact hk hRange

theorem ensures_modifyChunk (p : Ptr) (g : FileChunk → FileChunk) :
    Ensures (modifyChunk p g) s fun _ s' => ∃ c, s.memory.chunks p = some c ∧
      s' = { s with memory := s.memory.setChunk p (g c) } := by
  rw [modifyChunk]
  refine ensures_chunk fun c _ hc => ?_
  exact ⟨c, hc, rfl⟩

theorem reworks_used (p : Ptr) {k : FileChunk → Nat}
    (h : sized → ∀ c, s.memory.chunks p = some c → c.used ≤ c.capacity → k c ≤ c.capacity) :
    Ensures (modifyChunk p fun c => { c with used := k c }) s fun _ s' => Reworks sized s s' := by
  refine (ensures_modifyChunk p _).imp fun _ s' hs' => ?_
  obtain ⟨c, hc, rfl⟩ := hs'
  refine Rework.reworks (.chunk hc ?_ ?_ rfl rfl rfl) rfl
  · exact ⟨rfl, rfl⟩
  · exact fun hSized => h hSized c hc

theorem reworking_storeBytes (p offset : Nat) (bytes : List UInt8) :
    Reworking sized (storeBytes p offset bytes) := by
  refine .ite (.pure _) fun s => ?_
  refine (ensures_readAt Memory.blocks p).bind fun b s₁ h => ?_
  obtain ⟨rfl, _, hb⟩ := h
  refine .ite (fun _ => ?_) fun _ => trivial
  have hSize : (b.write offset bytes).size = b.size := rfl
  exact Rework.reworks (.block hb hSize rfl rfl rfl) rfl

theorem reworks_setOpenFile {fd : Int} (h : (s.openFiles fd.toNat).Moves o) :
    Ensures (setOpenFile fd o) s fun _ s' => Reworks sized s s' := by
  by_cases hRange : 0 ≤ fd ∧ fd < fsMaxFiles
  · refine .of_ok (setOpenFile_ok hRange o) ⟨.refl, fun i => ?_⟩
    change (s.openFiles i).Moves (Function.update s.openFiles fd.toNat o i)
    by_cases hi : i = fd.toNat
    · rwa [hi, Function.update_self]
    · exact .of_eq (Function.update_of_ne hi _ _)
  · exact .of_error (if_neg hRange) trivial

theorem ensures_allocateFileChunk (size : Nat) :
    Ensures (allocateFileChunk P size) s fun r s' => r = 0 ∧ Same s s' ∨
      r ≠ 0 ∧ ∃ data fill, Provides s s' r ⟨data, chunkSize size, 0, 0⟩ ⟨chunkSize size, fill,
        false⟩ := by
  rw [allocateFileChunk]
  cases hg : P.answer s.memory s.requests (chunkSize size) 16 with
  | none =>
    have hBuffer : allocBlock P (chunkSize size) 16 s =
        .ok (0, { s with requests := s.requests + 1 }) := by
      simp only [allocBlock, dandelionAlloc, hg]
    refine .after hBuffer (.ite (fun _ => .pure ?_) fun h => absurd rfl h)
    exact Or.inl ⟨rfl, rfl, rfl, rfl, rfl⟩
  | some g =>
    have hData := P.vacant _ _ _ _ _ hg
    set s₁ : State := { s with
      memory := s.memory.setBlock g.ptr ⟨chunkSize size, g.bytes, false⟩,
      requests := s.requests + 1 } with hs₁
    have hBuffer : allocBlock P (chunkSize size) 16 s = .ok (g.ptr, s₁) := by
      rw [allocBlock, dandelionAlloc_ok hg, chunkSize_words]
    refine .after hBuffer (.ite (fun h => absurd h hData.ne_zero) fun _ => ?_)
    cases hk : P.answer s₁.memory s₁.requests sizeofChunk 8 with
    | none =>
      -- the buffer is given back
      have hAlloc : allocChunk P s₁ = .ok (0, { s₁ with requests := s₁.requests + 1 }) := by
        simp only [allocChunk, dandelionAlloc, hk]
      have hAllocated : s₁.memory.allocated g.ptr = true := by
        simp [Memory.allocated, hs₁]
      refine .after hAlloc
        (.ite (fun _ => .after (if_pos hAllocated) (.pure (Or.inl ⟨rfl, ?_, ?_, ?_, rfl⟩)))
        fun h => absurd rfl h)
      · exact Function.update_eq_self_iff.mpr hData.2.1.symm
      · exact Function.update_eq_self_iff.mpr hData.2.2.1.symm
      · change Function.update (Function.update s.memory.blocks g.ptr _) g.ptr none = _
        rw [Function.update_idem, Function.update_eq_self_iff]
        exact hData.2.2.2.symm
    | some k =>
      have hVacant := P.vacant _ _ _ _ _ hk
      have hne : k.ptr ≠ g.ptr := hVacant.ne_block (Function.update_self _ _ _)
      have hAlloc : allocChunk P s₁ = .ok (k.ptr, { s₁ with
          memory := s₁.memory.setChunk k.ptr ⟨wordAt k.bytes 0 8, wordAt k.bytes 8 8,
            wordAt k.bytes 16 8, wordAt k.bytes 24 8⟩, requests := s₁.requests + 1 }) := by
        rw [allocChunk, dandelionAlloc_ok hk]
      refine .after hAlloc (.ite (fun h => absurd h hVacant.ne_zero) fun _ => ?_)
      refine .after (modifyChunk_ok hVacant.ne_zero (Function.update_self _ _ _))
        (.pure (Or.inr ⟨hVacant.ne_zero, g.ptr, g.bytes, ?_⟩))
      obtain ⟨hLow, hFile, hChunk, hBlock⟩ := hVacant
      rw [hs₁, setBlock_blocks, Function.update_of_ne hne] at hBlock
      refine ⟨⟨⟨hLow, hFile, hChunk, hBlock⟩, hData, hne, rfl⟩, rfl, ?_, rfl, rfl⟩
      simp only [setChunk_chunks, hs₁, setBlock_chunks, Function.update_idem]

theorem Provides.resize {n : Ptr} {k : FileChunk} {b : Block} (h : Provides s s' n k b)
    (used : Nat) :
    Ensures (modifyChunk n fun c => { c with used := used }) s' fun _ s'' =>
      Provides s s'' n { k with used := used } b := by
  refine (ensures_modifyChunk n _).imp fun _ s'' hs'' => ?_
  obtain ⟨c, hc, rfl⟩ := hs''
  rw [h.chunks, Function.update_self] at hc
  obtain rfl := Option.some.inj hc
  refine ⟨⟨h.fresh.ptr, h.fresh.data, h.fresh.ne, h.fresh.last⟩, h.files, ?_, h.blocks, h.openFiles⟩
  rw [setChunk_chunks, h.chunks, Function.update_idem]

end Primitives

end Dandelion.FileSystem
