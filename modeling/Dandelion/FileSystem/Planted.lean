import Dandelion.Foundation.Forests
import Dandelion.FileSystem.Orderly
import Dandelion.FileSystem.Children

/-! # Forests in memory

A list of nodes with all that is below them is a forest of names and contents. A
memory that keeps the nodes, the chunks and the blocks of another one holds the
same forests. Since a node is never below or behind itself, no forest is higher
than there are addresses.
-/

namespace Dandelion.FileSystem

open Foundation.Forests

/-- Entries by name, with the bytes of regular files. -/
abbrev Folder := Forest Path (List UInt8)

/-- Several chunks are only joined if they hold something, and less than an address space. -/
def Gatherable (l : List Piece) : Prop :=
  l.length ≤ 1 ∨ 0 < (flat l).length ∧ (flat l).length < 2 ^ 64

instance (l : List Piece) : Decidable (Gatherable l) := inferInstanceAs (Decidable (_ ∨ _))

/-- The nodes from a pointer on are the given entries. -/
def Planted (m : Memory) : Ptr → Folder → Prop
  | p, .nil => p = 0
  | p, .leaf name bytes rest =>
    p ≠ 0 ∧ ∃ f, m.files p = some f ∧ f.type = .file ∧ trim f.name fsNameLength = name ∧
      name ≠ [] ∧ (∃ l, Stored m f.link l ∧ Gatherable l ∧ flat l = bytes) ∧ Planted m f.next rest
  | p, .branch name inner rest => p ≠ 0 ∧ ∃ f, m.files p = some f ∧ f.type = .directory ∧
      trim f.name fsNameLength = name ∧ name ≠ [] ∧ Planted m f.link inner ∧ Planted m f.next rest

structure Retains (m m' : Memory) : Prop where
  files : m'.files = m.files
  chunks : m'.chunks = m.chunks
  blocks : ∀ p b, m.blocks p = some b → m'.blocks p = some b
  limit : m.limit ≤ m'.limit

variable {m m' m'' : Memory} {p q : Ptr} {l : List Piece} {F : Folder}

section Retaining

theorem Retains.refl (m : Memory) : Retains m m := ⟨rfl, rfl, fun _ _ h => h, Nat.le_refl _⟩

theorem Retains.trans (h : Retains m m') (h' : Retains m' m'') : Retains m m'' :=
  ⟨h'.files.trans h.files, h'.chunks.trans h.chunks, fun p b hb => h'.blocks p b (h.blocks p b hb),
    h.limit.trans h'.limit⟩

theorem Retains.vacant_block (h : Retains m m') (hp : m'.blocks p = none) : m.blocks p = none := by
  cases hb : m.blocks p with
  | none => rfl
  | some b =>
    rw [h.blocks p b hb] at hp
    cases hp

theorem Retains.setBlock (h : Retains m m') (hp : m.blocks p = none) (b : Block) :
    Retains m (m'.setBlock p b) where
  files := h.files
  chunks := h.chunks
  blocks q c hc := by
    rw [setBlock_blocks, Function.update_of_ne]
    · exact h.blocks q c hc
    · rintro rfl
      rw [hp] at hc
      cases hc
  limit := h.limit.trans (Nat.le_max_left _ _)

theorem Retains.drop (h : Retains m m') (hp : m.Vacant p) : Retains m (m'.drop p) where
  files := by
    rw [drop_files, h.files]
    exact Function.update_eq_self_iff.mpr hp.2.1.symm
  chunks := by
    rw [drop_chunks, h.chunks]
    exact Function.update_eq_self_iff.mpr hp.2.2.1.symm
  blocks q b hb := by
    rw [drop_blocks, Function.update_of_ne (hp.ne_block hb).symm]
    exact h.blocks q b hb
  limit := h.limit

theorem load_live {o n : Nat} {bytes : List UInt8} (h : m.load p o n = some bytes) (hn : n ≠ 0) :
    m.blocks p ≠ none := by
  intro hNone
  rw [Memory.load, if_neg hn, hNone, Option.bind_none] at h
  split at h <;> cases h

theorem Retains.load (h : Retains m m') {o n : Nat} {bytes : List UInt8}
    (hLoad : m.load p o n = some bytes) :
    m'.load p o n = some bytes := by
  by_cases hn : n = 0
  · subst hn
    exact hLoad
  · obtain ⟨b, hb⟩ := Option.ne_none_iff_exists'.mp (load_live hLoad hn)
    rwa [load_congr ((h.blocks p b hb).trans hb.symm)]

theorem Retains.stored (h : Retains m m') (hl : Stored m p l) : Stored m' p l := by
  induction l generalizing p with
  | nil => exact hl
  | cons x l ih =>
    obtain ⟨hp, hne, hChunk, hLoad, hRest⟩ := hl
    exact ⟨hp, hne, by rw [h.chunks, hChunk], h.load hLoad, ih hRest⟩

end Retaining

section Heights

theorem Planted.unique {G : Folder} (h : Planted m p F) (h' : Planted m p G) : F = G := by
  induction F generalizing p G with
  | nil =>
    cases G with
    | nil => rfl
    | leaf _ _ _ => exact absurd h h'.1
    | branch _ _ _ => exact absurd h h'.1
  | leaf name bytes rest ih =>
    obtain ⟨hp, f, hf, hType, rfl, -, ⟨l, hl, -, rfl⟩, hRest⟩ := h
    cases G with
    | nil => exact absurd h' hp
    | leaf _ _ _ =>
      obtain ⟨-, e, he, -, rfl, -, ⟨k, hk, -, rfl⟩, hRest'⟩ := h'
      obtain rfl := Option.mem_unique hf he
      rw [hl.unique hk, ih hRest hRest']
    | branch _ _ _ =>
      obtain ⟨-, e, he, hDir, -⟩ := h'
      obtain rfl := Option.mem_unique hf he
      rw [hType] at hDir
      cases hDir
  | branch name inner rest ihInner ih =>
    obtain ⟨hp, f, hf, hType, rfl, -, hInner, hRest⟩ := h
    cases G with
    | nil => exact absurd h' hp
    | leaf _ _ _ =>
      obtain ⟨-, e, he, hFile, -⟩ := h'
      obtain rfl := Option.mem_unique hf he
      rw [hType] at hFile
      cases hFile
    | branch _ _ _ =>
      obtain ⟨-, e, he, -, rfl, -, hInner', hRest'⟩ := h'
      obtain rfl := Option.mem_unique hf he
      rw [ihInner hInner hInner', ih hRest hRest']

def HasWay (m : Memory) (height : Nat) : Prop :=
  ∃ l : List Ptr, l.length = height ∧ l.Nodup ∧
    ∀ q ∈ l, q < m.limit ∧ ∃ G, Planted m q G ∧ G.height ≤ height

theorem HasWay.cons {n : Nat} {f : DFile} (h : HasWay m n) (hF : Planted m p F)
    (hHeight : F.height = n + 1) (hf : m.files p = some f) : HasWay m (n + 1) := by
  obtain ⟨l, hLength, hNodup, hl⟩ := h
  refine ⟨p :: l, by rw [List.length_cons, hLength], List.nodup_cons.mpr ⟨fun hMem => ?_, hNodup⟩,
    fun q hq => ?_⟩
  · -- the node would be behind or below itself
    obtain ⟨-, G, hG, hLe⟩ := hl p hMem
    rw [hG.unique hF] at hLe
    omega
  · rcases List.mem_cons.mp hq with rfl | hq
    · exact ⟨lt_limit hf, F, hF, Nat.le_of_eq hHeight⟩
    · obtain ⟨hLt, G, hG, hLe⟩ := hl q hq
      exact ⟨hLt, G, hG, Nat.le_succ_of_le hLe⟩

theorem Planted.hasWay (h : Planted m p F) : HasWay m F.height := by
  induction F generalizing p with
  | nil => exact ⟨[], rfl, List.nodup_nil, fun q hq => absurd hq List.not_mem_nil⟩
  | leaf name bytes rest ih =>
    obtain ⟨-, f, hf, -, -, -, -, hRest⟩ := id h
    exact (ih hRest).cons h rfl hf
  | branch name inner rest ihInner ih =>
    obtain ⟨-, f, hf, -, -, -, hInner, hRest⟩ := id h
    rcases Nat.le_total inner.height rest.height with hLe | hLe
    · have hHeight : max inner.height rest.height = rest.height := Nat.max_eq_right hLe
      rw [Forest.height, hHeight]
      exact (ih hRest).cons h (by rw [Forest.height, hHeight]) hf
    · have hHeight : max inner.height rest.height = inner.height := Nat.max_eq_left hLe
      rw [Forest.height, hHeight]
      exact (ihInner hInner).cons h (by rw [Forest.height, hHeight]) hf

theorem Planted.height_le (h : Planted m p F) : F.height ≤ m.limit := by
  obtain ⟨l, hLength, hNodup, hl⟩ := h.hasWay
  have hSub : l ⊆ List.range m.limit := fun q hq => List.mem_range.mpr (hl q hq).1
  have hCard := (hNodup.subperm hSub).length_le
  rwa [hLength, List.length_range] at hCard

end Heights

section Reading

def forestWithin (m : Memory) : Nat → Ptr → Option Folder
  | 0, _ => none
  | fuel + 1, p =>
    if p = 0 then some .nil
    else (m.files p).bind fun f =>
      if trim f.name fsNameLength = [] then none
      else match f.type with
        | .file => (pieces m f.link).bind fun l =>
          if Gatherable l then (forestWithin m fuel f.next).map
            (.leaf (trim f.name fsNameLength) (flat l)) else none
        | .directory => (forestWithin m fuel f.link).bind fun inner =>
          (forestWithin m fuel f.next).map (.branch (trim f.name fsNameLength) inner)
        | .device => none
        | .unknown => none

theorem planted_of_forestWithin {fuel : Nat} (h : forestWithin m fuel p = some F) :
    Planted m p F := by
  induction fuel generalizing p F with
  | zero => cases h
  | succ fuel ih =>
    rw [forestWithin] at h
    split at h
    · rename_i hp
      obtain rfl := Option.some.inj h
      exact hp
    · rename_i hp
      obtain ⟨f, hf, h⟩ := Option.bind_eq_some_iff.mp h
      split at h
      · cases h
      · rename_i hName
        split at h
        · rename_i hType
          obtain ⟨l, hl, h⟩ := Option.bind_eq_some_iff.mp h
          split at h
          · rename_i hGather
            obtain ⟨rest, hRest, rfl⟩ := Option.map_eq_some_iff.mp h
            exact ⟨hp, f, hf, hType, rfl, hName, ⟨l, pieces_eq_some.mp hl, hGather, rfl⟩, ih hRest⟩
          · cases h
        · rename_i hType
          obtain ⟨inner, hInner, h⟩ := Option.bind_eq_some_iff.mp h
          obtain ⟨rest, hRest, rfl⟩ := Option.map_eq_some_iff.mp h
          exact ⟨hp, f, hf, hType, rfl, hName, ih hInner, ih hRest⟩
        · cases h
        · cases h

end Reading

end Dandelion.FileSystem
