import Dandelion.FileSystem.ExhaustionLaw
import Dandelion.FileSystem.Freeing
import Dandelion.FileSystem.Truncation

/-! # Writes and truncations that return

A call that a descriptor is good for may still not return: the descriptor can be
at a chunk that was given back, the walk to the end of an appending descriptor
starts at no chunk, and a truncation expects the file to have one.
-/

namespace Dandelion.FileSystem

open Foundation.Chains Foundation.Words Foundation.Triples

/-- The condition for a write of `k` bytes to return. -/
def WriteReturns (P : Platform) (s : State) (f : DFile) (o : OpenFile) (options k : Nat) : Prop :=
  hasBit options useOffset = true ∨
    (hasBit o.openFlags oAPPEND = true →
      if f.link = 0 ∧ k ≠ 0 then CanAppend P s f o k else LeadsToEnd s.memory o) ∧
    (f.link ≠ 0 → k ≠ 0 →
      s.memory.chunks (if o.currentChunk = 0 then f.link else o.currentChunk) ≠ none)

/-- The data of the chunks behind the one where the length is reached can be given back. -/
def CutReturns (m : Memory) (l : List Piece) (n : Nat) : Prop :=
  ∃ a x t, l = a ++ x :: t ∧ (a = [] ∨ (flat a).length < n) ∧ n ≤ (flat a).length + x.chunk.used ∧
    ∀ y ∈ t, m.allocated y.chunk.data

/-- The condition for a truncation to return. -/
def TruncateReturns (m : Memory) (f : DFile) (length : Int) : Prop :=
  length < 0 ∨ ∃ l, pieces m f.link = some l ∧ l ≠ [] ∧
    ((flat l).length < length.toNat ∨ CutReturns m l length.toNat)

variable {P : Platform} {s s₁ : State} {p : Ptr} {f : DFile} {bytes : List UInt8}
  {fd n options i fuel : Nat} {a l t : List Piece} {x : Piece}

section Writing

theorem writeLoop_returns {c : FileChunk} {b : Block} (hGrants : P.Grants)
    (h : Holds s.memory p c b) (hLen : bytes.length < 2 ^ 31) :
    ∃ last s', writeLoop P bytes.length bytes p s = .ok (last, s') := by
  by_cases hne : bytes = []
  · exact ⟨p, s, by rw [hne, writeLoop_nil]⟩
  · obtain ⟨last, s', hLoop, -⟩ := writeLoop_only (x := ⟨p, c, []⟩) (fun _ => hGrants.pair _) h hne
      (by omega) (h.copies hLen)
    exact ⟨last, s', hLoop⟩

theorem writeLoop_gone (hne : bytes ≠ []) (hGone : s.memory.chunks p = none) :
    Ensures (writeLoop P bytes.length bytes p) s fun _ _ => False := by
  obtain ⟨k, hk⟩ := Nat.exists_eq_add_one.mpr (List.length_pos_iff.mpr hne)
  rw [hk, writeLoop, if_neg hne]
  refine (ensures_getChunkAt p).bind fun c s₁ hRead => ?_
  rw [hGone] at hRead
  cases hRead.2.2

theorem returns_copy_iff (admits : Prop) (h : OpenOn s fd f)
    (hStart : writeStart P (s.openFiles fd) f bytes.length n options s = .ok (some (p, i), s₁))
    (hCopies : ∀ s₂ : State, s₂.memory = s₁.memory → admits →
      ∃ last s', writeLoop P bytes.length bytes p s₂ = .ok (last, s'))
    (hFails : ∀ s₂ : State, s₂.memory = s₁.memory → ¬ admits →
      Ensures (writeLoop P bytes.length bytes p) s₂ fun _ _ => False) :
    (∃ r s', dandelionWrite P fd bytes n options s = .ok (r, s')) ↔
      (Jumps (s.openFiles fd) options → LeadsToEnd s₁.memory (s.openFiles fd)) ∧ admits := by
  rw [dandelionWrite_start h, bind_ok hStart]
  have hIff := writePlace_copy_iff (s.openFiles fd) options i
    (Q := fun _ => True) admits True h.range
    (fun s₂ hMemory _ hAdmits => by
      simpa only [iff_self, and_true] using hCopies s₂ hMemory hAdmits)
    fun s₂ hMemory _ => hFails s₂ hMemory
  simpa only [and_true] using hIff

theorem returns_start_iff (hGrants : P.Grants) (h : OpenOn s fd f)
    (hStart : writeStart P (s.openFiles fd) f bytes.length n options s = .ok (some (p, i), s₁))
    (hHolds : bytes ≠ [] → ∃ c b, Holds s₁.memory p c b) (hLen : bytes.length < 2 ^ 31) :
    (∃ r s', dandelionWrite P fd bytes n options s = .ok (r, s')) ↔
      (Jumps (s.openFiles fd) options → LeadsToEnd s₁.memory (s.openFiles fd)) := by
  refine (returns_copy_iff True h hStart (fun s₂ hMemory _ => ?_) fun _ _ hNot =>
    absurd trivial hNot).trans
    (and_iff_left trivial)
  by_cases hne : bytes = []
  · exact ⟨p, s₂, by rw [hne, writeLoop_nil]⟩
  · obtain ⟨c, b, hHolds⟩ := hHolds hne
    exact writeLoop_returns hGrants (hMemory ▸ hHolds) hLen

theorem write_offset_returns (hGrants : P.Grants) (h : OpenOn s fd f) (hl : Filed s.memory f.link l)
    (hUse : hasBit options useOffset = true) (hn : n < 2 ^ 63) (hLen : bytes.length < 2 ^ 31) :
    ∃ r s', dandelionWrite P fd bytes n options s = .ok (r, s') := by
  have hStay : ∀ s₁ : State, Jumps (s.openFiles fd) options →
      LeadsToEnd s₁.memory (s.openFiles fd) :=
    fun _ hJumps => absurd hJumps (not_jumps hUse _)
  by_cases hSome : landing l n = none → 0 < n - caps l + bytes.length
  · obtain ⟨a, x, t, r, s₁, hStart, -, -, hReady⟩ :=
      writeStart_use (fun _ => hGrants.pair _) h.opened h.node hUse hl hn (by omega) hSome
    obtain ⟨link, -, hFiled⟩ := hReady.files
    obtain ⟨b, hx⟩ := hFiled.holds x (by simp)
    exact (returns_start_iff hGrants h hStart (fun _ => ⟨_, b, hx⟩) hLen).mpr (hStay s₁)
  · -- nothing is to be written where the file ends
    obtain ⟨hLand, hNone⟩ := Classical.not_imp.mp hSome
    have hNil : bytes = [] := List.eq_nil_of_length_eq_zero (by omega)
    have hZero : n - caps l + bytes.length = 0 := by omega
    rw [← refusing_none P] at hGrants ⊢
    by_cases hEmpty : l = []
    · subst hEmpty
      have hSize : toSize ((n : Int) + bytes.length) = 0 := by
        have hCast : (n : Int) + bytes.length = 0 := by
          have hSum : n - 0 + bytes.length = 0 := hZero
          omega
        rw [hCast]
        rfl
      obtain ⟨s₁, hStart, -⟩ := writeStart_refused (P := P) h hl.stored (by rw [if_pos hUse, hSize])
        (show chunkSize 0 = 0 ∨ ¬ Admitted (fun _ => false) s.requests from Or.inl (by decide))
      exact (returns_start_iff hGrants h hStart (fun hne => absurd hNil hne) hLen).mpr (hStay s₁)
    · obtain ⟨s₁, hStart, -⟩ := writeStart_noticed (P := P) (s.openFiles fd) hl hEmpty hUse hLand hn
        (show bytes.length < 2 ^ 62 by omega)
        (show _ ∨ ¬ Admitted (fun _ => false) s.requests from Or.inl hZero)
      refine ⟨-(eNOMEM : Int), s₁, ?_⟩
      rw [dandelionWrite_start h, bind_ok hStart]
      rfl

theorem write_empty_returns_iff (hGrants : P.Grants) (h : OpenOn s fd f) (hLink : f.link = 0)
    (hUse : hasBit options useOffset = false) (hLen : bytes.length < 2 ^ 31) :
    (∃ r s', dandelionWrite P fd bytes n options s = .ok (r, s')) ↔
      (Jumps (s.openFiles fd) options → if bytes.length ≠ 0 then
        CanAppend P s f (s.openFiles fd) bytes.length
          else LeadsToEnd s.memory (s.openFiles fd)) := by
  have hLength :
      (if hasBit options useOffset then toSize ((n : Int) + bytes.length) else bytes.length) =
      bytes.length := if_neg (by simp [hUse])
  by_cases hZero : bytes.length = 0
  · rw [if_neg (not_not.mpr hZero)]
    obtain ⟨s₁, hStart, hSame⟩ := writeStart_refused (P := P) h hLink hLength
      (show _ ∨ ¬ Admitted (fun _ => false) s.requests from Or.inl (by rw [hZero]; decide))
    rw [refusing_none] at hStart
    have hNil := List.eq_nil_of_length_eq_zero hZero
    rw [returns_start_iff hGrants h hStart (fun hne => absurd hNil hne) hLen,
      leadsToEnd_of_same hSame]
  · obtain ⟨g, ptr, s₀, hAlloc, -, hNew, hStart⟩ := writeStart_new (s := s) options n
      (hGrants.pair _) h.opened
      h.node hLink hLength (chunkSize_pos (Nat.pos_of_ne_zero hZero) (by omega))
    set s₁ : State :=
      { s₀ with memory := s₀.memory.setFile (s.openFiles fd).file { f with link := ptr } }
    obtain ⟨hFiled, -⟩ :=
      first_filed s₁.memory hNew (Nat.zero_le _) (chunkSize_lt _) hNew.chunks rfl
    obtain ⟨b, hHolds⟩ := hFiled.holds _ (List.mem_singleton_self _)
    have hTakes : Takes (chunkSize bytes.length % 2 ^ 32) bytes.length := by
      rw [takes_iff hLen]
      simp only [chunkSize, fsChunkSize, add64, sub64, mul64]
      omega
    rw [returns_start_iff hGrants h hStart (fun _ => ⟨_, b, hHolds⟩) hLen, if_pos hZero]
    have hChunks : s₁.memory.chunks = s₀.memory.chunks := rfl
    exact imp_congr_right fun _ => leadsToEnd_new_iff hLink hAlloc hNew hChunks hTakes _

theorem write_returns_iff (options : Nat) (hGrants : P.Grants) (hSound : Sound s.memory)
    (hWords : s.memory.Words) (h : OpenOn s fd f) (hl : Filed s.memory f.link l) (hn : n < 2 ^ 63)
    (hLen : bytes.length < 2 ^ 31) :
    (∃ r s', dandelionWrite P fd bytes n options s = .ok (r, s')) ↔
      WriteReturns P s f (s.openFiles fd) options bytes.length := by
  by_cases hUse : hasBit options useOffset = true
  · exact iff_of_true (write_offset_returns hGrants h hl hUse hn hLen) (Or.inl hUse)
  have hJumps : Jumps (s.openFiles fd) options ↔ hasBit (s.openFiles fd).openFlags oAPPEND = true :=
    and_iff_left hUse
  rw [WriteReturns, or_iff_right hUse]
  by_cases hLink : f.link = 0
  · rw [write_empty_returns_iff hGrants h hLink (Bool.eq_false_iff.mpr hUse) hLen, hJumps]
    simp only [hLink, true_and, ne_eq, not_true_eq_false, false_imp_iff, and_true]
  · simp only [hLink, false_and, if_false, ne_eq, not_false_eq_true, true_imp_iff]
    rw [← hJumps]
    set start :=
      if (s.openFiles fd).currentChunk = 0 then f.link else (s.openFiles fd).currentChunk with hEq
    have hStart := writeStart_move (P := P) (s := s) (o := s.openFiles fd) bytes.length n hLink
      (Bool.eq_false_iff.mpr hUse)
    rw [← hEq] at hStart
    refine returns_copy_iff _ h hStart (fun s₂ hMemory hLive => ?_) fun s₂ hMemory hGone => ?_
    · by_cases hne : bytes = []
      · exact ⟨start, s₂, by rw [hne, writeLoop_nil]⟩
      obtain ⟨c, hc⟩ := Option.ne_none_iff_exists'.mp
        (hLive fun hZero => hne (List.eq_nil_of_length_eq_zero hZero))
      have hZero : start ≠ 0 := by
        rw [hEq]
        split
        · exact hLink
        · assumption
      obtain ⟨b, hHolds⟩ := hSound.holds hWords hZero hc
      exact writeLoop_returns hGrants (hMemory ▸ hHolds) hLen
    · obtain ⟨hne, hNone⟩ := Classical.not_imp.mp hGone
      exact writeLoop_gone (fun hNil => hne (List.length_eq_zero_iff.mpr hNil))
        (by rw [hMemory, not_not.mp hNone])

end Writing

section Truncating

theorem truncateFrom_cut_iff (hHolding : Holding s.memory) (hl : Filed s.memory p (a ++ x :: t))
    (hBefore : a = [] ∨ (flat a).length < n) (hn : n ≤ (flat a).length + x.chunk.used)
    (hFuel : a.length < fuel) :
    (∃ r s', truncateFrom P fuel n p s = .ok (r, s')) ↔
      ∀ y ∈ t, s.memory.allocated y.chunk.data := by
  obtain ⟨b, hx⟩ := hl.holds x (by simp)
  obtain ⟨k, hRun⟩ := truncateFrom_at (P := P) hl hBefore hFuel
  set s₁ : State :=
    { s with memory := s.memory.setChunk x.ptr { x.chunk with used := n - (flat a).length } }
  have hCut : truncateFrom P fuel n p s = (do freeFileChunks x.chunk.next; pure 0 : M Int) s₁ := by
    rw [hRun, truncateFrom, bind_ok (getChunkAt_ok hx.ne_zero hx.chunk), if_pos (by omega),
      bind_ok (modifyChunk_ok hx.ne_zero hx.chunk), freeCut_eq, freeFileChunks, bind_assoc]
  have hData : ({ x.chunk with used := n - (flat a).length } : FileChunk).data = x.chunk.data := rfl
  have hHolding₁ : Holding s₁.memory := hHolding.refill hx.chunk hData rfl rfl rfl
  have hApart : x.ptr ∉ t.map Piece.ptr := (List.nodup_cons.mp hl.suffix.stored.chain.nodup).1
  have hChunks : ∀ y ∈ t, s₁.memory.chunks y.ptr = some y.chunk := by
    intro y hy
    have hne : y.ptr ≠ x.ptr := fun hEq => hApart (hEq ▸ List.mem_map_of_mem hy)
    rw [setChunk_chunks, Function.update_of_ne hne, hl.stored.chunk_eq (by simp [hy])]
  have hChain : Chain (nextChunk s₁.memory) x.chunk.next (t.map Piece.ptr) := by
    refine hl.suffix.tail.stored.chain.congr fun q hq => ?_
    obtain ⟨y, hy, rfl⟩ := List.mem_map.mp hq
    rw [nextChunk, nextChunk, hChunks y hy, hl.stored.chunk_eq (by simp [hy])]
  have hSame : ∀ y ∈ t, s₁.memory.allocated y.chunk.data = s.memory.allocated y.chunk.data := by
    intro y hy
    rw [hHolding₁.allocated_data (hChunks y hy),
      hHolding.allocated_data (hl.stored.chunk_eq (by simp [hy]))]
    rfl
  rw [hCut]
  constructor
  · rintro ⟨r, s', hReturns⟩ y hy
    have hOwned : Owned s₁.memory x.chunk.next := by
      have hAll : Ensures (do freeFileChunks x.chunk.next; pure 0 : M Int) s₁ fun _ _ =>
          Owned s₁.memory x.chunk.next :=
            (owned_of_freeFileChunks hHolding₁).bind fun _ _ h => .pure h
      exact hAll.result hReturns
    obtain ⟨cs, hcs, hOwn⟩ := hOwned
    obtain rfl := hChain.unique hcs
    rw [← hSame y hy]
    exact hOwn _ (List.mem_map_of_mem hy) _ (hChunks y hy)
  · intro hOwn
    obtain ⟨s', hFree, -⟩ := freeFileChunks_ok hHolding₁ hChain fun q hq c hc => by
      obtain ⟨y, hy, rfl⟩ := List.mem_map.mp hq
      obtain rfl := Option.mem_unique (hChunks y hy) hc
      rw [hSame y hy]
      exact hOwn y hy
    exact ⟨0, s', by rw [bind_ok hFree]; rfl⟩

theorem truncate_returns_iff {length : Int} (hGrants : P.Grants) (hHolding : Holding s.memory)
    (hp : p ≠ 0) (hf : s.memory.files p = some f) (hType : f.type = .file)
    (hl : Filed s.memory f.link l) (hWord : length < 2 ^ 63) :
    (∃ r s', truncateNode P p length s = .ok (r, s')) ↔ TruncateReturns s.memory f length := by
  rw [truncateNode, TruncateReturns]
  by_cases hNeg : length < 0
  · rw [if_pos hNeg]
    exact iff_of_true ⟨_, s, rfl⟩ (Or.inl hNeg)
  rw [if_neg hNeg, or_iff_right hNeg, bind_ok (getFileAt_ok hp hf), if_neg (not_not.mpr hType),
    bind_ok steps_ok]
  set n := length.toNat
  have hOnly : ∀ j, pieces s.memory f.link = some j → j = l := fun j hj =>
    (pieces_eq_some.mp hj).unique hl.stored
  by_cases hEmpty : l = []
  · refine iff_of_false ?_ ?_
    · rintro ⟨r, s', hRun⟩
      have hLink : f.link = 0 := by
        rw [hEmpty] at hl
        exact hl.stored
      rw [hLink, truncateFrom, bind_error getChunkAt_null] at hRun
      cases hRun
    · rintro ⟨j, hj, hne, -⟩
      exact hne ((hOnly j hj).trans hEmpty)
  have hFuel := Nat.lt_succ_of_le hl.stored.length_le
  rcases Nat.lt_or_ge (flat l).length n with hMore | hLess
  · obtain ⟨a, x, rfl⟩ := (List.eq_nil_or_concat' l).resolve_left hEmpty
    rw [List.length_append, List.length_singleton] at hFuel
    obtain ⟨-, -, -, -, s₃, hRun, -⟩ := truncateFrom_gap hGrants hl hMore (by omega)
      (Nat.lt_of_succ_lt hFuel)
    exact iff_of_true ⟨0, s₃, hRun⟩ ⟨_, pieces_eq_some.mpr hl.stored, hEmpty, Or.inl hMore⟩
  · constructor
    · intro hReturns
      obtain ⟨a, x, t, rfl, hBefore, hAt⟩ := cut_split hEmpty hLess
      rw [hl.stored.bytes_length (by simp)] at hAt
      rw [List.length_append, List.length_cons] at hFuel
      rw [truncateFrom_cut_iff hHolding hl hBefore hAt (by omega)] at hReturns
      exact ⟨_, pieces_eq_some.mpr hl.stored, hEmpty, Or.inr ⟨a, x, t, rfl, hBefore, hAt, hReturns⟩⟩
    · rintro ⟨j, hj, -, hOut | ⟨a, x, t, hSplit, hBefore, hAt, hOwn⟩⟩
      · rw [hOnly j hj] at hOut
        omega
      · rw [hOnly j hj] at hSplit
        rw [hSplit, List.length_append, List.length_cons] at hFuel
        exact (truncateFrom_cut_iff hHolding (hSplit ▸ hl) hBefore hAt (by omega)).mpr hOwn

end Truncating

end Dandelion.FileSystem
