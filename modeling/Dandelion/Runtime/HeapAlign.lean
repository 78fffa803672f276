import Dandelion.Runtime.HeapIsolation

/-! # The alignment of allocations

The allocator aligns indices relative to `free_root`. An address is therefore
aligned exactly as `free_root` itself, which is aligned only to a pointer. This
holds in every state, since wrapping keeps residues modulo powers of two.
-/

namespace Dandelion.Runtime.Heap

open Foundation.Words Foundation.Runs

/-- Where the descriptor array begins, or will begin once the heap is set up. -/
def heapRoot (P : Platform) (s : State) : Nat := if s.freeRoot = 0 then sbrkBase P s else s.freeRoot

variable {P : Platform} {s s' : State} {size alignment m k p : Nat}

section Indices

theorem dvd_aligned (hm : m ∣ 2 ^ 64) (hLt : m < 2 ^ 64) (start : Nat) :
    m ∣ add64 (add64 start (skipIndices m start)) 1 := by
  have hPos : 0 < m := Nat.pos_of_dvd_of_pos hm (by decide)
  have hMod : add64 start 1 % m < m := Nat.mod_lt _ hPos
  have hStart : start + 1 ≡ add64 start 1 % m [MOD m] :=
    ((Nat.mod_modEq _ _).trans (add64_modEq hm start 1)).symm
  have hSum : add64 (add64 start (skipIndices m start)) 1 ≡ (start + 1) +
      skipIndices m start [MOD m] := by
    refine (add64_modEq hm _ 1).trans ?_
    rw [Nat.add_right_comm start 1]
    exact (add64_modEq hm start _).add_right 1
  refine (hSum.trans (hStart.add_right _)).dvd_iff dvd_rfl |>.mpr ?_
  simp only [skipIndices]
  split
  · rename_i hZero
    rw [hZero]
    exact Nat.dvd_zero m
  · rw [sub64_of_le hLt hMod.le, Nat.add_sub_cancel' hMod.le]

theorem State.address_of_root (h : s'.freeRoot = s.freeRoot) (i : Nat) :
    s'.address i = s.address i := by
  rw [State.address, State.address, h]

theorem localAlignment_pow (hk : k < 64) : localAlignment (2 ^ k) = 2 ^ (k - 3) :=
  (show ∀ k < 64, localAlignment (2 ^ k) = 2 ^ (k - 3) by decide +kernel) k hk

theorem address_modEq (hk : k < 64) {i : Nat} (hi : 2 ^ (k - 3) ∣ i) :
    s.address i ≡ s.freeRoot [MOD 2 ^ k] := by
  have hDvd : 2 ^ k ∣ 2 ^ 64 := Nat.pow_dvd_pow 2 hk.le
  have hWords : 2 ^ k ∣ 8 * 2 ^ (k - 3) := by
    rw [show 8 = 2 ^ 3 from rfl, ← Nat.pow_add]
    exact Nat.pow_dvd_pow 2 (by omega)
  have hOffset : mul64 8 i ≡ 0 [MOD 2 ^ k] :=
    (mul64_modEq hDvd 8 i).trans
      (Nat.modEq_zero_iff_dvd.mpr (hWords.trans (Nat.mul_dvd_mul_left 8 hi)))
  exact (add64_modEq hDvd _ _).trans (hOffset.add_left _)

end Indices

section Roots

theorem splitFront_freeRoot (s : State) (start skip : Nat) :
    (splitFront s start skip).freeRoot = s.freeRoot := by
  unfold splitFront
  split
  · rfl
  · split
    · split <;> rfl
    · rfl

theorem placeBlock_address {smallest : Nat}
    (h : (placeBlock s smallest size alignment).1 = .ret p) :
    p = s.address (add64 (add64 smallest (skipIndices alignment smallest)) 1) := by
  unfold placeBlock at h
  dsimp only at h
  split at h
  · cases h
  · split at h
    · obtain rfl := Outcome.ret.inj h
      exact State.address_of_root (splitFront_freeRoot _ _ _) _
    · obtain rfl := Outcome.ret.inj h
      exact State.address_of_root (splitFront_freeRoot _ _ _) _

theorem dandelionSbrk_root {base : Nat} (h : dandelionSbrk P s size = (base, s')) :
    s'.freeRoot = s.freeRoot ∧ (base ≠ 0 → base = sbrkBase P s) := by
  by_cases hEnd : add64 (sbrkBase P s) size > P.heapEnd
  · simp only [dandelionSbrk, if_pos hEnd, Prod.mk.injEq] at h
    exact ⟨by rw [← h.2], fun hne => absurd h.1.symm hne⟩
  · simp only [dandelionSbrk, if_neg hEnd, Prod.mk.injEq] at h
    exact ⟨by rw [← h.2], fun _ => h.1.symm⟩

theorem growContiguous_freeRoot (s : State) (newSize : Nat) :
    (growContiguous s newSize).2.freeRoot = s.freeRoot := by
  simp only [growContiguous, State.set_freeRoot]

theorem growSkipping_freeRoot (s : State) (newAllocation newSize : Nat) :
    (growSkipping s newAllocation newSize).2.freeRoot = s.freeRoot := by
  simp only [growSkipping, State.set_freeRoot]

theorem growHeap_freeRoot {grown : Option Nat} (h : growHeap P s size alignment = (grown, s')) :
    s'.freeRoot = s.freeRoot := by
  obtain ⟨base, s₁, hSbrk⟩ : ∃ base s₁, dandelionSbrk P s (getSbrkSize P size alignment) =
      (base, s₁) :=
    ⟨_, _, Prod.mk.eta.symm⟩
  obtain ⟨hRoot, -⟩ := dandelionSbrk_root hSbrk
  simp only [growHeap, hSbrk] at h
  by_cases hNone : base = 0
  · rw [if_pos hNone, Prod.mk.injEq] at h
    rw [← h.2, hRoot]
  · rw [if_neg hNone, Prod.mk.injEq] at h
    rw [← h.2, ← hRoot]
    split
    · exact growContiguous_freeRoot _ _
    · exact growSkipping_freeRoot _ _ _

theorem allocWords_address (h : (allocWords P s size alignment).1 = .ret p) (hp : p ≠ 0) :
    ∃ start, p = s.address (add64 (add64 start (skipIndices alignment start)) 1) := by
  rw [allocWords] at h
  -- the fuel of the search is not to be unfolded
  generalize searchFit s size alignment (2 ^ 64) maxVal maxVal 0 = found at h
  cases found with
  | none => cases h
  | some best =>
    obtain ⟨smallest, smallestSize⟩ := best
    by_cases hNone : smallestSize = maxVal
    · obtain ⟨grown, s₁, hGrow⟩ : ∃ grown s₁, growHeap P s size alignment = (grown, s₁) :=
        ⟨_, _, Prod.mk.eta.symm⟩
      have hRoot := growHeap_freeRoot hGrow
      simp only [if_pos hNone, hGrow] at h
      cases grown with
      | none => exact absurd (Outcome.ret.inj h).symm hp
      | some start => exact ⟨start, (placeBlock_address h).trans (State.address_of_root hRoot _)⟩
    · simp only [if_neg hNone] at h
      exact ⟨smallest, placeBlock_address h⟩

theorem openHeap_freeRoot {s₁ : State} (h : openHeap P s size alignment = (true, s₁)) :
    s₁.freeRoot = heapRoot P s := by
  by_cases hNull : s.freeRoot = 0
  · obtain ⟨base, s₀, hSbrk⟩ : ∃ base s₀, dandelionSbrk P s (getSbrkSize P size alignment) =
        (base, s₀) :=
      ⟨_, _, Prod.mk.eta.symm⟩
    obtain ⟨-, hBase⟩ := dandelionSbrk_root hSbrk
    simp only [openHeap, hNull, if_true, hSbrk] at h
    by_cases hNone : base = 0
    · rw [if_pos hNone, Prod.mk.injEq] at h
      cases h.1
    · rw [if_neg hNone, Prod.mk.injEq] at h
      rw [← h.2, heapRoot, if_pos hNull]
      exact hBase hNone
  · rw [openHeap_open hNull, Prod.mk.injEq] at h
    rw [← h.2, heapRoot, if_neg hNull]

end Roots

/-- A block that is handed out is aligned to a power of two exactly if the root of the heap is. -/
theorem alloc_aligned_iff (P : Platform) (s : State) (size : Nat) (hk : k < 64)
    (h : (dandelionAlloc P s size (2 ^ k)).1 = .ret p) (hp : p ≠ 0) : 2 ^ k ∣ p ↔
    2 ^ k ∣ heapRoot P s := by
  rw [dandelionAlloc, localAlignment_pow hk] at h
  split at h
  · exact absurd (Outcome.ret.inj h).symm hp
  · split at h
    · exact absurd (Outcome.ret.inj h).symm hp
    · obtain ⟨b, s₁, hOpen⟩ : ∃ b s₁, openHeap P s (localSize size) (2 ^ (k - 3)) = (b, s₁) :=
        ⟨_, _, Prod.mk.eta.symm⟩
      rw [hOpen] at h
      cases b with
      | false => exact absurd (Outcome.ret.inj h).symm hp
      | true =>
        obtain ⟨start, rfl⟩ := allocWords_address h hp
        rw [← openHeap_freeRoot hOpen]
        refine (address_modEq hk (dvd_aligned (Nat.pow_dvd_pow 2 ?_) ?_ start)).dvd_iff dvd_rfl
        · omega
        · exact Nat.pow_lt_pow_right (by decide) (by omega)

theorem alloc_aligned_page :
    (dandelionAlloc ⟨4096, 4096, 409600, false⟩ (initial fun _ => 0) 4000 (2 ^ 4)).1 = .ret 4112 ∧
    2 ^ 4 ∣ 4112 := by
  have hAlloc : (dandelionAlloc ⟨4096, 4096, 409600, false⟩ (initial fun _ => 0) 4000 (2 ^ 4)).1 =
      .ret 4112 := by
    decide +kernel
  exact ⟨hAlloc, (alloc_aligned_iff _ _ 4000 (by decide) hAlloc (by decide)).mpr
    (by decide +kernel)⟩

/-- On a heap that begins eight bytes later the same request is not aligned. -/
theorem alloc_aligned_fails :
    ∃ c, Reachable Starts (Step ⟨4096, 4104, 409600, false⟩) c ∧
      (dandelionAlloc ⟨4096, 4104, 409600, false⟩ c.state 4000 (2 ^ 4)).1 = .ret 4120 ∧
      ¬ 2 ^ 4 ∣ 4120 :=
  ⟨⟨initial fun _ => 0, [], []⟩, .init ⟨_, rfl⟩, by decide +kernel, by decide⟩

end Dandelion.Runtime.Heap
