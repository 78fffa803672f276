import Dandelion.Runtime.HeapExit

/-! # Best fit, growth and failure of `dandelion_alloc`

While a free slab can hold a request, the block goes to the tightest one and
the heap does not grow. A null pointer means that the size is rejected, or that
no slab fits and `dandelion_sbrk` refused; it leaves everything as it was.
-/

namespace Dandelion.Runtime.Heap

open Foundation.Words Foundation.Runs

def roundUp (a n : Nat) : Nat := (n + (a - 1)) / a * a

def wordAlignment (alignment : Nat) : Nat := max 1 ((alignment + 7) / 8)

/-- The words of a slab from the first aligned one after its start to its end. -/
def remaining (alignment : Nat) (t : Slab) : Nat :=
  t.stop - roundUp (wordAlignment alignment) (t.start + 1)

/-- The request has room between the first aligned word after the start and the end. -/
def CanHold (size alignment : Nat) (t : Slab) : Prop :=
  roundUp (wordAlignment alignment) (t.start + 1) + (size + 7) / 8 ≤ t.stop

instance (size alignment : Nat) (t : Slab) : Decidable (CanHold size alignment t) :=
  inferInstanceAs (Decidable (_ ≤ _))

/-- A request that a free slab can hold is served from one with the fewest words left, on every
platform alike, so without `dandelion_sbrk`. -/
def ServedTightly (s : State) (size alignment : Nat) : Prop :=
  (∃ t ∈ slabsOf s, t.label = .free ∧ CanHold size alignment t) →
    ∃ t ∈ slabsOf s, t.label = .free ∧ CanHold size alignment t ∧
      (∀ u ∈ slabsOf s, u.label = .free → CanHold size alignment u →
        remaining alignment t ≤ remaining alignment u) ∧
      ∃ p s', p ≠ 0 ∧ p = s.address (roundUp (wordAlignment alignment) (t.start + 1)) ∧
        s'.allocBase = s.allocBase ∧
        ∀ P, dandelionAlloc P s size alignment = (.ret p, s')

/-- A null pointer has a reason and no effect. -/
def FailsClean (P : Platform) (s : State) (size alignment : Nat) : Prop :=
  (dandelionAlloc P s size alignment).1 = .ret 0 →
    (2 ^ 63 ≤ size ∨ (∀ t ∈ slabsOf s, t.label = .free → ¬ CanHold size alignment t) ∧
      (dandelionSbrk P s (getSbrkSize P (localSize size) (localAlignment alignment))).1 = 0) ∧
    (dandelionAlloc P s size alignment).2.allocBase = s.allocBase ∧
    (dandelionAlloc P s size alignment).2.lastDescriptor = s.lastDescriptor ∧
    (dandelionAlloc P s size alignment).2.memory = s.memory

variable {P : Platform} {s : State} {c : Config} {slabs : List Slab} {size alignment : Nat}
  {t : Slab}

section Rounding

theorem localAlignment_eq (h : alignment < 2 ^ 62) :
    localAlignment alignment = wordAlignment alignment := by
  have hWords : sub64 (add64 alignment 8) 1 = alignment + 7 := by
    rw [add64_of_lt (by omega), sub64_of_le (by omega) (by omega)]
    omega
  simp only [localAlignment, wordAlignment, hWords]
  split <;> omega

theorem roundUp_eq (hReq : Request size alignment) {start : Nat} (h : start < 2 ^ 61) :
    roundUp alignment (start + 1) = start + skipIndices alignment start + 1 := by
  have hPos := hReq.alignment_pos
  have hMod := Nat.mod_lt (start + 1) hPos
  have hDiv := Nat.div_add_mod (start + 1) alignment
  rw [skipIndices_eq hReq h, roundUp]
  generalize (start + 1) / alignment = q at hDiv
  generalize (start + 1) % alignment = r at hDiv hMod ⊢
  rw [← hDiv]
  split
  · rename_i hZero
    have hQuot : (alignment * q + r + (alignment - 1)) / alignment = q := by
      rw [hZero, Nat.add_zero, Nat.add_comm, Nat.add_mul_div_left _ _ hPos,
        Nat.div_eq_of_lt (by omega), Nat.zero_add]
    rw [hQuot, Nat.mul_comm]
    omega
  · have hQuot : (alignment * q + r + (alignment - 1)) / alignment = q + 1 := by
      rw [show alignment * q + r + (alignment - 1) = (r - 1) + alignment * (q + 1) by
        rw [Nat.mul_succ]; omega,
        Nat.add_mul_div_left _ _ hPos, Nat.div_eq_of_lt (by omega), Nat.zero_add]
    rw [hQuot, Nat.mul_comm, Nat.mul_succ]
    omega

end Rounding

section Calls

variable (hDescribed : Described s slabs) (hPos : 0 < size) (hLt : size < 2 ^ 63)
  (hAlign : alignment < 2 ^ 62)

include hDescribed hPos hLt hAlign

theorem canHold_iff (ht : t ∈ slabs) :
    CanHold size alignment t ↔ Fits (localSize size) (localAlignment alignment) t := by
  have hBounds := hDescribed.bounds ht
  have hLast := hDescribed.last_lt
  rw [CanHold, ← localAlignment_eq hAlign,
    roundUp_eq (request_of_size alignment hPos hLt) (by omega), Fits, localSize_eq hLt]
  omega

theorem potential_eq_remaining (ht : t ∈ slabs) (hHold : CanHold size alignment t) :
    potential (localAlignment alignment) t = remaining alignment t := by
  have hBounds := hDescribed.bounds ht
  have hLast := hDescribed.last_lt
  have hReq := request_of_size alignment hPos hLt
  have hFits := (canHold_iff hDescribed hPos hLt hAlign ht).mp hHold
  unfold Fits at hFits
  rw [potential_of_room hReq (by omega) (by omega) (by omega),
    remaining, ← localAlignment_eq hAlign, roundUp_eq hReq (by omega)]
  omega

end Calls

theorem dandelionAlloc_open (hOpen : s.freeRoot ≠ 0) (hPos : 0 < size) (hLt : size < 2 ^ 63) :
    dandelionAlloc P s size alignment =
      allocWords P s (localSize size) (localAlignment alignment) := by
  rw [dandelionAlloc_of_open hPos hLt (openHeap_open hOpen), if_pos rfl]

theorem Sound.servedTightly (hP : P.Sane) (h : Sound P c) (hOpen : c.state.freeRoot ≠ 0)
    (hPos : 0 < size) (hAlign : alignment < 2 ^ 62) : ServedTightly c.state size alignment := by
  obtain ⟨slabs, hLayout⟩ := h.opened hOpen
  have hDescribed := hLayout.described.slabsOf
  rintro ⟨t₀, ht₀, hFree₀, hHold₀⟩
  have hLt : size < 2 ^ 63 := by
    have hBounds := hDescribed.bounds ht₀
    have hHigh := hLayout.high
    have hEnd := hP.end_le
    unfold CanHold at hHold₀
    omega
  have hReq := request_of_size alignment hPos hLt
  have hHolds :=
    fun {t : Slab} (ht : t ∈ slabsOf c.state) => canHold_iff hDescribed hPos hLt hAlign ht
  obtain ⟨t, ht, hFree, hFits, hLeast, hPlacing⟩ := allocWords_of_fit hDescribed hReq fun hNone =>
    hNone t₀ ht₀ hFree₀ ((hHolds ht₀).mp hHold₀)
  obtain ⟨before, after, hSplit⟩ := List.append_of_mem ht
  obtain ⟨s', slabs', hPlace, hPlaced⟩ :=
    placeBlock_of_fits (hSplit ▸ hDescribed) hFree hReq hFits size
  have hHold := (hHolds ht).mpr hFits
  have hBounds := hDescribed.bounds ht
  have hRange := hDescribed.range
  unfold Fits at hFits
  refine ⟨t, ht, hFree, hHold, fun u hu huFree huHold => ?_,
    c.state.freeRoot + 8 * (actualStart (localAlignment alignment) t.start + 1), s', by omega, ?_,
    hPlaced.allocBase, fun Q => ?_⟩
  · rw [← potential_eq_remaining hDescribed hPos hLt hAlign ht hHold,
      ← potential_eq_remaining hDescribed hPos hLt hAlign hu huHold]
    exact hLeast u hu huFree ((hHolds hu).mp huHold)
  · rw [← localAlignment_eq hAlign, roundUp_eq hReq (by omega), State.address_eq (by omega)]
    rfl
  · rw [dandelionAlloc_open hOpen hPos hLt, hPlacing, hPlace]

theorem Sound.failsClean (hP : P.Sane) (h : Sound P c) (hOpen : c.state.freeRoot ≠ 0)
    (hPos : 0 < size) (hSize : size < 2 ^ 64) (hAlign : alignment < 2 ^ 62) :
    FailsClean P c.state size alignment := by
  obtain ⟨slabs, hLayout⟩ := h.opened hOpen
  have hDescribed := hLayout.described.slabsOf
  intro hNull
  by_cases hLt : size < 2 ^ 63
  · have hReq := request_of_size alignment hPos hLt
    have hWrap := h.noWrap hP hReq
    have hAllocated := allocWords_allocated hP hDescribed hLayout.rooted hReq hWrap size
    rw [dandelionAlloc_open hOpen hPos hLt] at hNull ⊢
    generalize allocWords P c.state (localSize size) (localAlignment alignment) =
      r at hNull hAllocated ⊢
    cases hAllocated with
    | reused hSplit hFree hFits _ _ =>
      have hRoot := hDescribed.rooted
      have hZero := Outcome.ret.inj hNull
      omega
    | wrapped _ _ _ _ => cases hNull
    | refused hNoFit _ hFull =>
      refine ⟨Or.inr ⟨fun t ht hFree hHold => ?_, ?_⟩, rfl, rfl, rfl⟩
      · exact hNoFit t ht hFree ((canHold_iff hDescribed hPos hLt hAlign ht).mp hHold)
      · have hBase := hLayout.base_eq
        have hGrow := (growWords_spec hP hReq).1
        unfold Granted at hFull
        rw [dandelionSbrk_refused hWrap (by omega)]
    | grown _ _ _ _ _ _ =>
      have hRoot := hDescribed.rooted
      have hZero := Outcome.ret.inj hNull
      omega
    | short _ _ _ _ _ => cases hNull
  · rw [dandelionAlloc_rejected hSize (Or.inr (Nat.le_of_not_lt hLt))]
    exact ⟨Or.inl (Nat.le_of_not_lt hLt), rfl, rfl, rfl⟩

/-- In every state of a run whose requests to `dandelion_sbrk` do not wrap. -/
theorem alloc_tight_and_clean (hP : P.Sane) (hRun : Reachable Starts (Step P) c)
    (hOpen : c.state.freeRoot ≠ 0) (hPos : 0 < size) (hSize : size < 2 ^ 64)
    (hAlign : alignment < 2 ^ 62) :
    ServedTightly c.state size alignment ∧ FailsClean P c.state size alignment :=
  have hSound := sound_of_reachable hP hRun
  ⟨hSound.servedTightly hP hOpen hPos hAlign, hSound.failsClean hP hOpen hPos hSize hAlign⟩

theorem alloc_tight_and_clean_after_free :
    ∃ c, Reachable Starts (Step ⟨4096, 4096, 409600, false⟩) c ∧
      (∃ t ∈ slabsOf c.state, t.label = .free ∧ CanHold 40 8 t) ∧
      ServedTightly c.state 40 8 ∧ FailsClean ⟨4096, 4096, 409600, false⟩ c.state 40 8 := by
  obtain ⟨c, hRun, hOpen, hFree⟩ := exists_of_replay (P := ⟨4096, 4096, 409600, false⟩)
    (Step ⟨4096, 4096, 409600, false⟩) [.alloc 100 16, .alloc 200 8, .free 4112]
    (fun c => c.state.freeRoot ≠ 0 ∧ ∃ t ∈ slabsOf c.state, t.label = .free ∧ CanHold 40 8 t)
    (by
      intro c op c' hMem hCall
      refine ⟨hCall.1, ?_, hCall.2⟩
      simp only [List.mem_cons, List.not_mem_nil, or_false] at hMem
      rcases hMem with rfl | rfl | rfl <;> trivial)
    (by decide +kernel)
  have hSane : Platform.Sane ⟨4096, 4096, 409600, false⟩ :=
    ⟨by decide, by decide, by decide, by decide, by decide⟩
  exact ⟨c, hRun, hFree, alloc_tight_and_clean hSane hRun hOpen (by decide) (by decide) (by decide)⟩

/-- A request to `dandelion_sbrk` for what is missing to the whole address space leaves
`alloc_base` at zero, and the next refusal sets it to the start of the heap. -/
theorem alloc_tight_and_clean_fails :
    ∃ c, Reachable Starts (Call ⟨4096, 4096, 409600, false⟩) c ∧ c.state.freeRoot ≠ 0 ∧
      ¬ FailsClean ⟨4096, 4096, 409600, false⟩ c.state 1000000 8 := by
  obtain ⟨c, hRun, hOpen, hNull, hMoved⟩ := exists_of_replay (P := ⟨4096, 4096, 409600, false⟩)
    (Call ⟨4096, 4096, 409600, false⟩) [.alloc 8 8, .sbrk (2 ^ 64 - 8192)]
    (fun c => c.state.freeRoot ≠ 0 ∧
      (dandelionAlloc ⟨4096, 4096, 409600, false⟩ c.state 1000000 8).1 = .ret 0 ∧
      (dandelionAlloc ⟨4096, 4096, 409600, false⟩ c.state 1000000 8).2.allocBase ≠
        c.state.allocBase)
    (fun _ _ _ _ hCall => hCall) (by decide +kernel)
  exact ⟨c, hRun, hOpen, fun hClean => hMoved (hClean hNull).2.1⟩

end Dandelion.Runtime.Heap
