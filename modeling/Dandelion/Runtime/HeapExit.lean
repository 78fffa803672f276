import Dandelion.Runtime.HeapWalk

/-! # When `dandelion_alloc` ends the program

The search takes a free slab that ends before its own aligned start for a fit,
and growing may add too little after alignment. Both lead to the exit branch.
A request is servable exactly when neither happens, which can be evaluated on
the state in which the call is made.
-/

namespace Dandelion.Runtime.Heap

open Foundation.Runs

variable {P : Platform} {c : Config}

instance (P : Platform) (s : State) (size alignment : Nat) :
    Decidable (Granted P s size alignment) :=
  inferInstanceAs (Decidable (_ ≤ _))

instance (alignment : Nat) (slabs : List Slab) : Decidable (NoUnderflow alignment slabs) :=
  inferInstanceAs (Decidable (∀ u ∈ slabs, _ → ¬ _))

instance (P : Platform) (s : State) (slabs : List Slab) (size alignment : Nat) :
    Decidable (Placeable P s slabs size alignment) :=
  inferInstanceAs (Decidable ((∃ t ∈ slabs, _ ∧ _) ∨ _ ∧ (_ → _)))

/-- The slabs that the descriptor array shows, none if the walk does not end. -/
def slabsOf (s : State) : List Slab := ((wholeWalk s).map Prod.fst).getD []

/-- The request is rejected for its size, the first region cannot be had, or the
slabs at hand have room, or none of them misleads the search and what growing
yields has room. -/
def Servable (P : Platform) (s : State) (size alignment : Nat) : Prop :=
  size = 0 ∨ 2 ^ 63 ≤ size ∨ (openHeap P s (localSize size) (localAlignment alignment)).1 = false ∨
    Placeable P (openHeap P s (localSize size) (localAlignment alignment)).2
      (slabsOf (openHeap P s (localSize size) (localAlignment alignment)).2)
      (localSize size) (localAlignment alignment)

instance (P : Platform) (s : State) (size alignment : Nat) :
    Decidable (Servable P s size alignment) :=
  inferInstanceAs (Decidable (_ ∨ _ ∨ _ ∨ _))

theorem Described.slabsOf {s : State} {slabs : List Slab} (h : Described s slabs) :
    Described s (slabsOf s) := by
  have hSlabs : Heap.slabsOf s = slabs.map Heap.observe := by
    rw [Heap.slabsOf, h.wholeWalk_eq]
    rfl
  rw [hSlabs]
  exact h.observe

theorem Allocated.no_diverge {s : State} {slabs : List Slab} {size alignment bytes : Nat}
    {r : Outcome Nat × State} (h : Allocated P s slabs size alignment bytes r) :
    r.1 ≠ .diverge := by
  cases h <;> simp

theorem Sound.returns_iff (hP : P.Sane) (h : Sound P c) {size : Nat} (hSize : size < 2 ^ 64)
    (alignment : Nat) :
    ((∃ p, (dandelionAlloc P c.state size alignment).1 = .ret p) ↔
      Servable P c.state size alignment) ∧
      (dandelionAlloc P c.state size alignment).1 ≠ .diverge := by
  by_cases hTrivial : size = 0 ∨ 2 ^ 63 ≤ size
  · rw [dandelionAlloc_rejected hSize hTrivial]
    refine ⟨iff_of_true ⟨0, rfl⟩ ?_, by simp⟩
    rcases hTrivial with hZero | hHuge
    · exact Or.inl hZero
    · exact Or.inr (Or.inl hHuge)
  · have hPos : 0 < size := by omega
    have hLt : size < 2 ^ 63 := by omega
    have hReq := request_of_size alignment hPos hLt
    obtain ⟨b, s₁, hOpen, hSound, _, hLayout⟩ := h.open_cases hP hReq
    have hServable : Servable P c.state size alignment ↔ b = false ∨
        Placeable P s₁ (slabsOf s₁) (localSize size) (localAlignment alignment) := by
      rw [Servable, hOpen]
      simp only [show ¬ size = 0 by omega, show ¬ 2 ^ 63 ≤ size by omega, false_or]
    rw [hServable, dandelionAlloc_of_open hPos hLt hOpen]
    cases b with
    | false => exact ⟨iff_of_true ⟨0, rfl⟩ (Or.inl rfl), by simp⟩
    | true =>
      obtain ⟨slabs, hSlabs⟩ := hLayout rfl
      have hAllocated := allocWords_allocated hP hSlabs.described.slabsOf hSlabs.rooted hReq
        (hSound.noWrap hP hReq) size
      rw [if_pos rfl, hAllocated.no_exit_iff]
      exact ⟨by simp, hAllocated.no_diverge⟩

/-- In every state of a run, `dandelion_alloc` returns exactly when the request is
servable there, and otherwise takes its exit branch. -/
theorem alloc_returns_iff_servable (hP : P.Sane) (hRun : Reachable Starts (Step P) c) {size : Nat}
    (hSize : size < 2 ^ 64) (alignment : Nat) :
    ((∃ p, (dandelionAlloc P c.state size alignment).1 = .ret p) ↔
      Servable P c.state size alignment) ∧
      ((∃ code, (dandelionAlloc P c.state size alignment).1 = .exit code) ↔
        ¬ Servable P c.state size alignment) := by
  obtain ⟨hIff, hEnds⟩ := (sound_of_reachable hP hRun).returns_iff hP hSize alignment
  refine ⟨hIff, ?_⟩
  rw [← hIff]
  cases hOutcome : (dandelionAlloc P c.state size alignment).1 with
  | ret p => simp
  | exit code => simp
  | diverge => exact absurd hOutcome hEnds

/-- The first block of a program, aligned as the file system asks for it. -/
theorem alloc_returns_first :
    ∃ p, (dandelionAlloc ⟨4096, 4096, 409600, false⟩ (initial fun _ => 0) 4000 16).1 = .ret p := by
  have hSane : Platform.Sane ⟨4096, 4096, 409600, false⟩ :=
    ⟨by decide, by decide, by decide, by decide, by decide⟩
  have hRun : Reachable Starts (Step ⟨4096, 4096, 409600, false⟩) ⟨initial fun _ => 0, [], []⟩ :=
    .init ⟨_, rfl⟩
  exact (alloc_returns_iff_servable hSane hRun (by decide) 16).1.mpr (by decide +kernel)

/-- A second block of the same size and alignment ends the program. -/
theorem alloc_exits_second :
    ∃ c, Reachable Starts (Step ⟨4096, 4096, 409600, false⟩) c ∧ c.live = [(4112, 4000)] ∧
      (dandelionAlloc ⟨4096, 4096, 409600, false⟩ c.state 4000 16).1 = .exit 1 := by
  obtain ⟨c, hRun, hTest⟩ := exists_of_replay (P := ⟨4096, 4096, 409600, false⟩)
    (Step ⟨4096, 4096, 409600, false⟩) [.alloc 4000 16]
    (fun c => c.live = [(4112, 4000)] ∧
      (dandelionAlloc ⟨4096, 4096, 409600, false⟩ c.state 4000 16).1 = .exit 1)
    (by
      intro c op c' hMem hCall
      obtain rfl := List.mem_singleton.mp hMem
      exact ⟨hCall.1, trivial, hCall.2⟩)
    (by decide +kernel)
  exact ⟨c, hRun, hTest⟩

end Dandelion.Runtime.Heap
