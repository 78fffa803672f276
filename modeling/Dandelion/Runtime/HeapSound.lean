import Dandelion.Runtime.HeapRun

/-! # The heap invariant is kept by every completed call

Each operation is handled once. Together with the invariant it is shown that
the words an operation stores are clear of everything in use at the time.
-/

namespace Dandelion.Runtime.Heap

open Foundation

variable {P : Platform} {c : Config} {slabs : List Slab}

theorem Sound.initial (memory : Nat → Nat) : Sound P ⟨initial memory, [], []⟩ where
  base_mod := rfl
  base_low h := absurd rfl h
  base_high := Nat.zero_le _
  foreign := by simp
  apart := List.Pairwise.nil
  closed _ := rfl
  opened h := absurd rfl h

theorem Described.forget {s : State} (h : Described s slabs) : Described s.forget slabs :=
  ⟨h.rooted, h.range, h.positive, h.tiles, h.marked, h.sentinel, h.sparse⟩

theorem Layout.forget (h : Layout P c slabs) : Layout P { c with state := c.state.forget } slabs :=
  ⟨h.described.forget, ⟨h.rooted.root_mod, h.rooted.base_mod, h.rooted.base_le⟩, h.low,
    h.high, h.room, h.live, h.nodup, h.foreign, h.skips, h.gap⟩

theorem Sound.forget (h : Sound P c) : Sound P { c with state := c.state.forget } :=
  ⟨h.base_mod, h.base_low, h.base_high, h.foreign, h.apart, h.closed, fun hne => by
    obtain ⟨slabs, hLayout⟩ := h.opened hne
    exact ⟨slabs, hLayout.forget⟩⟩

theorem Sound.sbrkBase_spec (hP : P.Sane) (h : Sound P c) :
    sbrkBase P c.state % 8 = 0 ∧ P.heapBegin ≤ sbrkBase P c.state ∧
      c.state.allocBase ≤ sbrkBase P c.state ∧
        sbrkBase P c.state ≤ max P.heapBegin P.heapEnd + 7 := by
  have hHigh := h.base_high
  by_cases hZero : c.state.allocBase = 0
  · have hMod := add_rounding_mod P.heapBegin
    have hRound := rounding_lt P.heapBegin
    rw [sbrkBase_of_eq hP hZero]
    omega
  · rw [sbrkBase_of_ne hZero]
    exact ⟨h.base_mod, h.base_low hZero, le_rfl, hHigh⟩

theorem Sound.noWrap (hP : P.Sane) (h : Sound P c) {size alignment : Nat}
    (hReq : Request size alignment) :
    NoWrap P c.state (getSbrkSize P size alignment) := by
  obtain ⟨hSize, _, hWords⟩ := growWords_spec hP hReq
  obtain ⟨_, _, _, hHigh⟩ := h.sbrkBase_spec hP
  have hBegin := hP.begin_le
  have hEnd := hP.end_le
  rw [NoWrap, hSize, rounding_of_dvd (by omega)]
  omega

theorem Layout.base_eq (h : Layout P c slabs) : sbrkBase P c.state = c.state.allocBase :=
  sbrkBase_of_ne (h.described.base_ne h.rooted)

theorem Sound.move_base (h : Sound P c) {base : Nat} (hMod : base % 8 = 0)
    (hLow : P.heapBegin ≤ base ∨ base = 0) (hMove : c.state.allocBase ≤ base)
    (hHigh : base ≤ max P.heapBegin P.heapEnd + 7)
    (hSame : c.state.freeRoot ≠ 0 → c.foreign = [] → base = c.state.allocBase) :
    Sound P { c with state := { c.state with allocBase := base } } where
  base_mod := hMod
  base_low hne := hLow.resolve_right hne
  base_high := hHigh
  foreign r hr := by
    obtain ⟨hrMod, hrLow, hrHigh, hrBase⟩ := h.foreign r hr
    exact ⟨hrMod, hrLow, hrHigh, hrBase.trans hMove⟩
  apart := h.apart
  closed := h.closed
  opened hne := by
    obtain ⟨slabs, hLayout⟩ := h.opened hne
    refine ⟨slabs, hLayout.described.with_allocBase base, ⟨hLayout.rooted.root_mod, hMod, ?_⟩,
      hLayout.low, hLayout.high, hLayout.room, hLayout.live, hLayout.nodup, hLayout.foreign,
      hLayout.skips, ?_⟩
    · exact hLayout.rooted.base_le.trans hMove
    · intro hNone
      exact (hSame hne hNone).trans (hLayout.gap hNone)

section Sbrk

theorem Sound.sbrk (hP : P.Sane) (h : Sound P c) {size : Nat} (hWrap : NoWrap P c.state size) :
    Sound P ⟨(dandelionSbrk P c.state size).2, c.live,
      if (dandelionSbrk P c.state size).1 = 0 then c.foreign
        else ((dandelionSbrk P c.state size).1, size) :: c.foreign⟩ ∧
      (dandelionSbrk P c.state size).2.stored = c.state.stored := by
  obtain ⟨hMod, hLow, hMove, hHigh⟩ := h.sbrkBase_spec hP
  have hRoundMod := add_rounding_mod size
  have hRoundLt := rounding_lt size
  by_cases hEnd : sbrkBase P c.state + size ≤ P.heapEnd
  · rw [dandelionSbrk_granted hWrap hEnd]
    refine ⟨?_, rfl⟩
    by_cases hZero : sbrkBase P c.state = 0
    · -- a heap that starts at address zero: the caller is told that nothing is left
      simp only [hZero, if_true]
      refine h.move_base (by omega) (Or.inl (by omega)) (by omega) (by omega) ?_
      intro hne
      obtain ⟨slabs, hLayout⟩ := h.opened hne
      have hNonzero := hLayout.described.base_ne hLayout.rooted
      omega
    · simp only [if_neg hZero]
      refine ⟨?_, fun _ => ?_, ?_, ?_, ?_, h.closed, ?_⟩
      · change (sbrkBase P c.state + size + rounding size) % 8 = 0
        omega
      · change P.heapBegin ≤ sbrkBase P c.state + size + rounding size
        omega
      · change sbrkBase P c.state + size + rounding size ≤ _
        omega
      · intro r hr
        change _ ∧ _ ∧ _ ∧ _ ≤ sbrkBase P c.state + size + rounding size
        rcases List.mem_cons.mp hr with rfl | hr
        · exact ⟨hMod, hLow, hEnd, by simp only; omega⟩
        · obtain ⟨hrMod, hrLow, hrHigh, hrBase⟩ := h.foreign r hr
          exact ⟨hrMod, hrLow, hrHigh, by omega⟩
      · refine List.Pairwise.cons ?_ h.apart
        intro r hr
        exact (h.foreign r hr).2.2.2.trans hMove
      · intro hne
        obtain ⟨slabs, hLayout⟩ := h.opened hne
        have hBaseEq := hLayout.base_eq
        have hRootLe := hLayout.rooted.base_le
        refine ⟨slabs, hLayout.described.with_allocBase _, ⟨hLayout.rooted.root_mod, ?_, ?_⟩,
          hLayout.low, hLayout.high, hLayout.room, hLayout.live, hLayout.nodup, ?_,
          fun _ _ _ => by simp, by simp⟩
        · change (sbrkBase P c.state + size + rounding size) % 8 = 0
          omega
        · change _ ≤ sbrkBase P c.state + size + rounding size
          rw [hBaseEq]
          exact hRootLe.trans (by omega)
        · intro r hr
          rcases List.mem_cons.mp hr with rfl | hr
          · refine Or.inr (Or.inr (Or.inl ?_))
            rw [hBaseEq]
            exact hRootLe
          · exact hLayout.foreign r hr
  · rw [dandelionSbrk_refused hWrap (Nat.lt_of_not_le hEnd)]
    refine ⟨h.move_base hMod (Or.inl hLow) hMove hHigh ?_, rfl⟩
    intro hne _
    obtain ⟨slabs, hLayout⟩ := h.opened hne
    exact hLayout.base_eq

end Sbrk

section Store

theorem Described.poke {s : State} (h : Described s slabs) {address value : Nat}
    (hStart : ∀ t ∈ slabs, address - address % 8 ≠ s.freeRoot + 8 * t.start)
    (hStop : ∀ t ∈ slabs, address - address % 8 ≠ s.freeRoot + 8 * t.stop)
    (hLast : address - address % 8 ≠ s.freeRoot + 8 * s.lastDescriptor) :
    Described (s.poke address value) slabs := by
  have hView : ∀ i, address - address % 8 ≠ s.freeRoot + 8 * i →
      (s.poke address value).view i = s.view i :=
    fun i hi => Function.update_of_ne (Ne.symm hi) _ _
  refine ⟨h.rooted, h.range, h.positive, h.tiles, ?_, ?_, h.sparse⟩
  · intro t ht
    obtain ⟨hFirst, hSecond⟩ := h.marked t ht
    exact ⟨(hView _ (hStart t ht)).trans hFirst, (hView _ (hStop t ht)).trans hSecond⟩
  · exact (hView _ hLast).trans h.sentinel

theorem Sound.store (h : Sound P c) {address : Nat} (value : Nat)
    (hIn : ∃ r ∈ c.ranges, InRange address r) :
    Sound P ⟨c.state.poke address value, c.live, c.foreign⟩ where
  base_mod := h.base_mod
  base_low := h.base_low
  base_high := h.base_high
  foreign := h.foreign
  apart := h.apart
  closed := h.closed
  opened hne := by
    obtain ⟨slabs, hLayout⟩ := h.opened hne
    refine ⟨slabs, ?_, ⟨hLayout.rooted.root_mod, hLayout.rooted.base_mod, hLayout.rooted.base_le⟩,
      hLayout.low, hLayout.high, hLayout.room, hLayout.live, hLayout.nodup, hLayout.foreign,
      hLayout.skips, hLayout.gap⟩
    obtain ⟨r, hr, hIn⟩ := hIn
    have hRootMod := hLayout.rooted.root_mod
    -- a descriptor word is clear, so it cannot be the word the store falls into
    have hClear : ∀ i, Clear c (c.state.freeRoot + 8 * i) →
        address - address % 8 ≠ c.state.freeRoot + 8 * i := by
      intro i hi hEq
      exact hi r hr address (by omega) (by omega) hIn
    refine hLayout.described.poke ?_ ?_ ?_
    · intro t ht
      have hBounds := hLayout.described.bounds ht
      exact hClear _ (hLayout.clear_of_boundary (by omega)
        (fun u hu _ => hLayout.described.boundary ht (Or.inl rfl) u hu))
    · intro t ht
      have hBounds := hLayout.described.bounds ht
      exact hClear _ (hLayout.clear_of_boundary (by omega)
        (fun u hu _ => hLayout.described.boundary ht (Or.inr rfl) u hu))
    · refine hClear _ (hLayout.clear_of_boundary le_rfl ?_)
      rintro u hu _ ⟨_, hHigh⟩
      have hBounds := hLayout.described.bounds hu
      omega

end Store

section Free

theorem Layout.live_unique (h : Layout P c slabs) {b b' : Nat × Nat} (hb : b ∈ c.live)
    (hb' : b' ∈ c.live) (hPtr : b.1 = b'.1) : b = b' := by
  obtain ⟨t, ht, hLabel, hStart⟩ := (h.live b).mp hb
  obtain ⟨t', ht', hLabel', hStart'⟩ := (h.live b').mp hb'
  have hBounds := h.described.bounds ht
  have hBounds' := h.described.bounds ht'
  have hEq : t = t' := h.described.tiles.eq_of_overlap ht ht' (by omega) (by omega)
  subst hEq
  rw [hLabel, Owner.block.injEq] at hLabel'
  exact Prod.ext hPtr hLabel'

theorem Layout.free (h : Layout P c slabs) {ptr : Nat} (hLive : ∃ b ∈ c.live, b.1 = ptr) :
    ∃ s' slabs', dandelionFree P c.state ptr = (.ret (), s') ∧
      Layout P ⟨s', c.live.filter (fun b => b.1 ≠ ptr), c.foreign⟩ slabs' ∧
      s'.allocBase = c.state.allocBase ∧ s'.freeRoot = c.state.freeRoot ∧
      ∀ a ∈ s'.stored, a ∈ c.state.stored ∨ Clear c a := by
  obtain ⟨b, hb, rfl⟩ := hLive
  obtain ⟨t, ht, hLabel, hPtr⟩ := (h.live b).mp hb
  have hOcc : t.label ≠ .free := by simp [hLabel]
  obtain ⟨s', slabs', hFree, hFreed⟩ := dandelionFree_freed P h.described ht hOcc
  have hRoot := hFreed.touches.root
  have hBase := hFreed.allocBase
  have hLast := hFreed.lastDescriptor
  refine ⟨s', slabs', by rw [hPtr]; exact hFree,
    ⟨hFreed.described, ?_, ?_, ?_, ?_, ?_, ?_, ?_, ?_, ?_⟩, hBase, hRoot, ?_⟩
  · obtain ⟨hMod, hBaseMod, hLe⟩ := h.rooted
    exact ⟨by rw [hRoot]; exact hMod, by rw [hBase]; exact hBaseMod, by
      rw [hRoot, hLast, hBase]; exact hLe⟩
  · rw [hRoot]
    exact h.low
  · rw [hRoot, hLast]
    exact h.high
  · intro u hu size hBlock
    exact h.room u (hFreed.drops.back u hu (by simp [hBlock])).1 size hBlock
  · intro b'
    rw [List.mem_filter, h.live b', hRoot]
    constructor
    · rintro ⟨⟨u, hu, huLabel, huPtr⟩, hne⟩
      rcases hFreed.drops.forth u hu (by simp [huLabel]) with rfl | hu'
      · exact absurd (huPtr.trans hPtr.symm) (by simpa using hne)
      · exact ⟨u, hu', huLabel, huPtr⟩
    · rintro ⟨u, hu, huLabel, huPtr⟩
      obtain ⟨huOld, hne⟩ := hFreed.drops.back u hu (by simp [huLabel])
      refine ⟨⟨u, huOld, huLabel, huPtr⟩, ?_⟩
      have hApart := h.described.tiles.disjoint huOld ht hne
      have hBounds := h.described.bounds huOld
      have hBounds' := h.described.bounds ht
      have hPtrNe : b'.1 ≠ b.1 := by omega
      simpa using hPtrNe
  · exact h.nodup.filter _
  · intro r hr
    rw [hRoot, hLast]
    rcases h.foreign r hr with hEmpty | hBefore | hAfter | ⟨u, hu, huLabel, huStart, huStop⟩
    · exact Or.inl hEmpty
    · exact Or.inr (Or.inl hBefore)
    · exact Or.inr (Or.inr (Or.inl hAfter))
    · rcases hFreed.drops.forth u hu (by simp [huLabel]) with rfl | hu'
      · rw [hLabel] at huLabel
        cases huLabel
      · exact Or.inr (Or.inr (Or.inr ⟨u, hu', huLabel, huStart, huStop⟩))
  · intro u hu huLabel
    exact h.skips u (hFreed.drops.back u hu (by simp [huLabel])).1 huLabel
  · intro hNone
    rw [hBase, hRoot, hLast]
    exact h.gap hNone
  · intro a ha
    rcases hFreed.touches.stored a ha with ha | ⟨i, hi, rfl⟩
    · exact Or.inl ha
    · exact Or.inr (h.clear_free ht hi)

end Free

end Dandelion.Runtime.Heap
