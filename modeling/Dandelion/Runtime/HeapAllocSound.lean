import Dandelion.Runtime.HeapSound

/-! # Allocation keeps the heap invariant

A call that opens or grows the heap does so before it places the block, and
the invariant already holds in between.
-/

namespace Dandelion.Runtime.Heap

open Foundation

variable {P : Platform} {c : Config} {slabs : List Slab}

theorem Layout.place {before after slabs' : List Slab} {t : Slab} {s' : State}
    {start size bytes : Nat} (h : Layout P c (before ++ t :: after)) (hFree : t.label = .free)
    (hLow : t.start ≤ start) (hHigh : start ≤ t.stop)
    (hPlaced : Placed c.state s' before t after start size bytes slabs') (hPos : 0 < bytes)
    (hSize : size = (bytes + 7) / 8) :
    Layout P ⟨s', (c.state.freeRoot + 8 * (start + 1), bytes) :: c.live, c.foreign⟩ slabs' := by
  obtain ⟨stop, hStop, hAdds⟩ := hPlaced.adds
  have hRoot := hPlaced.touches.root
  have hBase := hPlaced.allocBase
  have hLast := hPlaced.lastDescriptor
  -- an old occupied slab does not start where the new block does
  have hOther : ∀ u ∈ before ++ t :: after, u.label ≠ .free → u.start ≠ start := by
    intro u hu hOcc hEq
    have hBounds := h.described.bounds hu
    have hSame : u = t := h.described.tiles.eq_of_overlap hu (by simp) (by omega) (by omega)
    exact hOcc (hSame ▸ hFree)
  refine ⟨hPlaced.described, ?_, ?_, ?_, ?_, ?_, ?_, ?_, ?_, ?_⟩
  · obtain ⟨hMod, hBaseMod, hLe⟩ := h.rooted
    exact ⟨by rw [hRoot]; exact hMod, by rw [hBase]; exact hBaseMod, by
      rw [hRoot, hLast, hBase]; exact hLe⟩
  · rw [hRoot]
    exact h.low
  · rw [hRoot, hLast]
    exact h.high
  · intro u hu n hLabel
    rcases hAdds.back u hu (by simp [hLabel]) with rfl | ⟨u', hu', hLabel', hStart', hStop'⟩
    · obtain rfl : bytes = n := by simpa using hLabel
      exact ⟨hPos, by simp only; omega⟩
    · obtain ⟨hnPos, hRoom⟩ := h.room u' hu' n (hLabel'.trans hLabel)
      exact ⟨hnPos, by omega⟩
  · intro b
    rw [List.mem_cons, h.live b, hRoot]
    constructor
    · rintro (rfl | ⟨u, hu, hLabel, hPtr⟩)
      · exact ⟨_, hAdds.mem, rfl, rfl⟩
      · obtain ⟨u', hu', hLabel', hStart', _⟩ := hAdds.forth u hu (by simp [hLabel])
        exact ⟨u', hu', hLabel'.trans hLabel, by rw [hStart']; exact hPtr⟩
    · rintro ⟨u, hu, hLabel, hPtr⟩
      rcases hAdds.back u hu (by simp [hLabel]) with rfl | ⟨u', hu', hLabel', hStart', _⟩
      · left
        exact Prod.ext hPtr (by simpa using hLabel.symm)
      · right
        exact ⟨u', hu', hLabel'.trans hLabel, by rw [hStart']; exact hPtr⟩
  · refine List.nodup_cons.mpr ⟨?_, h.nodup⟩
    intro hMem
    obtain ⟨u, hu, hLabel, hPtr⟩ := (h.live _).mp hMem
    simp only at hPtr
    exact hOther u hu (by simp [hLabel]) (by omega)
  · intro r hr
    rw [hRoot, hLast]
    rcases h.foreign r hr with hEmpty | hBefore | hAfter | ⟨u, hu, huLabel, huStart, huStop⟩
    · exact Or.inl hEmpty
    · exact Or.inr (Or.inl hBefore)
    · exact Or.inr (Or.inr (Or.inl hAfter))
    · obtain ⟨u', hu', hLabel', hStart', hStop'⟩ := hAdds.forth u hu (by simp [huLabel])
      exact Or.inr
        (Or.inr (Or.inr ⟨u', hu', hLabel'.trans huLabel, by rw [hStart']; exact huStart, by omega⟩))
  · intro u hu huLabel
    rcases hAdds.back u hu (by simp [huLabel]) with rfl | ⟨u', hu', hLabel', _⟩
    · cases huLabel
    · exact h.skips u' hu' (hLabel'.trans huLabel)
  · intro hNone
    rw [hBase, hRoot, hLast]
    exact h.gap hNone

theorem Layout.grow {slabs' : List Slab} {t : Slab} {s' : State} {words : Nat} (hSound : Sound P c)
    (h : Layout P c slabs) (hGrown : Grown c.state s' slabs words t slabs')
    (hEnd : s'.allocBase ≤ P.heapEnd) :
    Layout P ⟨s', c.live, c.foreign⟩ slabs' := by
  obtain ⟨_, _, hTouch⟩ := hGrown.touches
  have hRoot := hTouch.root
  have hBase := hGrown.allocBase
  have hGranted := hGrown.granted
  obtain ⟨hMod, hBaseMod, hBaseLe⟩ := h.rooted
  -- old occupied slabs stay, and only a skip slab can be new
  have hForth : ∀ u ∈ slabs, u.label ≠ .free →
      ∃ u' ∈ slabs', u'.label = u.label ∧ u'.start = u.start ∧ u.stop ≤ u'.stop := by
    rcases hGrown.layout with ⟨hKept, _⟩ | ⟨skipEnd, rfl, _, _⟩
    · exact hKept.forth
    · intro u hu _
      exact ⟨u, List.mem_append_left _ hu, rfl, rfl, le_rfl⟩
  have hBack : ∀ u ∈ slabs', u.label ≠ .free → u.label = .skip ∧ c.foreign ≠ [] ∨
      ∃ u' ∈ slabs, u'.label = u.label ∧ u'.start = u.start ∧ u'.stop ≤ u.stop := by
    intro u hu hOcc
    rcases hGrown.layout with ⟨hKept, _⟩ | ⟨skipEnd, rfl, hGap, _⟩
    · exact Or.inr (hKept.back u hu hOcc)
    · rcases List.mem_append.mp hu with hu | hu
      · exact Or.inr ⟨u, hu, rfl, rfl, le_rfl⟩
      · rcases List.mem_cons.mp hu with rfl | hu
        · refine Or.inl ⟨rfl, fun hNone => ?_⟩
          have := h.gap hNone
          omega
        · obtain rfl := List.mem_singleton.mp hu
          exact absurd hGrown.free hOcc
  have hRooted : Rooted s' := ⟨by omega, by omega, hBase.ge⟩
  refine ⟨hGrown.described, hRooted, ?_, ?_, ?_, ?_, h.nodup, ?_, ?_, ?_⟩
  · rw [hRoot]
    exact h.low
  · rw [← hBase]
    exact hEnd
  · intro u hu n hLabel
    rcases hBack u hu (by simp [hLabel]) with ⟨hSkip, _⟩ | ⟨u', hu', hLabel', hStart', hStop'⟩
    · rw [hLabel] at hSkip
      cases hSkip
    · obtain ⟨hnPos, hRoom⟩ := h.room u' hu' n (hLabel'.trans hLabel)
      exact ⟨hnPos, by omega⟩
  · intro b
    rw [h.live b, hRoot]
    constructor
    · rintro ⟨u, hu, hLabel, hPtr⟩
      obtain ⟨u', hu', hLabel', hStart', _⟩ := hForth u hu (by simp [hLabel])
      exact ⟨u', hu', hLabel'.trans hLabel, by rw [hStart']; exact hPtr⟩
    · rintro ⟨u, hu, hLabel, hPtr⟩
      rcases hBack u hu (by simp [hLabel]) with ⟨hSkip, _⟩ | ⟨u', hu', hLabel', hStart', _⟩
      · rw [hLabel] at hSkip
        cases hSkip
      · exact ⟨u', hu', hLabel'.trans hLabel, by rw [hStart']; exact hPtr⟩
  · intro r hr
    have hrBase := (hSound.foreign r hr).2.2.2
    rw [hRoot]
    rcases h.foreign r hr with hEmpty | hBefore | hAfter | ⟨u, hu, huLabel, huStart, huStop⟩
    · exact Or.inl hEmpty
    · exact Or.inr (Or.inl hBefore)
    · rcases hGrown.layout with ⟨_, hHere⟩ | ⟨skipEnd, rfl, _, hSkipEnd⟩
      · exact Or.inl (by omega)
      · exact Or.inr
          (Or.inr (Or.inr ⟨⟨c.state.lastDescriptor, skipEnd, .skip⟩, by simp, rfl, hAfter,
          by simp only; omega⟩))
    · obtain ⟨u', hu', hLabel', hStart', hStop'⟩ := hForth u hu (by simp [huLabel])
      exact Or.inr
        (Or.inr (Or.inr ⟨u', hu', hLabel'.trans huLabel, by rw [hStart']; exact huStart, by omega⟩))
  · intro u hu huLabel
    rcases hBack u hu (by simp [huLabel]) with ⟨_, hSome⟩ | ⟨u', hu', hLabel', _⟩
    · exact hSome
    · exact h.skips u' hu' (hLabel'.trans huLabel)
  · intro _
    exact hBase

theorem Sound.of_layout (h : Sound P c) {s' : State} {live : List (Nat × Nat)}
    (hLayout : Layout P ⟨s', live, c.foreign⟩ slabs) (hMove : c.state.allocBase ≤ s'.allocBase)
    (hLow : P.heapBegin ≤ s'.allocBase) (hHigh : s'.allocBase ≤ max P.heapBegin P.heapEnd + 7) :
    Sound P ⟨s', live, c.foreign⟩ where
  base_mod := hLayout.rooted.base_mod
  base_low _ := hLow
  base_high := hHigh
  foreign r hr := by
    obtain ⟨hrMod, hrLow, hrHigh, hrBase⟩ := h.foreign r hr
    exact ⟨hrMod, hrLow, hrHigh, hrBase.trans hMove⟩
  apart := h.apart
  closed hNull := absurd hNull (Nat.ne_of_gt hLayout.described.rooted)
  opened _ := ⟨slabs, hLayout⟩

theorem Layout.base_low (h : Layout P c slabs) : P.heapBegin ≤ c.state.allocBase := by
  have hLow := h.low
  have hBase := h.rooted.base_le
  omega

structure Served (P : Platform) (c : Config) (p : Nat) (s' : State) (bytes : Nat) : Prop where
  sound : Sound P ⟨s', if p = 0 then c.live else (p, bytes) :: c.live, c.foreign⟩
  stored : ∀ a ∈ s'.stored, a ∈ c.state.stored ∨ Clear c a

theorem Layout.served (hSound : Sound P c) (h : Layout P c slabs) {bytes alignment : Nat}
    (hPos : 0 < bytes) (hLt : bytes < 2 ^ 63) {p : Nat} {s' : State}
    (hAlloc : Allocated P c.state slabs (localSize bytes) (localAlignment alignment) bytes
      (.ret p, s')) :
    Served P c p s' bytes := by
  have hSize := localSize_eq hLt
  have hHigh := hSound.base_high
  cases hAlloc with
  | @reused before after slabs' t _ hSplit hFree hFits hLeast hPlaced =>
    subst hSplit
    unfold Fits at hFits
    have hLayout :=
      h.place hFree (by unfold actualStart; omega) (by unfold actualStart; omega) hPlaced hPos hSize
    have hBase := hPlaced.allocBase
    refine ⟨?_, ?_⟩
    · rw [if_neg (by have := h.described.rooted; omega)]
      exact hSound.of_layout hLayout hBase.ge (by rw [hBase]; exact h.base_low)
        (by rw [hBase]; exact hHigh)
    · intro a ha
      rcases hPlaced.touches.stored a ha with ha | ⟨i, hi, rfl⟩
      · exact Or.inl ha
      · exact Or.inr (h.clear_place hFree hi)
  | refused _ _ _ =>
    refine ⟨?_, fun a ha => Or.inl ha⟩
    rw [if_pos rfl]
    exact hSound
  | @grown before after slabs' s₁ _ _ _ hGranted hGrown hFits hPlaced =>
    have hAllocBase := hGrown.granted
    unfold Granted at hGranted
    have hLayout₁ := h.grow hSound hGrown (by omega)
    have hSound₁ := hSound.of_layout hLayout₁ (by omega) hLayout₁.base_low (by omega)
    unfold Fits at hFits
    have hLayout := hLayout₁.place hGrown.free (by unfold actualStart; omega)
      (by unfold actualStart; omega)
      hPlaced hPos hSize
    have hBase := hPlaced.allocBase
    obtain ⟨first, hFirst, hTouch⟩ := hGrown.touches
    rw [hTouch.root] at hLayout
    refine ⟨?_, ?_⟩
    · rw [if_neg (by have := h.described.rooted; omega)]
      exact hSound₁.of_layout hLayout hBase.ge (by rw [hBase]; exact hLayout₁.base_low)
        (by rw [hBase]; exact hSound₁.base_high)
    · intro a ha
      rcases hPlaced.touches.stored a ha with ha | ⟨i, hi, rfl⟩
      · rcases hTouch.stored a ha with ha | ⟨i, hi, rfl⟩
        · exact Or.inl ha
        · exact Or.inr (hSound.clear_grow h hFirst hi)
      · exact Or.inr (hLayout₁.clear_place hGrown.free hi)

theorem Sound.open_heap (hP : P.Sane) (h : Sound P c) (hNull : c.state.freeRoot = 0) {s' : State}
    {words : Nat} (hEnd : sbrkBase P c.state + 8 * words ≤ P.heapEnd)
    (hOpened : Opened P c.state s' words) (hWords : 2 ≤ words) :
    Layout P ⟨s', c.live, c.foreign⟩ [⟨0, words - 2, .free⟩] ∧ Sound P ⟨s', c.live, c.foreign⟩ ∧
      ∀ a ∈ s'.stored, a ∈ c.state.stored ∨ Clear c a := by
  obtain ⟨hMod, hLow, hMove, hHigh⟩ := h.sbrkBase_spec hP
  have hRoot := hOpened.root
  have hLast := hOpened.last
  have hBase := hOpened.allocBase
  have hLive := h.closed hNull
  have hTop : s'.freeRoot + 8 * (s'.lastDescriptor + 1) = s'.allocBase := by
    rw [hRoot, hLast, hBase]
    omega
  have hLayout : Layout P ⟨s', c.live, c.foreign⟩ [⟨0, words - 2, .free⟩] := by
    refine ⟨hOpened.described, ⟨?_, ?_, hTop.le⟩, ?_, ?_, by simp, ?_, ?_, ?_, by simp,
      fun _ => hTop.symm⟩
    · rw [hRoot]
      exact hMod
    · rw [hBase]
      omega
    · rw [hRoot]
      exact hLow
    · rw [hTop, hBase]
      exact hEnd
    · intro b
      simp [hLive]
    · simp [hLive]
    · intro r hr
      have hrBase := (h.foreign r hr).2.2.2
      refine Or.inr (Or.inl ?_)
      rw [hRoot]
      omega
  refine ⟨hLayout, h.of_layout hLayout (by rw [hBase]; omega) hLayout.base_low
    (by rw [hBase]; omega), ?_⟩
  intro a ha
  rcases hOpened.stored a ha with ha | ⟨i, _, rfl⟩
  · exact Or.inl ha
  · right
    intro r hr x hxLow _ hIn
    rw [Config.ranges, hLive, List.nil_append] at hr
    have hrBase := (h.foreign r hr).2.2.2
    unfold InRange at hIn
    omega

theorem Sound.open_cases (hP : P.Sane) (h : Sound P c) {size alignment : Nat}
    (hReq : Request size alignment) :
    ∃ b s₁, openHeap P c.state size alignment = (b, s₁) ∧ Sound P ⟨s₁, c.live, c.foreign⟩ ∧
      (∀ a ∈ s₁.stored, a ∈ c.state.stored ∨ Clear c a) ∧
      (b = true → ∃ slabs, Layout P ⟨s₁, c.live, c.foreign⟩ slabs) := by
  have hWrap := h.noWrap hP hReq
  by_cases hNull : c.state.freeRoot = 0
  · obtain ⟨hSize, hWords, _⟩ := growWords_spec hP hReq
    obtain ⟨hMod, hLow, hMove, hHigh⟩ := h.sbrkBase_spec hP
    by_cases hEnd : sbrkBase P c.state + 8 * growWords P size alignment ≤ P.heapEnd
    · by_cases hZero : sbrkBase P c.state = 0
      · refine ⟨_, _, openHeap_null hP hReq hNull hWrap hEnd hZero, ?_,
          fun a ha => Or.inl ha, by simp⟩
        refine h.move_base (by omega) (Or.inl (by omega)) (by omega) (by omega) ?_
        exact fun hne => absurd hNull hne
      · obtain ⟨s₁, hOpen, hOpened⟩ := openHeap_granted hP hReq hNull hWrap hEnd hZero
        obtain ⟨hLayout, hSound, hStored⟩ := h.open_heap hP hNull hEnd hOpened (by omega)
        exact ⟨_, _, hOpen, hSound, hStored, fun _ => ⟨_, hLayout⟩⟩
    · refine ⟨_, _, openHeap_refused hP hReq hNull hWrap (Nat.lt_of_not_le hEnd), ?_,
        fun a ha => Or.inl ha, by simp⟩
      refine h.move_base hMod (Or.inl hLow) hMove hHigh ?_
      exact fun hne => absurd hNull hne
  · exact ⟨_, _, openHeap_open hNull, h, fun a ha => Or.inl ha, fun _ => h.opened hNull⟩

theorem dandelionAlloc_rejected {s : State} {bytes alignment : Nat} (hBytes : bytes < 2 ^ 64)
    (h : bytes = 0 ∨ 2 ^ 63 ≤ bytes) : dandelionAlloc P s bytes alignment = (.ret 0, s) := by
  rw [dandelionAlloc, isOccupied_eq hBytes]
  rcases h with rfl | h
  · rfl
  · rw [decide_eq_true h, if_pos rfl]

theorem dandelionAlloc_of_open {s s₁ : State} {b : Bool} {bytes alignment : Nat} (hPos : 0 < bytes)
    (hLt : bytes < 2 ^ 63) (hOpen : openHeap P s (localSize bytes) (localAlignment alignment) =
      (b, s₁)) :
    dandelionAlloc P s bytes alignment =
      if b then allocWords P s₁ (localSize bytes) (localAlignment alignment) else (.ret 0, s₁) := by
  have hFlag : isOccupied bytes = false := by
    rw [isOccupied_eq (by omega)]
    simpa using hLt
  rw [dandelionAlloc, hFlag, if_neg Bool.false_ne_true, if_neg (Nat.ne_of_gt hPos), hOpen]
  cases b <;> rfl

theorem Sound.served (hP : P.Sane) (h : Sound P c) {bytes alignment : Nat} (hBytes : bytes < 2 ^ 64)
    {p : Nat} {s' : State} (hAlloc : dandelionAlloc P c.state bytes alignment = (.ret p, s')) :
    Served P c p s' bytes := by
  by_cases hTrivial : bytes = 0 ∨ 2 ^ 63 ≤ bytes
  · rw [dandelionAlloc_rejected hBytes hTrivial, Prod.mk.injEq, Outcome.ret.injEq] at hAlloc
    obtain ⟨rfl, rfl⟩ := hAlloc
    exact ⟨by rw [if_pos rfl]; exact h, fun a ha => Or.inl ha⟩
  · have hPos : 0 < bytes := by omega
    have hLt : bytes < 2 ^ 63 := by omega
    have hReq := request_of_size alignment hPos hLt
    obtain ⟨b, s₁, hOpen, hSound, hStored, hLayout⟩ := h.open_cases hP hReq
    rw [dandelionAlloc_of_open hPos hLt hOpen] at hAlloc
    cases b with
    | false =>
      rw [if_neg Bool.false_ne_true, Prod.mk.injEq, Outcome.ret.injEq] at hAlloc
      obtain ⟨rfl, rfl⟩ := hAlloc
      exact ⟨by rw [if_pos rfl]; exact hSound, hStored⟩
    | true =>
      rw [if_pos rfl] at hAlloc
      obtain ⟨slabs, hSlabs⟩ := hLayout rfl
      have hAllocated := allocWords_allocated hP hSlabs.described hSlabs.rooted hReq
        (hSound.noWrap hP hReq) bytes
      rw [hAlloc] at hAllocated
      obtain ⟨hServed, hServedStored⟩ := hSlabs.served hSound hPos hLt hAllocated
      refine ⟨hServed, fun a ha => ?_⟩
      rcases hServedStored a ha with ha | hClear
      · exact hStored a ha
      · exact Or.inr hClear

end Dandelion.Runtime.Heap
