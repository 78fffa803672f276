import Dandelion.Runtime.HeapIsolation

/-! # Walking the descriptor array

Following `end index + 1` from index zero visits the slabs in order and stops at
the last descriptor. The walk sees whether a slab is occupied but not by whom.
From it the coalescing of the heap can be read off.
-/

namespace Dandelion.Runtime.Heap

open Foundation.Words Foundation.Tiling Foundation.Runs

def observe (t : Slab) : Slab := ⟨t.start, t.stop, if t.label = .free then .free else .skip⟩

/-- The slabs visited from an index on, and the index of the `MAX_VAL` that ends the walk. -/
def walk (s : State) : Nat → Nat → Option (List Slab × Nat)
  | 0, _ => none
  | fuel + 1, i =>
    if s.get i = maxVal then some ([], i)
    else
      (walk s fuel (add64 (clearOccupied (s.get i)) 1)).map fun r =>
        (⟨i, clearOccupied (s.get i), if isOccupied (s.get i) then .skip else .free⟩ :: r.1, r.2)

def wholeWalk (s : State) : Option (List Slab × Nat) := walk s (2 ^ 64) 0

variable {P : Platform} {c : Config} {s : State} {slabs : List Slab}

theorem observe_label (t : Slab) : (observe t).label = .free ↔ t.label = .free := by
  unfold observe
  split <;> simp_all

theorem descriptor_observe (t : Slab) (i : Nat) :
    descriptor (observe t).label i = descriptor t.label i := by
  cases hLabel : t.label <;> simp [observe, hLabel, descriptor, Owner.occupied]

theorem Described.observe (h : Described s slabs) : Described s (slabs.map observe) where
  rooted := h.rooted
  range := h.range
  positive := h.positive
  tiles := h.tiles.map (f := Heap.observe) fun _ => ⟨rfl, rfl⟩
  marked := by
    intro t ht
    obtain ⟨u, hu, rfl⟩ := List.mem_map.mp ht
    obtain ⟨hStart, hStop⟩ := h.marked u hu
    exact ⟨hStart.trans (descriptor_observe u _).symm, hStop.trans (descriptor_observe u _).symm⟩
  sentinel := h.sentinel
  sparse := by
    refine (List.isChain_map _).mpr (h.sparse.imp ?_)
    intro t u hApart hBoth
    exact hApart ⟨(observe_label t).mp hBoth.1, (observe_label u).mp hBoth.2⟩

theorem Described.walk_from (h : Described s slabs) {l : List Slab} (hl : ∀ t ∈ l, t ∈ slabs)
    {i fuel : Nat} (hTiles : Tiles i s.lastDescriptor l) (hFuel : l.length < fuel) :
    walk s fuel i = some (l.map Heap.observe, s.lastDescriptor) := by
  induction l generalizing i fuel with
  | nil =>
    obtain ⟨fuel, rfl⟩ := Nat.exists_eq_add_one.mpr (Nat.zero_lt_of_lt hFuel)
    rw [tiles_nil] at hTiles
    rw [walk, hTiles, h.get_last, if_pos rfl]
    rfl
  | cons t l ih =>
    obtain ⟨fuel, rfl⟩ := Nat.exists_eq_add_one.mpr (Nat.zero_lt_of_lt hFuel)
    obtain ⟨rfl, hLe, hRest⟩ := hTiles
    have ht := hl t List.mem_cons_self
    have hBounds := h.bounds ht
    have hLast := h.last_lt
    have hStop : t.stop < topBit := lt_topBit (by omega)
    have hMax : descriptor t.label t.stop ≠ maxVal :=
      tagged_ne_maxWord (by simp only [topBit]; omega)
    have hRec := ih (fun u hu => hl u (List.mem_cons_of_mem _ hu)) hRest (by simpa using hFuel)
    rw [walk, h.get_start ht, clearOccupied_descriptor hStop, isOccupied_descriptor hStop,
      if_neg hMax, add64_of_lt (by omega), hRec]
    cases hLabel : t.label <;> simp [Heap.observe, hLabel, Owner.occupied]

theorem Described.wholeWalk_eq (h : Described s slabs) :
    wholeWalk s = some (slabs.map Heap.observe, s.lastDescriptor) := by
  have hLength := h.tiles.length_le
  have hLast := h.last_lt
  exact h.walk_from (fun _ => id) h.tiles (by omega)

/-- The slabs that a walk visits are consistent: the starts increase, the two
descriptors of a slab name each other, and free slabs are not neighbours. -/
structure Coalesced (s : State) (slabs : List Slab) : Prop where
  increasing : (slabs.map Span.start).Pairwise (· < ·)
  below : ∀ t ∈ slabs, t.start ≤ t.stop ∧ t.stop < s.lastDescriptor
  paired : ∀ t ∈ slabs, clearOccupied (s.get t.start) = t.stop ∧
    clearOccupied (s.get t.stop) = t.start
  flags : ∀ t ∈ slabs, isOccupied (s.get t.start) = isOccupied (s.get t.stop) ∧
    (isOccupied (s.get t.start) = true ↔ t.label ≠ .free)
  sparse : Sparse (· = Owner.free) slabs

theorem Described.coalesced (h : Described s slabs) : Coalesced s slabs where
  increasing := h.tiles.starts_increasing
  below t ht := h.bounds ht
  paired t ht := by
    have hBounds := h.bounds ht
    have hLast := h.last_lt
    rw [h.get_start ht, h.get_stop ht]
    exact ⟨clearOccupied_descriptor (lt_topBit (by omega)),
      clearOccupied_descriptor (lt_topBit (by omega))⟩
  flags t ht := by
    have hBounds := h.bounds ht
    have hLast := h.last_lt
    rw [h.get_start ht, h.get_stop ht, isOccupied_descriptor (lt_topBit (by omega)),
      isOccupied_descriptor (lt_topBit (by omega))]
    exact ⟨rfl, Owner.occupied_eq_true⟩
  sparse := h.sparse

theorem Layout.single (h : Layout P c slabs) (hLive : c.live = []) (hForeign : c.foreign = []) :
    slabs = [⟨0, c.state.lastDescriptor - 1, .free⟩] := by
  have hAll : ∀ t ∈ slabs, t.label = .free := by
    intro t ht
    cases hLabel : t.label with
    | free => rfl
    | block size =>
      have hMem : (c.state.freeRoot + 8 * (t.start + 1), size) ∈ c.live :=
        (h.live _).mpr ⟨t, ht, hLabel, rfl⟩
      rw [hLive] at hMem
      exact absurd hMem List.not_mem_nil
    | skip => exact absurd hForeign (h.skips t ht hLabel)
  obtain ⟨t, rfl, hStart, hStop⟩ :=
    h.described.sparse.eq_single h.described.tiles h.described.positive hAll
  have hLabel := hAll t List.mem_cons_self
  obtain ⟨start, stop, label⟩ := t
  simp only at hStart hStop hLabel
  rw [hStart, hLabel, ← hStop, Nat.add_sub_cancel]

section Runs

/-- In every state of a run in which no request to `dandelion_sbrk` wraps, the walk
ends at the last descriptor and the slabs it visits are coalesced; the live blocks
have their room; and an unused heap is a single free slab. -/
theorem heap_coalesced (hP : P.Sane) (hRun : Reachable Starts (Step P) c)
    (hOpen : c.state.freeRoot ≠ 0) :
    ∃ slabs, wholeWalk c.state = some (slabs, c.state.lastDescriptor) ∧
      c.state.get c.state.lastDescriptor = maxVal ∧ Coalesced c.state slabs ∧
      (∀ b ∈ c.live, ∃ t ∈ slabs, t.label ≠ .free ∧ b.1 = c.state.address (t.start + 1) ∧
        (b.2 + 7) / 8 ≤ t.stop - t.start - 1) ∧
      (c.foreign = [] → c.live = [] → slabs = [⟨0, c.state.lastDescriptor - 1, .free⟩]) := by
  obtain ⟨slabs, hLayout⟩ := (sound_of_reachable hP hRun).opened hOpen
  have hDescribed := hLayout.described
  refine ⟨slabs.map observe, hDescribed.wholeWalk_eq, hDescribed.get_last,
    hDescribed.observe.coalesced, ?_, ?_⟩
  · intro b hb
    obtain ⟨t, ht, hLabel, hPtr⟩ := (hLayout.live b).mp hb
    obtain ⟨_, hRoom⟩ := hLayout.room t ht b.2 hLabel
    have hBounds := hDescribed.bounds ht
    have hRange := hDescribed.range
    refine ⟨observe t, List.mem_map_of_mem ht, fun hFree => ?_, ?_, ?_⟩
    · rw [observe_label, hLabel] at hFree
      cases hFree
    · rw [hPtr]
      exact (State.address_eq (show c.state.freeRoot + 8 * (t.start + 1) < 2 ^ 64 by omega)).symm
    · change (b.2 + 7) / 8 ≤ t.stop - t.start - 1
      omega
  · intro hForeign hLive
    rw [hLayout.single hLive hForeign]
    rfl

/-- After two blocks were handed out and freed again the heap is one free slab. -/
theorem heap_coalesced_after_frees :
    ∃ c, Reachable Starts (Step ⟨4096, 4096, 409600, false⟩) c ∧ c.live = [] ∧
      wholeWalk c.state = some ([⟨0, c.state.lastDescriptor - 1, .free⟩],
        c.state.lastDescriptor) := by
  obtain ⟨c, hRun, hOpen, hLive, hForeign⟩ := exists_of_replay (P := ⟨4096, 4096, 409600, false⟩)
    (Step ⟨4096, 4096, 409600, false⟩)
    [.alloc 100 16, .alloc 5000 8, .free 4112, .free 4232]
    (fun c => c.state.freeRoot ≠ 0 ∧ c.live = [] ∧ c.foreign = [])
    (by
      intro c op c' hMem hCall
      refine ⟨hCall.1, ?_, hCall.2⟩
      simp only [List.mem_cons, List.not_mem_nil, or_false] at hMem
      rcases hMem with rfl | rfl | rfl | rfl <;> trivial)
    (by decide +kernel)
  have hSane : Platform.Sane ⟨4096, 4096, 409600, false⟩ :=
    ⟨by decide, by decide, by decide, by decide, by decide⟩
  obtain ⟨slabs, hWalk, _, _, _, hSingle⟩ := heap_coalesced hSane hRun hOpen
  exact ⟨c, hRun, hLive, by rw [hWalk, hSingle hForeign hLive]⟩

/-- A request to `dandelion_sbrk` for all but sixteen bytes of the address space moves
the unused heap back into the last slab: the end descriptor at 510 then names 511. -/
theorem heap_coalesced_fails :
    ∃ c, Reachable Starts (Call ⟨4096, 4096, 409600, false⟩) c ∧ c.state.freeRoot ≠ 0 ∧
      wholeWalk c.state =
        some ([⟨0, 2, .skip⟩, ⟨3, 510, .free⟩, ⟨511, 1024, .skip⟩, ⟨1025, 1532, .free⟩],
        c.state.lastDescriptor) ∧
      clearOccupied (c.state.get 510) = 511 := by
  obtain ⟨c, hRun, hTest⟩ := exists_of_replay (P := ⟨4096, 4096, 409600, false⟩)
    (Call ⟨4096, 4096, 409600, false⟩)
    [.alloc 8 8, .sbrk (2 ^ 64 - 16), .alloc 4096 8]
    (fun c => c.state.freeRoot ≠ 0 ∧
      wholeWalk c.state =
        some ([⟨0, 2, .skip⟩, ⟨3, 510, .free⟩, ⟨511, 1024, .skip⟩, ⟨1025, 1532, .free⟩],
        c.state.lastDescriptor) ∧
      clearOccupied (c.state.get 510) = 511)
    (fun _ _ _ _ hCall => hCall) (by decide +kernel)
  exact ⟨c, hRun, hTest⟩

end Runs

end Dandelion.Runtime.Heap
