import Dandelion.Runtime.HeapGrow
import Dandelion.Runtime.HeapPlace

/-! # What `dandelion_alloc` can do

On a described heap the call ends in one of five ways. It takes its exit
branch exactly when no free slab has room and either some free slab ends before
its own aligned start, or the slab obtained by growing has no room.
-/

namespace Dandelion.Runtime.Heap

open Foundation Foundation.Words

/-- The heap has room for the growth that the request asks for. -/
def Granted (P : Platform) (s : State) (size alignment : Nat) : Prop :=
  s.allocBase + 8 * growWords P size alignment ≤ P.heapEnd

def NoFit (size alignment : Nat) (slabs : List Slab) : Prop :=
  ∀ u ∈ slabs, u.label = .free → ¬ Fits size alignment u

def NoUnderflow (alignment : Nat) (slabs : List Slab) : Prop :=
  ∀ u ∈ slabs, u.label = .free → ¬ Underflows alignment u

variable {P : Platform} {s : State} {slabs : List Slab} {size alignment : Nat}

inductive Allocated (P : Platform) (s : State) (slabs : List Slab) (size alignment bytes : Nat) :
    Outcome Nat × State → Prop
  | reused {before after slabs' : List Slab} {t : Slab} {s' : State}
      (split : slabs = before ++ t :: after) (free : t.label = .free) (fits : Fits size alignment t)
      (least : ∀ u ∈ slabs, u.label = .free → Fits size alignment u →
        potential alignment t ≤ potential alignment u)
      (placed : Placed s s' before t after (actualStart alignment t.start) size bytes slabs') :
      Allocated P s slabs size alignment bytes
        (.ret (s.freeRoot + 8 * (actualStart alignment t.start + 1)), s')
  | wrapped {t : Slab} {s' : State} (mem : t ∈ slabs) (free : t.label = .free)
      (underflows : Underflows alignment t) (noFit : NoFit size alignment slabs) :
      Allocated P s slabs size alignment bytes (.exit (skipIndices alignment t.start), s')
  | refused (noFit : NoFit size alignment slabs) (noUnderflow : NoUnderflow alignment slabs)
      (full : ¬ Granted P s size alignment) : Allocated P s slabs size alignment bytes (.ret 0, s)
  | grown {before after slabs' : List Slab} {s₁ s' : State}
      (noFit : NoFit size alignment slabs) (noUnderflow : NoUnderflow alignment slabs)
      (granted : Granted P s size alignment)
      (grown : Grown s s₁ slabs (growWords P size alignment)
        (grownSlab s slabs (growWords P size alignment))
        (before ++ grownSlab s slabs (growWords P size alignment) :: after))
      (fits : Fits size alignment (grownSlab s slabs (growWords P size alignment)))
      (placed : Placed s₁ s' before (grownSlab s slabs (growWords P size alignment)) after
        (actualStart alignment (grownSlab s slabs (growWords P size alignment)).start) size
          bytes slabs') :
      Allocated P s slabs size alignment bytes
        (.ret (s.freeRoot + 8 *
          (actualStart alignment (grownSlab s slabs (growWords P size alignment)).start + 1)), s')
  | short (s' : State) (noFit : NoFit size alignment slabs)
      (noUnderflow : NoUnderflow alignment slabs)
      (granted : Granted P s size alignment)
      (noRoom : ¬ Fits size alignment (grownSlab s slabs (growWords P size alignment))) :
      Allocated P s slabs size alignment bytes
        (.exit (skipIndices alignment (grownSlab s slabs (growWords P size alignment)).start), s')

theorem Underflows.not_fits {t : Slab} (h : Underflows alignment t) : ¬ Fits size alignment t := by
  unfold Underflows at h
  unfold Fits
  omega

theorem Described.search_ne (h : Described s slabs) {t : Slab} (ht : t ∈ slabs) {r : Nat × Nat}
    (hStart : r.1 = t.start) (hMax : r.2 = maxVal ↔ r = (maxVal, maxVal)) : r.2 ≠ maxVal := by
  intro hEq
  have hPair := congrArg Prod.fst (hMax.mp hEq)
  have hBounds := h.bounds ht
  have hLast := h.last_lt
  simp only [maxVal, maxWord] at hPair
  omega

theorem allocWords_of_fit (h : Described s slabs) (hReq : Request size alignment)
    (hFit : ¬ NoFit size alignment slabs) :
    ∃ t ∈ slabs, t.label = .free ∧ Fits size alignment t ∧
      (∀ u ∈ slabs, u.label = .free → Fits size alignment u →
        potential alignment t ≤ potential alignment u) ∧
      ∀ P, allocWords P s size alignment = placeBlock s t.start size alignment := by
  obtain ⟨r, hSearch, hFound, hMax⟩ := searchFit_found h hReq
  cases hFound with
  | fit t ht hFree hFits hLeast =>
    have hNe := h.search_ne ht rfl hMax
    refine ⟨t, ht, hFree, hFits, hLeast, fun P => ?_⟩
    rw [allocWords, hSearch]
    simp only [if_neg hNe]
  | wrapped t _ _ _ hNoFit => exact absurd hNoFit hFit
  | nothing hNoFit _ => exact absurd hNoFit hFit

theorem allocWords_allocated (hP : P.Sane) (h : Described s slabs) (hRoot : Rooted s)
    (hReq : Request size alignment) (hWrap : NoWrap P s (getSbrkSize P size alignment))
    (bytes : Nat) :
    Allocated P s slabs size alignment bytes (allocWords P s size alignment) := by
  by_cases hFit : NoFit size alignment slabs
  swap
  · obtain ⟨t, ht, hFree, hFits, hLeast, hPlacing⟩ := allocWords_of_fit h hReq hFit
    obtain ⟨before, after, hSplit⟩ := List.append_of_mem ht
    obtain ⟨s', slabs', hPlace, hPlaced⟩ := placeBlock_of_fits (hSplit ▸ h) hFree hReq hFits bytes
    rw [hPlacing, hPlace]
    exact .reused hSplit hFree hFits hLeast hPlaced
  obtain ⟨r, hSearch, hFound, hMax⟩ := searchFit_found h hReq
  cases hFound with
  | fit t ht hFree hFits _ => exact absurd hFits (hFit t ht hFree)
  | wrapped t ht hFree hUnder hNoFit =>
    obtain ⟨before, after, hSplit⟩ := List.append_of_mem ht
    have hNe := h.search_ne ht rfl hMax
    have hPlace := placeBlock_of_not_fits (hSplit ▸ h) hFree hReq hUnder.not_fits
    have hEq : allocWords P s size alignment =
        (.exit (skipIndices alignment t.start), (placeBlock s t.start size alignment).2) := by
      rw [allocWords, hSearch]
      simp only [if_neg hNe]
      rw [← hPlace]
    rw [hEq]
    exact .wrapped ht hFree hUnder hNoFit
  | nothing hNoFit hNoUnder =>
    by_cases hGranted : Granted P s size alignment
    · obtain ⟨s₁, slabs₁, hGrow, hGrown⟩ := growHeap_granted hP h hRoot hReq hWrap hGranted
      obtain ⟨before, after, rfl⟩ := List.append_of_mem hGrown.mem
      have hEq : allocWords P s size alignment =
          placeBlock s₁ (grownSlab s slabs (growWords P size alignment)).start size alignment := by
        rw [allocWords, hSearch, hGrow]
        rfl
      rw [hEq]
      by_cases hFits : Fits size alignment (grownSlab s slabs (growWords P size alignment))
      · obtain ⟨s', slabs', hPlace, hPlaced⟩ :=
          placeBlock_of_fits hGrown.described hGrown.free hReq hFits bytes
        obtain ⟨first, _, hTouch⟩ := hGrown.touches
        rw [hPlace, hTouch.root]
        exact .grown hNoFit hNoUnder hGranted hGrown hFits hPlaced
      · have hPlace := placeBlock_of_not_fits hGrown.described hGrown.free hReq hFits
        have hExit : Allocated P s slabs size alignment bytes _ := .short
          (placeBlock s₁ (grownSlab s slabs (growWords P size alignment)).start size alignment).2
          hNoFit hNoUnder hGranted hFits
        rw [← hPlace] at hExit
        exact hExit
    · have hGrow := growHeap_refused hP h hRoot hReq hWrap (Nat.lt_of_not_le hGranted)
      have hEq : allocWords P s size alignment = (.ret 0, s) := by
        rw [allocWords, hSearch, hGrow]
        rfl
      rw [hEq]
      exact .refused hNoFit hNoUnder hGranted

/-- The exit branch is not reachable from a heap and a request with this property. -/
def Placeable (P : Platform) (s : State) (slabs : List Slab) (size alignment : Nat) : Prop :=
  (∃ t ∈ slabs, t.label = .free ∧ Fits size alignment t) ∨
    NoUnderflow alignment slabs ∧
      (Granted P s size alignment →
        Fits size alignment (grownSlab s slabs (growWords P size alignment)))

theorem Allocated.no_exit_iff {bytes : Nat} {r : Outcome Nat × State}
    (h : Allocated P s slabs size alignment bytes r) :
    (∃ p, r.1 = .ret p) ↔ Placeable P s slabs size alignment := by
  cases h with
  | reused hSplit hFree hFits _ _ =>
    refine iff_of_true ⟨_, rfl⟩ (Or.inl ⟨_, ?_, hFree, hFits⟩)
    rw [hSplit]
    simp
  | wrapped hMem hFree hUnder hNoFit =>
    refine iff_of_false (by simp) ?_
    rintro (⟨u, hu, huFree, huFits⟩ | ⟨hNoUnder, _⟩)
    · exact hNoFit u hu huFree huFits
    · exact hNoUnder _ hMem hFree hUnder
  | refused _ hNoUnder hFull =>
    exact iff_of_true ⟨_, rfl⟩ (Or.inr ⟨hNoUnder, fun hGranted => absurd hGranted hFull⟩)
  | grown _ hNoUnder _ _ hFits _ => exact iff_of_true ⟨_, rfl⟩ (Or.inr ⟨hNoUnder, fun _ => hFits⟩)
  | short _ hNoFit _ hGranted hNoRoom =>
    refine iff_of_false (by simp) ?_
    rintro (⟨u, hu, huFree, huFits⟩ | ⟨_, hRoom⟩)
    · exact hNoFit u hu huFree huFits
    · exact hNoRoom (hRoom hGranted)

end Dandelion.Runtime.Heap
