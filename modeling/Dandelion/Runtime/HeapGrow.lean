import Dandelion.Runtime.HeapCut
import Dandelion.Runtime.HeapSearch

/-! # Opening and growing the heap

A region obtained from `dandelion_sbrk` opens the heap, extends it in place,
or is reached over a skip slab. Each way leaves a free slab for the request.
-/

namespace Dandelion.Runtime.Heap

open Foundation Foundation.Words Foundation.Tiling Foundation.BoundaryTags

structure Platform.Sane (P : Platform) : Prop where
  page_pos : 0 < P.pageSize
  page_dvd : P.pageSize % 8 = 0
  page_le : P.pageSize ≤ 2 ^ 62
  begin_le : P.heapBegin ≤ 2 ^ 59
  end_le : P.heapEnd ≤ 2 ^ 59

/-- A request to `dandelion_sbrk` whose rounded end is still a word. -/
def NoWrap (P : Platform) (s : State) (size : Nat) : Prop :=
  sbrkBase P s + size + rounding size < 2 ^ 64

theorem rounding_lt (n : Nat) : rounding n < 8 := by
  unfold rounding
  split <;> omega

theorem add_rounding_mod (n : Nat) : (n + rounding n) % 8 = 0 := by
  unfold rounding
  split <;> omega

theorem rounding_of_dvd {n : Nat} (h : n % 8 = 0) : rounding n = 0 := if_pos h

section Sbrk

variable {P : Platform} {s : State} {size : Nat}

theorem sbrkBase_of_ne (h : s.allocBase ≠ 0) : sbrkBase P s = s.allocBase := if_neg h

theorem sbrkBase_of_eq (hP : P.Sane) (h : s.allocBase = 0) :
    sbrkBase P s = P.heapBegin + rounding P.heapBegin := by
  have hRound := rounding_lt P.heapBegin
  have hBegin := hP.begin_le
  rw [sbrkBase, if_pos h, add64_of_lt (by omega)]

theorem dandelionSbrk_refused (hWrap : NoWrap P s size) (h : P.heapEnd < sbrkBase P s + size) :
    dandelionSbrk P s size = (0, { s with allocBase := sbrkBase P s }) := by
  unfold NoWrap at hWrap
  simp only [dandelionSbrk, add64_of_lt (show sbrkBase P s + size < 2 ^ 64 by omega), if_pos h]

theorem dandelionSbrk_granted (hWrap : NoWrap P s size) (h : sbrkBase P s + size ≤ P.heapEnd) :
    dandelionSbrk P s size =
      (sbrkBase P s, { s with allocBase := sbrkBase P s + size + rounding size }) := by
  unfold NoWrap at hWrap
  simp only [dandelionSbrk, add64_of_lt (show sbrkBase P s + size < 2 ^ 64 by omega),
    if_neg (Nat.not_lt_of_le h), add64_of_lt hWrap]

end Sbrk

def growWords (P : Platform) (size alignment : Nat) : Nat := getSbrkSize P size alignment / 8

section Size

variable {P : Platform} {size alignment : Nat}

theorem getSbrkSize_eq (hP : P.Sane) (hReq : Request size alignment) :
    getSbrkSize P size alignment =
      (size * 8 + 32 + alignment + (P.pageSize - 1)) / P.pageSize * P.pageSize := by
  have hSize := hReq.size_le
  have hAlign := hReq.alignment_lt
  have hPage := hP.page_le
  have hPos := hP.page_pos
  have hSum : add64 (add64 (add64 (mul64 size 8) (mul64 4 8)) alignment) P.pageSize =
      size * 8 + 32 + alignment + P.pageSize := by
    rw [mul64_of_lt (by omega), mul64_of_lt (by omega),
      add64_of_lt (show size * 8 + 4 * 8 < 2 ^ 64 by omega), add64_add64_of_lt (by omega)]
  have hLe := Nat.div_mul_le_self (size * 8 + 32 + alignment + P.pageSize - 1) P.pageSize
  have hPred : size * 8 + 32 + alignment + P.pageSize - 1 =
      size * 8 + 32 + alignment + (P.pageSize - 1) := by omega
  rw [getSbrkSize, hSum, sub64_of_le (by omega) (by omega), mul64_of_lt (by omega), hPred]

/-- The request is a whole number of words with room for the block and four
descriptors, and for one word more on account of the alignment. -/
theorem growWords_spec (hP : P.Sane) (hReq : Request size alignment) :
    getSbrkSize P size alignment = 8 * growWords P size alignment ∧
      size + 5 ≤ growWords P size alignment ∧ growWords P size alignment + 2 ^ 57 ≤ 2 ^ 61 := by
  have hSize := hReq.size_le
  have hAlign := hReq.alignment_lt
  have hAlignPos := hReq.alignment_pos
  have hPos := hP.page_pos
  have hPage := hP.page_le
  have hEq := getSbrkSize_eq hP hReq
  have hLe := Nat.div_mul_le_self (size * 8 + 32 + alignment + (P.pageSize - 1)) P.pageSize
  have hLow : size * 8 + 32 + alignment ≤ getSbrkSize P size alignment := by
    have hDiv := Nat.lt_div_mul_add (a := size * 8 + 32 + alignment + (P.pageSize - 1)) hPos
    omega
  have hDvd : getSbrkSize P size alignment % 8 = 0 := by
    rw [hEq, Nat.mul_mod, hP.page_dvd, Nat.mul_zero, Nat.zero_mod]
  unfold growWords
  omega

end Size

/-- The cells that growing may store to: the old placeholder, the new region from
its first cell on, or the start of a free slab. -/
def GrowCell (last first : Nat) (slabs : List Slab) (i : Nat) : Prop :=
  i = last ∨ first ≤ i ∨ ∃ u ∈ slabs, u.label = .free ∧ i = u.start

structure Grown (s s' : State) (slabs : List Slab) (words : Nat) (t : Slab) (slabs' : List Slab) :
    Prop where
  described : Described s' slabs'
  mem : t ∈ slabs'
  free : t.label = .free
  stop : t.stop + 1 = s'.lastDescriptor
  touches : ∃ first, s.freeRoot + 8 * first = s.allocBase ∧
    Touches (GrowCell s.lastDescriptor first slabs) s s'
  allocBase : s'.allocBase = s'.freeRoot + 8 * (s'.lastDescriptor + 1)
  granted : s'.allocBase = s.allocBase + 8 * words
  layout : (Kept slabs slabs' ∧ s.allocBase = s.freeRoot + 8 * (s.lastDescriptor + 1)) ∨
    ∃ skipEnd, slabs' = slabs ++ [⟨s.lastDescriptor, skipEnd, .skip⟩, t] ∧
      s.freeRoot + 8 * (s.lastDescriptor + 1) < s.allocBase ∧ s.freeRoot + 8 * skipEnd = s.allocBase

section Grow

variable {s : State} {slabs : List Slab} {words : Nat}

/-- The slab that a region right after the last descriptor extends or creates. -/
def extendedSlab (last : Nat) (slabs : List Slab) (words : Nat) : Slab :=
  match slabs.getLast? with
  | some p =>
    if p.label = .free then ⟨p.start, last + words - 1, .free⟩ else ⟨last, last + words - 1, .free⟩
  | none => ⟨last, last + words - 1, .free⟩

def State.extend (s : State) (last : Nat) : State :=
  { s.set last maxVal with lastDescriptor := last }

theorem State.extend_view {last : Nat} (h : s.freeRoot + 8 * last < 2 ^ 64) :
    (s.extend last).view = Function.update s.view last maxVal := State.set_view h maxVal

theorem State.extend_touches {last : Nat} {cell : Nat → Prop} (h : s.freeRoot + 8 * last < 2 ^ 64)
    (hCell : cell last) :
    Touches cell s (s.extend last) :=
  have hSet : Touches cell s (s.set last maxVal) := .set maxVal h hCell
  ⟨rfl, hSet.stored⟩

theorem Described.extend_cut (h : Described s slabs) (hWords : 0 < words)
    (hRange : s.freeRoot + 8 * (s.lastDescriptor + 1 + words) < 2 ^ 64) :
    Cut (s.extend (s.lastDescriptor + words)) slabs ⟨s.lastDescriptor, s.lastDescriptor + words - 1,
      .free⟩ [] := by
  have hView : (s.extend (s.lastDescriptor + words)).view = _ := State.extend_view (by omega)
  have hMarked : ∀ t ∈ slabs, Marked descriptor (s.extend (s.lastDescriptor + words)).view t := by
    intro t ht
    have ht' := h.bounds ht
    rw [hView]
    exact (h.marked t ht).update_of_lt ht'.1 (by omega) maxVal
  exact
    { rooted := h.rooted
      range := by
        change s.freeRoot + 8 * (s.lastDescriptor + words + 1) < 2 ^ 64
        omega
      hole := Hole.at_end h.tiles hMarked .free
        (by change s.lastDescriptor < s.lastDescriptor + words; omega)
      sentinel := by rw [hView]; exact Function.update_self ..
      sparseLeft := h.sparse
      sparseRight := List.isChain_nil }

theorem State.extend_mark (hWords : 0 < words)
    (hRange : s.freeRoot + 8 * (s.lastDescriptor + 1 + words) < 2 ^ 64) {start : Nat}
    (hStart : start ≤ s.lastDescriptor)
    (hCell : GrowCell s.lastDescriptor (s.lastDescriptor + 1) slabs start) :
    Touches (GrowCell s.lastDescriptor (s.lastDescriptor + 1) slabs) s
      ((s.extend (s.lastDescriptor + words)).mark ⟨start, s.lastDescriptor + words - 1,
        .free⟩) := by
  refine (State.extend_touches (by omega) (Or.inr (Or.inl (by omega)))).trans
    (.mark (by simp only; omega) (by change s.freeRoot + _ < _; simp only; omega) hCell ?_)
  simp only [GrowCell]
  omega

theorem growContiguous_grown (h : Described s slabs) (hWords : 0 < words)
    (hRange : s.freeRoot + 8 * (s.lastDescriptor + 1 + words) < 2 ^ 64) :
    ∃ s' slabs', growContiguous s words = ((extendedSlab s.lastDescriptor slabs words).start, s') ∧
      Described s' slabs' ∧ extendedSlab s.lastDescriptor slabs words ∈ slabs' ∧
      (extendedSlab s.lastDescriptor slabs words).label = .free ∧
      (extendedSlab s.lastDescriptor slabs words).stop + 1 = s'.lastDescriptor ∧
      Touches (GrowCell s.lastDescriptor (s.lastDescriptor + 1) slabs) s s' ∧
      s'.allocBase = s.allocBase ∧ s'.lastDescriptor = s.lastDescriptor + words ∧
      Kept slabs slabs' := by
  have hLast := h.last_lt
  have hPos := h.positive
  obtain ⟨front, p, rfl, hpStop⟩ := h.tiles.exists_last hPos
  have hp := h.bounds (t := p) (by simp)
  have hNew : add64 s.lastDescriptor words = s.lastDescriptor + words := add64_of_lt (by omega)
  have hSub : sub64 s.lastDescriptor 1 = p.stop := by
    rw [sub64_of_le (by omega) (by omega)]
    omega
  have hNewSub : sub64 (s.lastDescriptor + words) 1 = s.lastDescriptor + words - 1 :=
    sub64_of_le (by omega) (by omega)
  have hCut := h.extend_cut hWords hRange
  have hGet : (s.set (s.lastDescriptor + words) maxVal).get p.stop =
      descriptor p.label p.start := by
    have hPrev := hCut.get_previous.2
    have hStop : s.lastDescriptor - 1 = p.stop := by omega
    rwa [show (s.extend (s.lastDescriptor + words)).get =
      (s.set (s.lastDescriptor + words) maxVal).get from rfl,
      hStop] at hPrev
  have hStart := lt_topBit (show p.start < 2 ^ 61 by omega)
  by_cases hFree : p.label = .free
  · -- the last slab is free: it swallows the placeholder and the new region
    have hSlab : extendedSlab s.lastDescriptor (front ++ [p]) words =
        ⟨p.start, s.lastDescriptor + words - 1, .free⟩ := by
      simp [extendedSlab, hFree]
    rw [hSlab]
    refine ⟨(s.extend (s.lastDescriptor + words)).mark
      ⟨p.start, s.lastDescriptor + words - 1, .free⟩,
      front ++ [⟨p.start, s.lastDescriptor + words - 1, .free⟩], ?_, ?_, by simp, rfl, ?_, ?_,
      rfl, rfl, ?_⟩
    · simp only [growContiguous, hNew, hSub, hNewSub, hGet, isOccupied_descriptor hStart, hFree,
        Owner.occupied, Bool.false_eq_true, if_false]
      rfl
    · exact (hCut.join_left .free).fill (Sparse.resize_last h.sparse hFree.symm)
    · change s.lastDescriptor + words - 1 + 1 = s.lastDescriptor + words
      omega
    · exact State.extend_mark hWords hRange (by omega) (Or.inr (Or.inr ⟨p, by simp, hFree, rfl⟩))
    · refine (Kept.refl front).append (.free ?_ (by simp))
      simpa using hFree
  · -- the last slab is occupied: the placeholder starts a new free slab
    have hSlab : extendedSlab s.lastDescriptor (front ++ [p]) words =
        ⟨s.lastDescriptor, s.lastDescriptor + words - 1, .free⟩ := by
      simp [extendedSlab, hFree]
    rw [hSlab]
    refine ⟨(s.extend (s.lastDescriptor + words)).mark
      ⟨s.lastDescriptor, s.lastDescriptor + words - 1, .free⟩,
      front ++ [p] ++ [⟨s.lastDescriptor, s.lastDescriptor + words - 1, .free⟩], ?_,
      ?_, by simp, rfl, ?_, ?_, rfl, rfl, ?_⟩
    · simp only [growContiguous, hNew, hSub, hNewSub, hGet, isOccupied_descriptor hStart,
        Owner.occupied_eq_true.mpr hFree, if_true]
      rfl
    · refine hCut.fill ?_
      rw [List.append_assoc]
      exact sparse_of_occupied (Sparse.left h.sparse) hFree (List.isChain_singleton _)
    · change s.lastDescriptor + words - 1 + 1 = s.lastDescriptor + words
      omega
    · exact State.extend_mark hWords hRange le_rfl (Or.inl rfl)
    · have hKept := (Kept.refl (front ++ [p])).append (.free (l := [])
        (r := [⟨s.lastDescriptor, s.lastDescriptor + words - 1, .free⟩]) (by simp) (by simp))
      simpa using hKept

theorem growSkipping_grown (h : Described s slabs) {skipEnd : Nat} (hWords : 4 ≤ words)
    (hSkip : s.lastDescriptor < skipEnd)
    (hRange : s.freeRoot + 8 * (skipEnd + words) < 2 ^ 64) :
    ∃ s', growSkipping s (s.freeRoot + 8 * skipEnd) words = (skipEnd + 1, s') ∧
      Described s'
        (slabs ++ [⟨s.lastDescriptor, skipEnd, .skip⟩, ⟨skipEnd + 1, skipEnd + words - 2, .free⟩]) ∧
      Touches (GrowCell s.lastDescriptor skipEnd slabs) s s' ∧
      s'.allocBase = s.allocBase ∧ s'.lastDescriptor = skipEnd + words - 1 := by
  have hLast := h.last_lt
  have hPos := h.positive
  obtain ⟨front, p, hFront, hpStop⟩ := h.tiles.exists_last hPos
  have hDiff : pointerDiff (s.freeRoot + 8 * skipEnd) s.freeRoot = skipEnd := by
    unfold pointerDiff
    omega
  have hNew : sub64 (add64 skipEnd words) 1 = skipEnd + words - 1 := by
    rw [add64_of_lt (by omega), sub64_of_le (by omega) (by omega)]
  have hNewSub : sub64 (skipEnd + words - 1) 1 = skipEnd + words - 2 := by
    rw [sub64_of_le (by omega) (by omega)]
    omega
  have hSucc : add64 skipEnd 1 = skipEnd + 1 := add64_of_lt (by omega)
  have hOcc : Owner.skip ≠ .free := by simp
  let s₁ : State := s.mark ⟨s.lastDescriptor, skipEnd, .skip⟩
  let s₂ : State := s₁.mark ⟨skipEnd + 1, skipEnd + words - 2, .free⟩
  let s₃ : State := s₂.extend (skipEnd + words - 1)
  have hInRange : s₂.freeRoot + 8 * (skipEnd + words - 1) < 2 ^ 64 := by
    change s.freeRoot + 8 * (skipEnd + words - 1) < 2 ^ 64
    omega
  have hView₁ : s₁.view = BoundaryTags.mark descriptor s.view ⟨s.lastDescriptor, skipEnd, .skip⟩ :=
    State.mark_view hSkip.le (by simp only; omega)
  have hView₂ :
      s₂.view = BoundaryTags.mark descriptor s₁.view ⟨skipEnd + 1, skipEnd + words - 2, .free⟩ :=
    State.mark_view (by simp only; omega) (by change s.freeRoot + _ < _; simp only; omega)
  have hView₃ : s₃.view = Function.update s₂.view (skipEnd + words - 1) maxVal :=
    State.extend_view hInRange
  have hHole := (Hole.at_end h.tiles h.marked .free
    (show s.lastDescriptor < skipEnd + words - 1 by omega)).split_left .skip .free
      (m := skipEnd) (by simp only; omega) (by simp only; omega)
  have hLastCell : skipEnd + words - 1 - 1 = skipEnd + words - 2 := by omega
  rw [hLastCell, ← hView₁] at hHole
  have hFill := hHole.fill
  rw [← hView₂] at hFill
  have hTiles := hHole.tiles
  rw [List.append_assoc] at hFill hTiles
  refine ⟨s₃, ?_, ?_, ?_, rfl, rfl⟩
  · simp only [growSkipping, hDiff, hNew, hNewSub, hSucc, setOccupied_eq hOcc]
    rfl
  · refine ⟨h.rooted, ?_, ?_, hTiles, ?_, ?_, ?_⟩
    · change s.freeRoot + 8 * (skipEnd + words - 1 + 1) < 2 ^ 64
      omega
    · change 0 < skipEnd + words - 1
      omega
    · intro t ht
      have htBounds := hTiles.bounds ht
      rw [hView₃]
      exact (hFill t ht).update_of_lt htBounds.2.1 htBounds.2.2 maxVal
    · rw [hView₃]
      exact Function.update_self ..
    · exact sparse_of_occupied h.sparse hOcc (List.isChain_singleton _)
  · have hTouch : Touches (GrowCell s.lastDescriptor skipEnd slabs) s₂ s₃ :=
      State.extend_touches hInRange (Or.inr (Or.inl (by omega)))
    refine Touches.trans (show Touches _ s s₂ from .trans (?_ : Touches _ s s₁) ?_) hTouch
    · refine .mark hSkip.le (by simp only; omega) ?_ ?_
      · exact Or.inl rfl
      · exact Or.inr (Or.inl le_rfl)
    · refine .mark (by simp only; omega) (by change s.freeRoot + _ < _; simp only; omega) ?_ ?_
      · exact Or.inr (Or.inl (by simp only; omega))
      · exact Or.inr (Or.inl (by simp only; omega))

end Grow

/-- The slab that holds the request after a granted growth. -/
def grownSlab (s : State) (slabs : List Slab) (words : Nat) : Slab :=
  if s.allocBase = s.freeRoot + 8 * (s.lastDescriptor + 1) then extendedSlab s.lastDescriptor
    slabs words
  else ⟨(s.allocBase - s.freeRoot) / 8 + 1, (s.allocBase - s.freeRoot) / 8 + words - 2, .free⟩

section GrowHeap

variable {P : Platform} {s : State} {slabs : List Slab} {size alignment : Nat}

structure Rooted (s : State) : Prop where
  root_mod : s.freeRoot % 8 = 0
  base_mod : s.allocBase % 8 = 0
  base_le : s.freeRoot + 8 * (s.lastDescriptor + 1) ≤ s.allocBase

theorem Described.base_ne (h : Described s slabs) (hRoot : Rooted s) : s.allocBase ≠ 0 := by
  have h0 := h.rooted
  have h1 := hRoot.base_le
  omega

theorem growHeap_refused (hP : P.Sane) (h : Described s slabs) (hRoot : Rooted s)
    (hReq : Request size alignment) (hWrap : NoWrap P s (getSbrkSize P size alignment))
    (hEnd : P.heapEnd < s.allocBase + 8 * growWords P size alignment) :
    growHeap P s size alignment = (none, s) := by
  have hBase := sbrkBase_of_ne (P := P) (h.base_ne hRoot)
  have hSize := (growWords_spec hP hReq).1
  have hSbrk := dandelionSbrk_refused hWrap (by rw [hBase, hSize]; exact hEnd)
  rw [hBase] at hSbrk
  simp only [growHeap, hSbrk, if_true]

theorem growHeap_granted (hP : P.Sane) (h : Described s slabs) (hRoot : Rooted s)
    (hReq : Request size alignment) (hWrap : NoWrap P s (getSbrkSize P size alignment))
    (hEnd : s.allocBase + 8 * growWords P size alignment ≤ P.heapEnd) :
    ∃ s' slabs', growHeap P s size alignment =
        (some (grownSlab s slabs (growWords P size alignment)).start, s') ∧
      Grown s s' slabs (growWords P size alignment)
        (grownSlab s slabs (growWords P size alignment)) slabs' := by
  obtain ⟨hSize, hWords, hWordsLt⟩ := growWords_spec hP hReq
  have hSizePos := hReq.size_pos
  have hBaseNe := h.base_ne hRoot
  have hBase := sbrkBase_of_ne (P := P) hBaseNe
  have hSbrk := dandelionSbrk_granted hWrap (by rw [hBase, hSize]; exact hEnd)
  have hRound : rounding (getSbrkSize P size alignment) = 0 := rounding_of_dvd (by omega)
  rw [hBase, hRound, Nat.add_zero] at hSbrk
  have hDiv : getSbrkSize P size alignment / 8 = growWords P size alignment := rfl
  have hRange := h.range
  have hHeapEnd := hP.end_le
  have hRootMod := hRoot.root_mod
  have hBaseMod := hRoot.base_mod
  have hBaseLe := hRoot.base_le
  generalize growWords P size alignment = words at *
  let s₀ : State := { s with allocBase := s.allocBase + getSbrkSize P size alignment }
  have h₀ : Described s₀ slabs := h.with_allocBase _
  have hAddress : s₀.address (add64 s.lastDescriptor 1) =
      s.freeRoot + 8 * (s.lastDescriptor + 1) := by
    rw [add64_of_lt (by omega), State.address_eq (by exact hRange)]
  by_cases hHere : s.allocBase = s.freeRoot + 8 * (s.lastDescriptor + 1)
  · have hSlab : grownSlab s slabs words = extendedSlab s.lastDescriptor slabs words := if_pos hHere
    obtain ⟨s', slabs', hGrow, hDesc, hMem, hFree, hStop, hTouch, hAlloc, hLast, hKept⟩ :=
      growContiguous_grown h₀ (show 0 < words by omega)
        (by change s.freeRoot + 8 * (s.lastDescriptor + 1 + words) < 2 ^ 64; omega)
    rw [hSlab]
    refine ⟨s', slabs', ?_, hDesc, hMem, hFree, hStop,
      ⟨s.lastDescriptor + 1, hHere.symm, hTouch.root, hTouch.stored⟩, ?_, ?_, Or.inl ⟨hKept, hHere⟩⟩
    · simp only [growHeap, hSbrk, if_neg hBaseNe, hDiv]
      rw [if_pos (hHere.trans hAddress.symm), hGrow]
    · rw [hAlloc, hTouch.root, hLast]
      change s.allocBase + _ = s.freeRoot + 8 * (s.lastDescriptor + words + 1)
      omega
    · rw [hAlloc]
      change s.allocBase + _ = _
      omega
  · have hSlab : grownSlab s slabs words =
        ⟨(s.allocBase - s.freeRoot) / 8 + 1, (s.allocBase - s.freeRoot) / 8 + words - 2, .free⟩ :=
      if_neg hHere
    have hSkipEnd : s.freeRoot + 8 * ((s.allocBase - s.freeRoot) / 8) = s.allocBase := by omega
    generalize (s.allocBase - s.freeRoot) / 8 = skipEnd at *
    obtain ⟨s', hGrow, hDesc, hTouch, hAlloc, hLast⟩ :=
      growSkipping_grown h₀ (show 4 ≤ words by omega)
        (show s.lastDescriptor < skipEnd by omega)
        (by change s.freeRoot + 8 * (skipEnd + words) < 2 ^ 64; omega)
    rw [hSlab]
    refine ⟨s', _, ?_, hDesc, by simp, rfl, ?_, ⟨skipEnd, hSkipEnd, hTouch.root, hTouch.stored⟩, ?_,
      ?_, Or.inr ⟨skipEnd, rfl, by omega, hSkipEnd⟩⟩
    · simp only [growHeap, hSbrk, if_neg hBaseNe, hDiv]
      have hGrow' : growSkipping s₀ s.allocBase words = (skipEnd + 1, s') := by
        rw [← hSkipEnd]
        exact hGrow
      rw [if_neg (fun hEq => hHere (hEq.trans hAddress)), hGrow']
    · rw [hLast]
      simp only
      omega
    · rw [hAlloc, hTouch.root, hLast]
      change s.allocBase + _ = s.freeRoot + 8 * (skipEnd + words - 1 + 1)
      omega
    · rw [hAlloc]
      change s.allocBase + _ = _
      omega

end GrowHeap

section Open

variable {P : Platform} {s : State} {size alignment : Nat}

def State.fresh (s : State) (words : Nat) : State :=
  { (s.mark ⟨0, words - 2, .free⟩).set (words - 1) maxVal with lastDescriptor := words - 1 }

theorem State.fresh_described {words : Nat} (hRoot : 0 < s.freeRoot) (hWords : 2 ≤ words)
    (hRange : s.freeRoot + 8 * words < 2 ^ 64) :
    Described (s.fresh words) [⟨0, words - 2, .free⟩] := by
  have hView : (s.mark ⟨0, words - 2, .free⟩).view =
      BoundaryTags.mark descriptor s.view ⟨0, words - 2, .free⟩ :=
    State.mark_view (Nat.zero_le _) (by simp only; omega)
  have hLast : (s.mark ⟨0, words - 2, .free⟩).freeRoot + 8 * (words - 1) < 2 ^ 64 := by
    rw [State.mark_freeRoot]
    omega
  have hFresh : (s.fresh words).view =
      Function.update (s.mark ⟨0, words - 2, .free⟩).view (words - 1) maxVal :=
        State.set_view hLast maxVal
  refine ⟨hRoot, ?_, ?_, ⟨rfl, Nat.zero_le _, ?_⟩, ?_, ?_, List.isChain_singleton _⟩
  · change s.freeRoot + 8 * (words - 1 + 1) < 2 ^ 64
    omega
  · change 0 < words - 1
    omega
  · change words - 2 + 1 = words - 1
    omega
  · intro t ht
    obtain rfl := List.mem_singleton.mp ht
    rw [hFresh, hView]
    exact (marked_mark _).update_of_lt (Nat.zero_le _) (by simp only; omega) maxVal
  · rw [hFresh]
    exact Function.update_self ..

theorem State.fresh_touches {words : Nat} (hWords : 2 ≤ words)
    (hRange : s.freeRoot + 8 * words < 2 ^ 64) :
    Touches (fun i => i < words) s (s.fresh words) := by
  have hLast : (s.mark ⟨0, words - 2, .free⟩).freeRoot + 8 * (words - 1) < 2 ^ 64 := by
    rw [State.mark_freeRoot]
    omega
  have hMark : Touches (fun i => i < words) s (s.mark ⟨0, words - 2, .free⟩) :=
    .mark (Nat.zero_le _) (by simp only; omega) (by simp only; omega) (by simp only; omega)
  have hSet : Touches (fun i => i < words) _ _ := .set maxVal hLast (by omega)
  exact hMark.trans ⟨rfl, hSet.stored⟩

structure Opened (P : Platform) (s s' : State) (words : Nat) : Prop where
  described : Described s' [⟨0, words - 2, .free⟩]
  root : s'.freeRoot = sbrkBase P s
  last : s'.lastDescriptor = words - 1
  allocBase : s'.allocBase = sbrkBase P s + 8 * words
  stored : ∀ a ∈ s'.stored, a ∈ s.stored ∨ ∃ i, i < words ∧ a = s'.freeRoot + 8 * i

theorem openHeap_open (h : s.freeRoot ≠ 0) : openHeap P s size alignment = (true, s) := if_neg h

theorem openHeap_refused (hP : P.Sane) (hReq : Request size alignment) (hNull : s.freeRoot = 0)
    (hWrap : NoWrap P s (getSbrkSize P size alignment))
    (hEnd : P.heapEnd < sbrkBase P s + 8 * growWords P size alignment) :
    openHeap P s size alignment = (false, { s with allocBase := sbrkBase P s }) := by
  have hSize := (growWords_spec hP hReq).1
  have hSbrk := dandelionSbrk_refused hWrap (by rw [hSize]; exact hEnd)
  simp only [openHeap, if_pos hNull, hSbrk, if_true]
  rw [← hNull]

theorem openHeap_null (hP : P.Sane) (hReq : Request size alignment) (hNull : s.freeRoot = 0)
    (hWrap : NoWrap P s (getSbrkSize P size alignment))
    (hEnd : sbrkBase P s + 8 * growWords P size alignment ≤ P.heapEnd) (hZero : sbrkBase P s = 0) :
    openHeap P s size alignment =
      (false, { s with allocBase := 8 * growWords P size alignment }) := by
  have hSize := (growWords_spec hP hReq).1
  have hSbrk := dandelionSbrk_granted hWrap (by rw [hSize]; exact hEnd)
  have hRound : rounding (getSbrkSize P size alignment) = 0 := rounding_of_dvd (by omega)
  rw [hRound, hZero, hSize] at hSbrk
  rw [Nat.zero_add, Nat.add_zero] at hSbrk
  simp only [openHeap, if_pos hNull, hSize, hSbrk, if_true]
  rw [← hNull]

theorem openHeap_granted (hP : P.Sane) (hReq : Request size alignment) (hNull : s.freeRoot = 0)
    (hWrap : NoWrap P s (getSbrkSize P size alignment))
    (hEnd : sbrkBase P s + 8 * growWords P size alignment ≤ P.heapEnd) (hBase : sbrkBase P s ≠ 0) :
    ∃ s', openHeap P s size alignment = (true, s') ∧
      Opened P s s' (growWords P size alignment) := by
  obtain ⟨hSize, hWords, hWordsLt⟩ := growWords_spec hP hReq
  have hSizePos := hReq.size_pos
  have hHeapEnd := hP.end_le
  have hSbrk := dandelionSbrk_granted hWrap (by rw [hSize]; exact hEnd)
  have hRound : rounding (getSbrkSize P size alignment) = 0 := rounding_of_dvd (by omega)
  rw [hRound, Nat.add_zero, hSize] at hSbrk
  have hDiv : 8 * growWords P size alignment / 8 = growWords P size alignment := by omega
  have hOpen : ∀ base words : Nat, 6 ≤ words → words < 2 ^ 64 → base ≠ 0 →
      dandelionSbrk P s (8 * words) = (base, { s with allocBase := base + 8 * words }) →
      8 * words / 8 = words → getSbrkSize P size alignment = 8 * words →
      openHeap P s size alignment =
        (true, State.fresh { s with allocBase := base + 8 * words, freeRoot := base } words) := by
    intro base words h6 hLt hne hSbrk hDiv hSize
    have hSub1 : sub64 words 1 = words - 1 := sub64_of_le hLt (by omega)
    have hSub2 : sub64 words 2 = words - 2 := sub64_of_le hLt (by omega)
    simp only [openHeap, if_pos hNull, hSize, hSbrk, if_neg hne, hDiv, hSub1, hSub2]
    rfl
  refine ⟨_, hOpen _ _ (by omega) (by omega) hBase hSbrk hDiv hSize, ?_, rfl, rfl, rfl, ?_⟩
  · exact State.fresh_described (Nat.pos_of_ne_zero hBase) (by omega) (by simp only; omega)
  · exact (State.fresh_touches (by omega) (by simp only; omega)).stored

end Open

end Dandelion.Runtime.Heap
