import Dandelion.Runtime.HeapAllocSound

/-! # Heap isolation over runs

Every completed call keeps the invariant and stores only to words that share no
byte with a range in use when the call begins. Hence whatever the users of the
heap hold stays apart and inside the heap.
-/

namespace Dandelion.Runtime.Heap

open Foundation.Runs

variable {P : Platform} {c c' : Config} {op : Op}

section Steps

theorem Sound.next_alloc (hP : P.Sane) (h : Sound P c) {size alignment : Nat}
    (hSize : size < 2 ^ 64) (hNext : c.next P (.alloc size alignment) = .ret c') :
    Sound P c' ∧ ∀ a ∈ c'.state.stored, Clear c a := by
  rcases hAlloc : dandelionAlloc P c.state.forget size alignment with ⟨outcome, s'⟩
  simp only [Config.next, hAlloc] at hNext
  cases outcome with
  | ret p =>
    obtain ⟨hSound, hStored⟩ := h.forget.served hP hSize hAlloc
    obtain rfl : _ = c' := Outcome.ret.inj hNext
    refine ⟨hSound, fun a ha => ?_⟩
    rcases hStored a ha with hOld | hClear
    · exact absurd hOld (List.not_mem_nil)
    · exact hClear
  | exit code => cases hNext
  | diverge => cases hNext

theorem Sound.next_free (h : Sound P c) {ptr : Nat} (hLive : ∃ b ∈ c.live, b.1 = ptr)
    (hNext : c.next P (.free ptr) = .ret c') : Sound P c' ∧ ∀ a ∈ c'.state.stored, Clear c a := by
  have hOpen : c.state.freeRoot ≠ 0 := by
    intro hNull
    obtain ⟨b, hb, _⟩ := hLive
    rw [h.closed hNull] at hb
    exact absurd hb List.not_mem_nil
  obtain ⟨slabs, hLayout⟩ := h.forget.opened hOpen
  obtain ⟨s', slabs', hFree, hLayout', hBase, hRoot, hStored⟩ := hLayout.free hLive
  simp only [Config.next, hFree] at hNext
  obtain rfl : _ = c' := Outcome.ret.inj hNext
  refine ⟨h.forget.of_layout hLayout' hBase.ge hLayout'.base_low ?_, fun a ha => ?_⟩
  · rw [hBase]
    exact h.base_high
  · rcases hStored a ha with hOld | hClear
    · exact absurd hOld List.not_mem_nil
    · exact hClear

theorem Sound.next (hP : P.Sane) (h : Sound P c) (hStep : Step P c op c') :
    Sound P c' ∧ ∀ a ∈ c'.state.stored, Clear c a := by
  obtain ⟨hAllowed, hWrap, hNext⟩ := hStep
  cases op with
  | alloc size alignment => exact h.next_alloc hP hAllowed.1 hNext
  | free ptr => exact h.next_free hAllowed hNext
  | sbrk size =>
    obtain ⟨hSound, hStored⟩ := h.forget.sbrk hP hWrap
    obtain rfl : _ = c' := Outcome.ret.inj hNext
    refine ⟨hSound, fun a ha => ?_⟩
    rw [hStored] at ha
    exact absurd ha List.not_mem_nil
  | store address value =>
    obtain rfl : _ = c' := Outcome.ret.inj hNext
    exact ⟨h.forget.store value hAllowed, fun a ha => absurd ha List.not_mem_nil⟩

theorem sound_of_reachable (hP : P.Sane) (hRun : Reachable Starts (Step P) c) : Sound P c := by
  refine hRun.invariant (Sound P) ?_ ?_
  · rintro _ ⟨memory, rfl⟩
    exact Sound.initial memory
  · intro s i s' hs hStep
    exact (hs.next hP hStep).1

end Steps

section Ranges

def Apart (r r' : Nat × Nat) : Prop := ∀ x, ¬ (InRange x r ∧ InRange x r')

def Inside (P : Platform) (r : Nat × Nat) : Prop := P.heapBegin ≤ r.1 ∧ r.1 + r.2 ≤ P.heapEnd

theorem Sound.ranges_inside (h : Sound P c) : ∀ r ∈ c.ranges, Inside P r := by
  intro r hr
  rcases List.mem_append.mp hr with hr | hr
  · have hOpen : c.state.freeRoot ≠ 0 := by
      intro hNull
      rw [h.closed hNull] at hr
      exact absurd hr List.not_mem_nil
    obtain ⟨slabs, hLayout⟩ := h.opened hOpen
    obtain ⟨t, ht, _, hPtr, hEnd⟩ := hLayout.live_inside hr
    have hBounds := hLayout.described.bounds ht
    have hLow := hLayout.low
    have hHigh := hLayout.high
    exact ⟨by omega, by omega⟩
  · obtain ⟨_, hLow, hHigh, _⟩ := h.foreign r hr
    exact ⟨hLow, hHigh⟩

theorem Layout.live_apart {slabs : List Slab} (h : Layout P c slabs) : c.live.Pairwise Apart := by
  refine h.nodup.imp_of_mem ?_
  intro b b' hb hb' hne x hIn
  obtain ⟨t, ht, hLabel, hPtr, hEnd⟩ := h.live_inside hb
  obtain ⟨t', ht', hLabel', hPtr', hEnd'⟩ := h.live_inside hb'
  simp only [InRange] at hIn
  have hSame : t = t' := h.described.tiles.eq_of_overlap ht ht' (by omega) (by omega)
  subst hSame
  exact hne (h.live_unique hb hb' (hPtr.trans hPtr'.symm))

theorem Layout.live_foreign_apart {slabs : List Slab} (h : Layout P c slabs) {b r : Nat × Nat}
    (hb : b ∈ c.live) (hr : r ∈ c.foreign) : Apart b r := by
  intro x hIn
  obtain ⟨t, ht, hLabel, hPtr, hEnd⟩ := h.live_inside hb
  have hBounds := h.described.bounds ht
  simp only [InRange] at hIn
  rcases h.foreign r hr with hEmpty | hBefore | hAfter | ⟨u, hu, huLabel, huStart, huStop⟩
  · omega
  · omega
  · omega
  · have hSame : t = u := h.described.tiles.eq_of_overlap ht hu (by omega) (by omega)
    rw [hSame, huLabel] at hLabel
    cases hLabel

theorem Sound.ranges_apart (h : Sound P c) : c.ranges.Pairwise Apart := by
  have hForeign : c.foreign.Pairwise Apart := by
    refine h.apart.imp ?_
    intro r r' hLe x hIn
    simp only [InRange] at hIn
    omega
  by_cases hNull : c.state.freeRoot = 0
  · rw [Config.ranges, h.closed hNull, List.nil_append]
    exact hForeign
  · obtain ⟨slabs, hLayout⟩ := h.opened hNull
    exact List.pairwise_append.mpr
      ⟨hLayout.live_apart, hForeign, fun b hb r hr => hLayout.live_foreign_apart hb hr⟩

end Ranges

section Replay

instance (c : Config) : (op : Op) → Decidable (Allowed c op)
  | .alloc _ _ => inferInstanceAs (Decidable (_ ∧ _))
  | .free ptr => inferInstanceAs (Decidable (∃ b ∈ c.live, b.1 = ptr))
  | .sbrk _ => inferInstanceAs (Decidable (_ < _))
  | .store address _ => inferInstanceAs (Decidable (∃ r ∈ c.ranges, InRange address r))

instance (P : Platform) (c : Config) : (op : Op) → Decidable (Unwrapped P c op)
  | .sbrk _ => inferInstanceAs (Decidable (_ < _))
  | .alloc _ _ => .isTrue trivial
  | .free _ => .isTrue trivial
  | .store _ _ => .isTrue trivial

/-- A completed call of any user, whatever size they ask for. -/
def Call (P : Platform) (c : Config) (op : Op) (c' : Config) : Prop :=
  Allowed c op ∧ c.next P op = .ret c'

def replay (P : Platform) : Config → List Op → Option Config
  | c, [] => some c
  | c, op :: ops =>
    if Allowed c op then
      match c.next P op with
      | .ret c' => replay P c' ops
      | _ => none
    else none

theorem replay_cons {ops : List Op} (h : replay P c (op :: ops) = some c') :
    ∃ d, Call P c op d ∧ replay P d ops = some c' := by
  rw [replay] at h
  split at h
  · rename_i hAllowed
    split at h
    · rename_i d hNext
      exact ⟨d, ⟨hAllowed, hNext⟩, h⟩
    · cases h
  · cases h

theorem reachable_of_replay {step : Config → Op → Config → Prop} {ops : List Op}
    (hStep : ∀ c op c', op ∈ ops → Call P c op c' → step c op c')
    (hStart : Reachable Starts step c) (h : replay P c ops = some c') :
    Reachable Starts step c' := by
  induction ops generalizing c with
  | nil =>
    obtain rfl : c = c' := Option.some.inj h
    exact hStart
  | cons op ops ih =>
    obtain ⟨d, hCall, hRest⟩ := replay_cons h
    refine ih (fun c op' c' hMem => hStep c op' c' (List.mem_cons_of_mem _ hMem)) ?_ hRest
    exact .step hStart (hStep _ _ _ List.mem_cons_self hCall)

def blank : Config := ⟨initial (fun _ => 0), [], []⟩

theorem exists_of_replay (step : Config → Op → Config → Prop) (ops : List Op) (test : Config → Prop)
    [DecidablePred test] (hStep : ∀ c op c', op ∈ ops → Call P c op c' → step c op c')
    (h : (replay P blank ops).any (fun c => decide (test c)) = true) :
    ∃ c, Reachable Starts step c ∧ test c := by
  obtain ⟨c, hc, hTest⟩ := (Option.any_eq_true _ _).mp h
  exact ⟨c, reachable_of_replay hStep (.init ⟨_, rfl⟩) hc, of_decide_eq_true hTest⟩

end Replay

section Isolation

/-- The sizes and alignments of a well-behaved program. -/
def Bounded : Op → Prop
  | .alloc _ alignment => alignment < 2 ^ 62
  | .sbrk size => size < 2 ^ 63
  | _ => True

def BoundedCall (P : Platform) (c : Config) (op : Op) (c' : Config) : Prop :=
  Bounded op ∧ Call P c op c'

theorem Sound.unwrapped (hP : P.Sane) (h : Sound P c) (hBounded : Bounded op) :
    Unwrapped P c op := by
  cases op with
  | sbrk size =>
    obtain ⟨_, _, _, hHigh⟩ := h.sbrkBase_spec hP
    have hBegin := hP.begin_le
    have hEnd := hP.end_le
    have hRounding := rounding_lt size
    simp only [Bounded] at hBounded
    simp only [Unwrapped, NoWrap]
    omega
  | alloc size alignment => trivial
  | free ptr => trivial
  | store address value => trivial

theorem sound_of_boundedCalls (hP : P.Sane) (hRun : Reachable Starts (BoundedCall P) c) :
    Sound P c := by
  refine hRun.invariant (Sound P) ?_ ?_
  · rintro _ ⟨memory, rfl⟩
    exact Sound.initial memory
  · rintro s i s' hs ⟨hBounded, hAllowed, hNext⟩
    exact (hs.next hP ⟨hAllowed, hs.unwrapped hP hBounded, hNext⟩).1

/-- What users of the heap hold is disjoint and inside the heap, and no completed
call stores a word into what they held when it began. -/
theorem heap_isolation (hPage : P.pageSize % 8 = 0) (hPos : 0 < P.pageSize)
    (hPageLe : P.pageSize ≤ 2 ^ 62) (hBegin : P.heapBegin ≤ P.heapEnd) (hEnd : P.heapEnd ≤ 2 ^ 48)
    (hRun : Reachable Starts (BoundedCall P) c) :
    c.ranges.Pairwise Apart ∧ (∀ r ∈ c.ranges, Inside P r) ∧
      ∀ op c', BoundedCall P c op c' → ∀ a ∈ c'.state.stored, Clear c a := by
  have hP : P.Sane := ⟨hPos, hPage, hPageLe, by omega, by omega⟩
  have hSound := sound_of_boundedCalls hP hRun
  refine ⟨hSound.ranges_apart, hSound.ranges_inside, ?_⟩
  rintro op c' ⟨hBounded, hAllowed, hNext⟩
  exact (hSound.next hP ⟨hAllowed, hSound.unwrapped hP hBounded, hNext⟩).2

instance : DecidablePred Bounded
  | .alloc _ _ => inferInstanceAs (Decidable (_ < _))
  | .sbrk _ => inferInstanceAs (Decidable (_ < _))
  | .free _ => .isTrue trivial
  | .store _ _ => .isTrue trivial

theorem bounded_of_replay (ops : List Op) (test : Config → Prop) [DecidablePred test]
    (hBounded : ∀ op ∈ ops, Bounded op)
    (h : (replay P blank ops).any (fun c => decide (test c)) = true) :
    ∃ c, Reachable Starts (BoundedCall P) c ∧ test c :=
  exists_of_replay _ ops test (fun _ op _ hMem hCall => ⟨hBounded op hMem, hCall⟩) h

theorem heap_isolation_after_three_calls :
    ∃ c, Reachable Starts (BoundedCall ⟨4096, 4096, 409600, false⟩) c ∧
      c.ranges = [(8232, 5000), (4112, 100), (8192, 24)] ∧ c.ranges.Pairwise Apart := by
  obtain ⟨c, hRun, hRanges⟩ := bounded_of_replay (P := ⟨4096, 4096, 409600, false⟩)
    [.alloc 100 16, .sbrk 24, .alloc 5000 8]
    (fun c => c.ranges = [(8232, 5000), (4112, 100), (8192, 24)]) (by decide) (by decide +kernel)
  refine ⟨c, hRun, hRanges, ?_⟩
  exact (heap_isolation (by decide) (by decide) (by decide) (by decide) (by decide) hRun).1

/-- With a page size next to the word size the region asked for wraps: a block is
handed out past the end of the heap. And a call that ends the program may have
overwritten a live block before it notices that the slab it chose is too small. -/
theorem heap_isolation_fails :
    (∃ c, Reachable Starts (BoundedCall ⟨2 ^ 64 - 8, 8, 24, false⟩) c ∧ c.live = [(32, 8)] ∧
      c.foreign = [(8, 16)] ∧ 8 ∈ c.state.stored ∧ ¬ Inside ⟨2 ^ 64 - 8, 8, 24, false⟩ (32, 8)) ∧
    ∃ c, Reachable Starts (BoundedCall ⟨4096, 4096, 409600, false⟩) c ∧ (4128, 40) ∈ c.live ∧
      (dandelionAlloc ⟨4096, 4096, 409600, false⟩ c.state.forget 8 64).1 = .exit 7 ∧
      4144 ∈ (dandelionAlloc ⟨4096, 4096, 409600, false⟩ c.state.forget 8 64).2.stored ∧
      InRange 4144 (4128, 40) := by
  constructor
  · obtain ⟨c, hRun, hLive, hForeign, hStored⟩ := bounded_of_replay
      (P := ⟨2 ^ 64 - 8, 8, 24, false⟩)
      [.sbrk 16, .alloc 8 8]
      (fun c => c.live = [(32, 8)] ∧ c.foreign = [(8, 16)] ∧ 8 ∈ c.state.stored)
      (by decide) (by decide +kernel)
    exact ⟨c, hRun, hLive, hForeign, hStored, by simp [Inside]⟩
  · obtain ⟨c, hRun, hLive, hExit, hStored⟩ := bounded_of_replay (P := ⟨4096, 4096, 409600, false⟩)
      [.alloc 8 8, .alloc 40 8, .alloc 3992 8, .free 4104]
      (fun c => (4128, 40) ∈ c.live ∧
        (dandelionAlloc ⟨4096, 4096, 409600, false⟩ c.state.forget 8 64).1 = .exit 7 ∧
        4144 ∈ (dandelionAlloc ⟨4096, 4096, 409600, false⟩ c.state.forget 8 64).2.stored)
      (by decide) (by decide +kernel)
    exact ⟨c, hRun, hLive, hExit, hStored, by simp [InRange]⟩

end Isolation

end Dandelion.Runtime.Heap
