import Dandelion.Foundation.Runs
import Dandelion.Runtime.HeapAlloc
import Dandelion.Runtime.HeapFree

/-! # Runs of the heap and what its users hold

A configuration adds to the heap state the live blocks and the ranges that
another user of `dandelion_sbrk` was given. Users may store anything into what
they hold. The invariant ties both lists to the slabs.
-/

namespace Dandelion.Runtime.Heap

open Foundation

def Outcome.map {α β : Type} (f : α → β) : Outcome α → Outcome β
  | .ret a => .ret (f a)
  | .exit code => .exit code
  | .diverge => .diverge

/-- Ranges are pairs of a start address and a length in bytes. -/
structure Config where
  state : State
  live : List (Nat × Nat)
  foreign : List (Nat × Nat)

def Config.ranges (c : Config) : List (Nat × Nat) := c.live ++ c.foreign

inductive Op where
  | alloc (size alignment : Nat)
  | free (ptr : Nat)
  | sbrk (size : Nat)
  | store (address value : Nat)

def InRange (a : Nat) (r : Nat × Nat) : Prop := r.1 ≤ a ∧ a < r.1 + r.2

instance (a : Nat) (r : Nat × Nat) : Decidable (InRange a r) := inferInstanceAs (Decidable (_ ∧ _))

def State.forget (s : State) : State := { s with stored := [] }

/-- A store of the program may change any bytes of the word it falls into. -/
def State.poke (s : State) (address value : Nat) : State :=
  { s with memory := Function.update s.memory (address - address % 8) value }

def Config.next (P : Platform) (c : Config) : Op → Outcome Config
  | .alloc size alignment =>
    let r := dandelionAlloc P c.state.forget size alignment
    r.1.map fun p => ⟨r.2, if p = 0 then c.live else (p, size) :: c.live, c.foreign⟩
  | .free ptr =>
    let r := dandelionFree P c.state.forget ptr
    r.1.map fun _ => ⟨r.2, c.live.filter (fun b => b.1 ≠ ptr), c.foreign⟩
  | .sbrk size =>
    let r := dandelionSbrk P c.state.forget size
    .ret ⟨r.2, c.live, if r.1 = 0 then c.foreign else (r.1, size) :: c.foreign⟩
  | .store address value => .ret ⟨c.state.forget.poke address value, c.live, c.foreign⟩

/-- The calls a program can make: arguments of type `size_t`, only live pointers
are freed, and stores stay inside ranges the program was handed. -/
def Allowed (c : Config) : Op → Prop
  | .alloc size alignment => size < 2 ^ 64 ∧ alignment < 2 ^ 64
  | .free ptr => ∃ b ∈ c.live, b.1 = ptr
  | .sbrk size => size < 2 ^ 64
  | .store address _ => ∃ r ∈ c.ranges, InRange address r

def Starts (c : Config) : Prop := ∃ memory, c = ⟨initial memory, [], []⟩

/-- A request of another user of `dandelion_sbrk` does not wrap around the word size. -/
def Unwrapped (P : Platform) (c : Config) : Op → Prop
  | .sbrk size => NoWrap P c.state size
  | _ => True

def Step (P : Platform) (c : Config) (op : Op) (c' : Config) : Prop :=
  Allowed c op ∧ Unwrapped P c op ∧ c.next P op = .ret c'

/-- The slabs account for everything the users hold. -/
structure Layout (P : Platform) (c : Config) (slabs : List Slab) : Prop where
  described : Described c.state slabs
  rooted : Rooted c.state
  low : P.heapBegin ≤ c.state.freeRoot
  high : c.state.freeRoot + 8 * (c.state.lastDescriptor + 1) ≤ P.heapEnd
  room : ∀ t ∈ slabs, ∀ size, t.label = .block size → 0 < size ∧
    t.start + (size + 7) / 8 + 1 ≤ t.stop
  live : ∀ b : Nat × Nat, b ∈ c.live ↔
    ∃ t ∈ slabs, t.label = .block b.2 ∧ b.1 = c.state.freeRoot + 8 * (t.start + 1)
  nodup : c.live.Nodup
  foreign : ∀ r ∈ c.foreign, r.2 = 0 ∨ r.1 + r.2 ≤ c.state.freeRoot ∨
    c.state.freeRoot + 8 * (c.state.lastDescriptor + 1) ≤ r.1 ∨
    ∃ t ∈ slabs, t.label = .skip ∧ c.state.freeRoot + 8 * (t.start + 1) ≤ r.1 ∧
      r.1 + r.2 ≤ c.state.freeRoot + 8 * t.stop
  skips : ∀ t ∈ slabs, t.label = .skip → c.foreign ≠ []
  gap : c.foreign = [] → c.state.allocBase = c.state.freeRoot + 8 * (c.state.lastDescriptor + 1)

structure Sound (P : Platform) (c : Config) : Prop where
  base_mod : c.state.allocBase % 8 = 0
  base_low : c.state.allocBase ≠ 0 → P.heapBegin ≤ c.state.allocBase
  base_high : c.state.allocBase ≤ max P.heapBegin P.heapEnd + 7
  foreign : ∀ r ∈ c.foreign, r.1 % 8 = 0 ∧ P.heapBegin ≤ r.1 ∧ r.1 + r.2 ≤ P.heapEnd ∧
    r.1 + r.2 ≤ c.state.allocBase
  apart : c.foreign.Pairwise (fun a b => b.1 + b.2 ≤ a.1)
  closed : c.state.freeRoot = 0 → c.live = []
  opened : c.state.freeRoot ≠ 0 → ∃ slabs, Layout P c slabs

/-- The word at `a` shares no byte with a range in use. -/
def Clear (c : Config) (a : Nat) : Prop :=
  ∀ r ∈ c.ranges, ∀ x, a ≤ x → x < a + 8 → ¬ InRange x r

section Clear

variable {P : Platform} {c : Config} {slabs : List Slab}

theorem Layout.live_inside (h : Layout P c slabs) {b : Nat × Nat} (hb : b ∈ c.live) :
    ∃ t ∈ slabs, t.label = .block b.2 ∧ b.1 = c.state.freeRoot + 8 * (t.start + 1) ∧
      b.1 + b.2 ≤ c.state.freeRoot + 8 * t.stop := by
  obtain ⟨t, ht, hLabel, hPtr⟩ := (h.live b).mp hb
  obtain ⟨_, hRoom⟩ := h.room t ht b.2 hLabel
  exact ⟨t, ht, hLabel, hPtr, by omega⟩

theorem Layout.clear_of_boundary (h : Layout P c slabs) {i : Nat} (hi : i ≤ c.state.lastDescriptor)
    (hBoundary : ∀ t ∈ slabs, t.label ≠ .free → ¬ (t.start < i ∧ i < t.stop)) :
    Clear c (c.state.freeRoot + 8 * i) := by
  intro r hr x hLow hHigh hIn
  unfold InRange at hIn
  rcases List.mem_append.mp hr with hr | hr
  · obtain ⟨t, ht, hLabel, hPtr, hEnd⟩ := h.live_inside hr
    refine hBoundary t ht (by simp [hLabel]) ⟨?_, ?_⟩ <;> omega
  · rcases h.foreign r hr with hEmpty | hBefore | hAfter | ⟨t, ht, hLabel, hStart, hStop⟩
    · omega
    · omega
    · omega
    · refine hBoundary t ht (by simp [hLabel]) ⟨?_, ?_⟩ <;> omega

theorem Sound.clear_above (hSound : Sound P c) (h : Layout P c slabs) {a : Nat}
    (ha : c.state.allocBase ≤ a) : Clear c a := by
  intro r hr x hLow hHigh hIn
  unfold InRange at hIn
  have hBase := h.rooted.base_le
  rcases List.mem_append.mp hr with hr | hr
  · obtain ⟨t, ht, _, _, hEnd⟩ := h.live_inside hr
    have hBounds := h.described.bounds ht
    omega
  · obtain ⟨_, _, _, hEnd⟩ := hSound.foreign r hr
    omega

theorem Described.boundary {s : State} (h : Described s slabs) {t : Slab} (ht : t ∈ slabs) {i : Nat}
    (hi : i = t.start ∨ i = t.stop) : ∀ u ∈ slabs, ¬ (u.start < i ∧ i < u.stop) := by
  rintro u hu ⟨hLow, hHigh⟩
  have hBounds := h.bounds ht
  have hEq : u = t := h.tiles.eq_of_overlap hu ht (by omega) (by omega)
  subst hEq
  omega

theorem Described.free_boundary {s : State} (h : Described s slabs) {t : Slab} (ht : t ∈ slabs)
    (hFree : t.label = .free) {i : Nat} (hLow : t.start ≤ i) (hHigh : i ≤ t.stop) :
    ∀ u ∈ slabs, u.label ≠ .free → ¬ (u.start < i ∧ i < u.stop) := by
  rintro u hu hOcc ⟨huLow, huHigh⟩
  have hEq : u = t := h.tiles.eq_of_overlap hu ht (by omega) (by omega)
  exact hOcc (hEq ▸ hFree)

theorem Layout.clear_free (h : Layout P c slabs) {t : Slab} (ht : t ∈ slabs) {i : Nat}
    (hi : FreeCell slabs t i) : Clear c (c.state.freeRoot + 8 * i) := by
  have hCell : ∃ u ∈ slabs, i = u.start ∨ i = u.stop := by
    rcases hi with hi | ⟨u, hu, _, hi⟩
    · exact ⟨t, ht, hi⟩
    · exact ⟨u, hu, hi⟩
  obtain ⟨u, hu, hi⟩ := hCell
  have hBounds := h.described.bounds hu
  exact h.clear_of_boundary (by omega) (fun v hv _ => h.described.boundary hu hi v hv)

theorem Layout.clear_place {before after : List Slab} {t : Slab}
    (h : Layout P c (before ++ t :: after)) (hFree : t.label = .free) {i : Nat}
    (hi : PlaceCell before t i) :
    Clear c (c.state.freeRoot + 8 * i) := by
  rcases hi with ⟨hLow, hHigh⟩ | ⟨p, hp, rfl⟩
  · have hBounds := h.described.bounds (t := t) (by simp)
    exact h.clear_of_boundary (by omega) (h.described.free_boundary (by simp) hFree hLow hHigh)
  · have hMem : p ∈ before ++ t :: after := List.mem_append_left _ hp
    have hBounds := h.described.bounds hMem
    exact h.clear_of_boundary (by omega) (fun v hv _ => h.described.boundary hMem (Or.inl rfl) v hv)

theorem Sound.clear_grow (hSound : Sound P c) (h : Layout P c slabs) {first i : Nat}
    (hFirst : c.state.freeRoot + 8 * first = c.state.allocBase)
    (hi : GrowCell c.state.lastDescriptor first slabs i) : Clear c (c.state.freeRoot + 8 * i) := by
  rcases hi with rfl | hi | ⟨u, hu, hFree, rfl⟩
  · refine h.clear_of_boundary le_rfl ?_
    rintro u hu _ ⟨_, hHigh⟩
    have hBounds := h.described.bounds hu
    omega
  · exact hSound.clear_above h (by omega)
  · have hBounds := h.described.bounds hu
    exact h.clear_of_boundary (by omega) (fun v hv _ => h.described.boundary hu (Or.inl rfl) v hv)

end Clear

end Dandelion.Runtime.Heap
