import Dandelion.Foundation.BoundaryTags
import Dandelion.Runtime.Heap

/-! # The slab layout of the runtime heap

Slabs are the spans of a tiling of the descriptor array. The owner of a slab
is what the descriptors alone cannot tell: whether it holds a live block, or
skips over memory that another user of `dandelion_sbrk` was given.
-/

namespace Dandelion.Runtime.Heap

open Foundation Foundation.Words Foundation.Tiling Foundation.BoundaryTags

inductive Owner where
  | free
  | block (size : Nat)
  | skip
  deriving DecidableEq

def Owner.occupied : Owner → Bool
  | .free => false
  | .block _ => true
  | .skip => true

theorem Owner.occupied_eq_true {o : Owner} : o.occupied = true ↔ o ≠ .free := by
  cases o <;> simp [Owner.occupied]

abbrev Slab := Span Owner

def descriptor (owner : Owner) (index : Nat) : Nat := tagged index owner.occupied

theorem isOccupied_descriptor {owner : Owner} {i : Nat} (h : i < topBit) :
    isOccupied (descriptor owner i) = owner.occupied := tag_of_tagged h

theorem clearOccupied_descriptor {owner : Owner} {i : Nat} (h : i < topBit) :
    clearOccupied (descriptor owner i) = i := payload_of_tagged h

theorem descriptor_free (i : Nat) : descriptor .free i = i := rfl

theorem setOccupied_eq {owner : Owner} (h : owner ≠ .free) (i : Nat) :
    setOccupied i = descriptor owner i := by
  rw [descriptor, Owner.occupied_eq_true.mpr h]
  rfl

theorem isOccupied_maxVal : isOccupied maxVal = true := tag_of_maxWord

def State.view (s : State) : Nat → Nat := fun i => s.memory (s.freeRoot + 8 * i)

theorem State.address_eq {s : State} {i : Nat} (h : s.freeRoot + 8 * i < 2 ^ 64) :
    s.address i = s.freeRoot + 8 * i := by
  rw [State.address, mul64_of_lt (by omega), add64_of_lt h]

theorem State.get_eq {s : State} {i : Nat} (h : s.freeRoot + 8 * i < 2 ^ 64) :
    s.get i = s.view i := by
  rw [State.get, State.address_eq h, State.view]

@[simp] theorem State.set_freeRoot (s : State) (i v : Nat) :
    (s.set i v).freeRoot = s.freeRoot := rfl
@[simp] theorem State.set_allocBase (s : State) (i v : Nat) :
    (s.set i v).allocBase = s.allocBase := rfl
@[simp] theorem State.set_lastDescriptor (s : State) (i v : Nat) :
    (s.set i v).lastDescriptor = s.lastDescriptor := rfl

theorem State.set_view {s : State} {i : Nat} (h : s.freeRoot + 8 * i < 2 ^ 64) (v : Nat) :
    (s.set i v).view = Function.update s.view i v := by
  funext j
  simp only [State.view, State.set, State.address_eq h]
  by_cases hj : j = i
  · subst hj
    rw [Function.update_self, Function.update_self]
  · rw [Function.update_of_ne hj, Function.update_of_ne (by omega)]
    rfl

def State.mark (s : State) (t : Slab) : State :=
  (s.set t.start (descriptor t.label t.stop)).set t.stop (descriptor t.label t.start)

@[simp] theorem State.mark_freeRoot (s : State) (t : Slab) : (s.mark t).freeRoot = s.freeRoot := rfl
@[simp] theorem State.mark_allocBase (s : State) (t : Slab) :
    (s.mark t).allocBase = s.allocBase := rfl
@[simp] theorem State.mark_lastDescriptor (s : State) (t : Slab) :
    (s.mark t).lastDescriptor = s.lastDescriptor := rfl

theorem State.mark_view {s : State} {t : Slab} (hLe : t.start ≤ t.stop)
    (h : s.freeRoot + 8 * t.stop < 2 ^ 64) :
    (s.mark t).view = BoundaryTags.mark descriptor s.view t := by
  rw [State.mark, State.set_view (by simpa using h), State.set_view (by omega)]
  rfl

structure Touches (ok : Nat → Prop) (s s' : State) : Prop where
  root : s'.freeRoot = s.freeRoot
  stored : ∀ a ∈ s'.stored, a ∈ s.stored ∨ ∃ i, ok i ∧ a = s.freeRoot + 8 * i

theorem Touches.refl (ok : Nat → Prop) (s : State) : Touches ok s s := ⟨rfl, fun _ ha => Or.inl ha⟩

theorem Touches.trans {ok : Nat → Prop} {s s' s'' : State} (h : Touches ok s s')
    (h' : Touches ok s' s'') : Touches ok s s'' where
  root := h'.root.trans h.root
  stored a ha := by
    rcases h'.stored a ha with ha | ⟨i, hi, rfl⟩
    · exact h.stored a ha
    · exact Or.inr ⟨i, hi, by rw [h.root]⟩

theorem Touches.set {ok : Nat → Prop} {s : State} {i : Nat} (v : Nat)
    (h : s.freeRoot + 8 * i < 2 ^ 64) (hi : ok i) : Touches ok s (s.set i v) where
  root := rfl
  stored a ha := by
    rcases List.mem_cons.mp ha with rfl | ha
    · exact Or.inr ⟨i, hi, State.address_eq h⟩
    · exact Or.inl ha

theorem Touches.mark {ok : Nat → Prop} {s : State} {t : Slab} (hLe : t.start ≤ t.stop)
    (h : s.freeRoot + 8 * t.stop < 2 ^ 64) (hStart : ok t.start) (hStop : ok t.stop) :
    Touches ok s (s.mark t) :=
  (Touches.set _ (by omega) hStart).trans (Touches.set _ (by simpa using h) hStop)

/-- The descriptor array describes the slabs: they tile it up to the last
descriptor, carry matching descriptors, and no two free ones are neighbours. -/
structure Described (s : State) (slabs : List Slab) : Prop where
  rooted : 0 < s.freeRoot
  range : s.freeRoot + 8 * (s.lastDescriptor + 1) < 2 ^ 64
  positive : 0 < s.lastDescriptor
  tiles : Tiles 0 s.lastDescriptor slabs
  marked : ∀ t ∈ slabs, Marked descriptor s.view t
  sentinel : s.view s.lastDescriptor = maxVal
  sparse : Sparse (· = Owner.free) slabs

variable {s : State} {slabs : List Slab}

theorem Described.with_allocBase (h : Described s slabs) (base : Nat) :
    Described { s with allocBase := base } slabs :=
  ⟨h.rooted, h.range, h.positive, h.tiles, h.marked, h.sentinel, h.sparse⟩

theorem Described.get_eq (h : Described s slabs) {i : Nat} (hi : i ≤ s.lastDescriptor) :
    s.get i = s.view i := State.get_eq (by have := h.range; omega)

theorem Described.bounds (h : Described s slabs) {t : Slab} (ht : t ∈ slabs) :
    t.start ≤ t.stop ∧ t.stop < s.lastDescriptor := (h.tiles.bounds ht).2

theorem Described.last_lt (h : Described s slabs) : s.lastDescriptor + 1 < 2 ^ 61 := by
  have := h.range
  omega

theorem lt_topBit {i : Nat} (h : i < 2 ^ 61) : i < topBit := by
  simp only [topBit]
  omega

theorem Described.get_start (h : Described s slabs) {t : Slab} (ht : t ∈ slabs) :
    s.get t.start = descriptor t.label t.stop := by
  have hBounds := h.bounds ht
  rw [h.get_eq (by omega), (h.marked t ht).1]

theorem Described.get_stop (h : Described s slabs) {t : Slab} (ht : t ∈ slabs) :
    s.get t.stop = descriptor t.label t.start := by
  have hBounds := h.bounds ht
  rw [h.get_eq (by omega), (h.marked t ht).2]

theorem Described.get_last (h : Described s slabs) : s.get s.lastDescriptor = maxVal := by
  rw [h.get_eq le_rfl, h.sentinel]

end Dandelion.Runtime.Heap
