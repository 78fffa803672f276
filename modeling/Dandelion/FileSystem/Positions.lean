import Mathlib.Data.List.TakeWhile
import Dandelion.FileSystem.Creation

/-! # Positions in the tree

The position of a node is the list of names on the way to it from the root. A
node has only one position. Creating directories on the way along a path adds
nodes at positions that the walk itself comes through.
-/

namespace Dandelion.FileSystem

def entryName (m : Memory) (p : Ptr) : Path := trim (nameOf m p) fsNameLength

inductive At (m : Memory) (L : Ptr → List Ptr) : List Path → Ptr → Prop
  | root : At m L [] fsRoot
  | child {π : List Path} {d p : Ptr} : At m L π d → p ∈ L d → At m L (π ++ [entryName m p]) p

/-- The position a component leads to; above the root there is only the root. -/
def advance (π : List Path) (c : Path) : List Path :=
  if c = [dot] then π else if c = [dot, dot] then π.dropLast else π ++ [c]

def clean (π : List Path) (names : List Path) : List Path := names.foldl advance π

def visits : List Path → List Path → List (List Path)
  | _, [] => []
  | π, c :: rest => advance π c :: visits (advance π c) rest

variable {P : Platform} {s s' : State} {m m' : Memory} {L L' : Ptr → List Ptr} {c d n p q r : Ptr}
  {a b : List Ptr} {e f : DFile} {π ρ : List Path} {preventUp : Bool}

section Position

theorem entryName_of (hf : m.files p = some f) : entryName m p = trim f.name fsNameLength := by
  rw [entryName, nameOf_of hf]

theorem trim_of_nonzero {name : Path} (h : 0 ∉ name) : trim name name.length = name := by
  rw [trim, List.take_length, List.takeWhile_eq_self_iff]
  intro c hc
  exact decide_eq_true fun hZero => h (hZero ▸ hc)

theorem At.rooted (h : At m L π p) : Rooted L p := by
  induction h with
  | root => exact .root
  | child _ hp ih => exact ih.child hp

theorem Rooted.at (h : Rooted L p) : ∃ π, At m L π p := by
  induction h with
  | refl => exact ⟨[], .root⟩
  | tail _ hp ih =>
    obtain ⟨π, hπ⟩ := ih
    exact ⟨_, .child hπ hp⟩

theorem At.inv (h : At m L π p) :
    π = [] ∧ p = fsRoot ∨ ∃ ρ d, π = ρ ++ [entryName m p] ∧ At m L ρ d ∧ p ∈ L d := by
  cases h with
  | root => exact Or.inl ⟨rfl, rfl⟩
  | child hd hp => exact Or.inr ⟨_, _, rfl, hd, hp⟩

theorem At.unique (hListing : Listing P m L) (h : At m L π p) (h' : At m L ρ p) : π = ρ := by
  induction h generalizing ρ with
  | root =>
    rcases h'.inv with ⟨rfl, _⟩ | ⟨_, d, _, _, hp⟩
    · rfl
    · exact absurd hp (hListing.root_unlisted d)
  | @child π d p _ hp ih =>
    rcases h'.inv with ⟨_, rfl⟩ | ⟨ρ, d', rfl, hd', hp'⟩
    · exact absurd hp (hListing.root_unlisted d)
    · obtain rfl := hListing.same_parent hp hp'
      rw [ih hd']

theorem Rooted.not_own_child (hListing : Listing P m L) (h : Rooted L p) : p ∉ L p := by
  intro hMem
  obtain ⟨π, hAt⟩ := h.at (m := m)
  have hEq := congrArg List.length (hAt.unique hListing (.child hAt hMem))
  rw [List.length_append, List.length_singleton] at hEq
  omega

theorem At.up (hListing : Listing P m L) (h : At m L π p) :
    At m L π.dropLast (if parentOf m p = 0 then p else parentOf m p) := by
  rcases h.inv with ⟨rfl, rfl⟩ | ⟨ρ, d, rfl, hd, hp⟩
  · obtain ⟨f, hf, _, hParent⟩ := hListing.root
    rw [if_pos ((parentOf_of hf).trans hParent)]
    exact h
  · obtain ⟨f, hf, rfl⟩ := hListing.live hp
    obtain ⟨e, he, _⟩ := hListing.directory hp
    rw [parentOf_of hf, if_neg (hListing.ne_zero he), List.dropLast_concat]
    exact hd

theorem At.congr (hName : ∀ d, ∀ q ∈ L d, entryName m' q = entryName m q) (h : At m L π p) :
    At m' L π p := by
  induction h with
  | root => exact .root
  | @child π d p _ hp ih =>
    rw [← hName d p hp]
    exact .child ih hp

end Position

section Changes

theorem AddsNode.entryName_eq (h : AddsNode s s' n f) (hListing : Listing P s.memory L)
    (hq : q ∈ L d) :
    entryName s'.memory q = entryName s.memory q := by
  obtain ⟨e, he, _⟩ := hListing.live hq
  rw [entryName_of he, entryName_of (h.old he)]

theorem AddsNode.at_iff (h : AddsNode s s' n f) (hListing : Listing P s.memory L) :
    At s'.memory L π p ↔ At s.memory L π p :=
  ⟨fun hAt => hAt.congr fun _ _ hq => (h.entryName_eq hListing hq).symm,
    fun hAt => hAt.congr fun _ _ hq => h.entryName_eq hListing hq⟩

section

variable (h : Links P s L d n a b s' L')

include h

theorem Links.entryName_eq (q : Ptr) :
    entryName s'.memory q = entryName s.memory q := by
  rw [entryName, entryName, h.edits.nameOf_eq fun _ _ => rfl]

theorem Links.mem_iff : q ∈ L' c ↔ q ∈ L c ∨ c = d ∧ q = n := by
  rw [h.lists]
  by_cases hc : c = d
  · subst hc
    rw [Function.update_self, h.split]
    simp only [List.mem_append, List.mem_cons, true_and]
    tauto
  · rw [Function.update_of_ne hc]
    simp only [hc, false_and, or_false]

theorem Links.at_old (hAt : At s.memory L π p) : At s'.memory L' π p := by
  induction hAt with
  | root => exact .root
  | @child π c p _ hp ih =>
    rw [← h.entryName_eq p]
    exact .child ih (h.mem_iff.mpr (Or.inl hp))

theorem Links.at_new (hAt : At s.memory L π d) :
    At s'.memory L' (π ++ [entryName s.memory n]) n := by
  rw [← h.entryName_eq n]
  exact .child (h.at_old hAt) (h.mem_iff.mpr (Or.inr ⟨rfl, rfl⟩))

theorem Links.at_inv (hListing : Listing P s.memory L) (hd : At s.memory L π d)
    (hEmpty : L n = []) (hne : n ≠ d) (hAt : At s'.memory L' ρ q) :
    At s.memory L ρ q ∨ ρ = π ++ [entryName s.memory n] ∧ q = n := by
  induction hAt with
  | root => exact Or.inl .root
  | @child ρ c q _ hq ih =>
    rw [h.entryName_eq q]
    have hc : c ≠ n := by
      rintro rfl
      rcases h.mem_iff.mp hq with hOld | ⟨hEq, _⟩
      · rw [hEmpty] at hOld
        exact absurd hOld List.not_mem_nil
      · exact hne hEq
    have hOldAt : At s.memory L ρ c := by
      rcases ih with hOld | ⟨_, hEq⟩
      · exact hOld
      · exact absurd hEq hc
    rcases h.mem_iff.mp hq with hOld | ⟨rfl, rfl⟩
    · exact Or.inl (.child hOldAt hOld)
    · exact Or.inr ⟨by rw [hOldAt.unique hListing hd], rfl⟩

end

theorem trim_nameDirectory (bytes : Nat → UInt8) {c : Path} (h : c.length ≤ fsNameLength) :
    trim ((DFile.ofBytes bytes).nameDirectory c).name fsNameLength = trim c c.length := by
  have hJunk : (DFile.ofBytes bytes).name.length = fsNameLength := by
    simp only [DFile.ofBytes, List.length_map, List.length_range]
  simp only [trim, DFile.nameDirectory, List.take_length]
  rcases Nat.lt_or_eq_of_le h with hLt | hEq
  · -- the terminator lies within the field
    obtain ⟨x, rest, hRest⟩ : ∃ x rest, (DFile.ofBytes bytes).name.drop c.length = x :: rest := by
      cases hDrop : (DFile.ofBytes bytes).name.drop c.length with
      | nil =>
        have := List.drop_eq_nil_iff.mp hDrop
        omega
      | cons x rest => exact ⟨x, rest, rfl⟩
    obtain ⟨k, hk⟩ := Nat.exists_eq_add_of_lt hLt
    rw [hRest, List.set_append_right _ _ (Nat.le_refl _), Nat.sub_self, List.set_cons_zero,
      List.take_append, List.take_of_length_le h, show fsNameLength - c.length = k + 1 by omega,
      List.take_succ_cons, List.takeWhile_append]
    split
    · rename_i hAll
      rw [(List.takeWhile_prefix _).eq_of_length hAll]
      simp
    · rfl
  · rw [List.set_eq_of_length_le (by simp [hJunk, hEq]), List.drop_eq_nil_of_le (by omega),
      List.append_nil, List.take_of_length_le h]

theorem Creates.positions {names : List Path} (h : Creates P preventUp s L d names s' L' r)
    (hListing : Listing P s.memory L) (hd : At s.memory L π d) (hNames : ∀ c ∈ names, 0 ∉ c) :
    Listing P s'.memory L' ∧ (r ≠ 0 → At s'.memory L' (clean π names) r) ∧
      (∀ ρ q, At s.memory L ρ q → At s'.memory L' ρ q) ∧
      ∀ ρ q, At s'.memory L' ρ q → At s.memory L ρ q ∨ ρ ∈ visits π names := by
  induction h generalizing π with
  | done => exact ⟨hListing, fun _ => hd, fun _ _ h => h, fun _ _ h => Or.inl h⟩
  | stay _ ih =>
    have hStep : advance π [dot] = π := if_pos rfl
    obtain ⟨hL, hr, hOld, hNew⟩ := ih hListing hd fun c hc => hNames c (List.mem_cons_of_mem _ hc)
    simp only [clean, List.foldl_cons, visits, hStep, List.mem_cons]
    exact ⟨hL, hr, hOld, fun ρ q hAt => (hNew ρ q hAt).imp_right Or.inr⟩
  | up _ _ ih =>
    have hStep : advance π [dot, dot] = π.dropLast := (if_neg (by decide)).trans (if_pos rfl)
    obtain ⟨hL, hr, hOld, hNew⟩ :=
      ih hListing (hd.up hListing) fun c hc => hNames c (List.mem_cons_of_mem _ hc)
    simp only [clean, List.foldl_cons, visits, hStep, List.mem_cons]
    exact ⟨hL, hr, hOld, fun ρ q hAt => (hNew ρ q hAt).imp_right Or.inr⟩
  | @enter s s' L L' d r c rest hDot hDots hDir hFound _ ih =>
    have hStep : advance π c = π ++ [c] := (if_neg hDot).trans (if_neg hDots)
    obtain ⟨hMem, hName⟩ := lookupIn_mem hFound
    rw [trim_of_nonzero (hNames c List.mem_cons_self)] at hName
    have hChild : At s.memory L (π ++ [c]) (lookupIn s.memory c (L d)) := by
      have hAt := At.child hd hMem
      rwa [entryName, hName] at hAt
    obtain ⟨hL, hr, hOld, hNew⟩ :=
      ih hListing hChild fun c hc => hNames c (List.mem_cons_of_mem _ hc)
    simp only [clean, List.foldl_cons, visits, hStep, List.mem_cons]
    exact ⟨hL, hr, hOld, fun ρ q hAt => (hNew ρ q hAt).imp_right Or.inr⟩
  | @make s s₁ s₂ s' L L₂ L' d n r c rest g a b hDot hDots hLength hDir hMissing hg hAdds
      hLinks _ ih =>
    have hStep : advance π c = π ++ [c] := (if_neg hDot).trans (if_neg hDots)
    have hListing₁ : Listing P s₁.memory L := hAdds.listing hListing fun _ => rfl
    have hd₁ : At s₁.memory L π d := (hAdds.at_iff hListing).mpr hd
    have hName : entryName s₁.memory n = c := by
      rw [entryName_of hAdds.live, trim_nameDirectory _ hLength,
        trim_of_nonzero (hNames c List.mem_cons_self)]
    have hn := hLinks.at_new hd₁
    rw [hName] at hn
    obtain ⟨hL, hr, hOld, hNew⟩ :=
      ih hLinks.listing hn fun c hc => hNames c (List.mem_cons_of_mem _ hc)
    simp only [clean, List.foldl_cons, visits, hStep, List.mem_cons]
    refine ⟨hL, hr, fun ρ q hAt => hOld ρ q (hLinks.at_old ((hAdds.at_iff hListing).mpr hAt)),
      fun ρ q hAt => ?_⟩
    rcases hNew ρ q hAt with hAt | hVisit
    · have hEmpty : L n = [] :=
        hListing.empty n fun f hf => by rw [hAdds.vacant.2.1] at hf; cases hf
      obtain ⟨e, he, _⟩ := isDirectory_iff.mp hDir
      rcases hLinks.at_inv hListing₁ hd₁ hEmpty (hAdds.vacant.ne_file he) hAt with hAt | ⟨rfl, _⟩
      · exact Or.inl ((hAdds.at_iff hListing).mp hAt)
      · exact Or.inr (Or.inl (by rw [hName]))
    · exact Or.inr (Or.inr hVisit)
  | @refused s s' L d names hSame =>
    have hEq : ∀ q, entryName s'.memory q = entryName s.memory q := fun q => by
      rw [entryName, entryName, nameOf, nameOf, hSame.files]
    refine ⟨hListing.of_files hSame.files, fun h => absurd rfl h,
      fun ρ q hAt => hAt.congr fun _ q _ => hEq q, fun ρ q hAt =>
        Or.inl (hAt.congr fun _ q _ => (hEq q).symm)⟩

end Changes

end Dandelion.FileSystem
