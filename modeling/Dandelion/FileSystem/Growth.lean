import Dandelion.FileSystem.Lookups

/-! # One more node in the tree

A new node is linked to a directory. Paths that led somewhere lead to the same
node as before, and the name of the new node leads to it.
-/

namespace Dandelion.FileSystem

structure Grown (P : Platform) (s : State) (L : Ptr → List Ptr) (d n : Ptr) (a b : List Ptr)
    (f : DFile) (s' : State)
    (L' : Ptr → List Ptr) : Prop where
  listing : Listing P s'.memory L'
  split : L d = a ++ b
  lists : L' = Function.update L d (a ++ n :: b)
  fresh : s.memory.files n = none
  others : ∀ q, q ≠ n → s'.memory.files q = (s.memory.files q).map (linked d n a b q)
  node : s'.memory.files n = some f

def DFile.face (f : DFile) : DFile :=
  { f with next := 0, link := if f.type = .directory then 0 else f.link }

variable {P : Platform} {s s' s₁ : State} {m m' : Memory} {L L' : Ptr → List Ptr} {c d n q : Ptr}
  {a b l : List Ptr} {e f : DFile} {name : Path} {names : List Path}

section Lookup

theorem find_congr {t : Ptr → Bool} {t' : Ptr → Bool} (h : ∀ q ∈ l, t' q = t q) :
    l.find? t' = l.find? t := by
  induction l with
  | nil => rfl
  | cons x l ih =>
    rw [List.find?_cons, List.find?_cons, h x List.mem_cons_self,
      ih fun q hq => h q (List.mem_cons_of_mem _ hq)]

theorem lookupIn_congr (hSame : ∀ q ∈ l, nameOf m' q = nameOf m q) :
    lookupIn m' name l = lookupIn m name l := by
  rw [lookupIn, lookupIn, find_congr fun q hq => by rw [hSame q hq]]

theorem lookupIn_skip (hn : trim (nameOf m n) fsNameLength ≠ trim name name.length) :
    lookupIn m name (a ++ n :: b) = lookupIn m name (a ++ b) := by
  rw [lookupIn, lookupIn, List.find?_append, List.find?_append,
    List.find?_cons_of_neg (by simpa using hn)]

theorem lookupIn_found (hn : trim (nameOf m n) fsNameLength = trim name name.length)
    (hBefore : ∀ q ∈ a, trim (nameOf m q) fsNameLength ≠ trim name name.length) :
    lookupIn m name (a ++ n :: b) = n := by
  rw [lookupIn, List.find?_append, List.find?_eq_none.mpr fun q hq h =>
    hBefore q hq (of_decide_eq_true h),
    Option.none_or, List.find?_cons_of_pos (by simpa using hn), Option.getD_some]

theorem walk_kept (hDir : ∀ d, isDirectory m d = true → isDirectory m' d = true)
    (hStep : ∀ d name, isDirectory m d = true → stepTo m L d name ≠ 0 →
      stepTo m' L' d name = stepTo m L d name)
    (h : walk m L d names ≠ 0) : walk m' L' d names = walk m L d names := by
  induction names generalizing d with
  | nil => rfl
  | cons name rest ih =>
    rw [walk] at h
    split at h
    · rename_i hd
      split at h
      · exact absurd rfl h
      · rename_i hNext
        rw [walk, walk, if_pos hd, if_pos (hDir d hd), hStep d name hd hNext, if_neg hNext,
          if_neg hNext]
        exact ih h
    · exact absurd rfl h

end Lookup

section Grown

theorem Grown.of_links (hAdds : AddsNode s s₁ n f) (hLinks : Links P s₁ L d n a b s' L') :
    Grown P s L d n a b (linked d n a b n f) s' L' where
  listing := hLinks.listing
  split := hLinks.split
  lists := hLinks.lists
  fresh := hAdds.vacant.2.1
  others q hq := by rw [hLinks.edits.files, hAdds.files, Function.update_of_ne hq]
  node := by rw [hLinks.edits.files, hAdds.live, Option.map_some]

theorem Grown.edit {g : DFile → DFile} (h : Grown P s L d n a b f s₁ L')
    (hEdit : Edits s₁ s' (editAt n g))
    (hg : (g f).name = f.name ∧ (g f).next = f.next ∧ (g f).parent = f.parent ∧
      (g f).type = f.type ∧
      (f.type = .directory → (g f).link = f.link)) : Grown P s L d n a b (g f) s' L' where
  listing := by
    refine h.listing.edit hEdit fun q e he => ?_
    by_cases hq : q = n
    · subst hq
      obtain rfl := Option.mem_unique h.node he
      rwa [editAt, if_pos rfl]
    · rw [editAt, if_neg hq]
      exact ⟨rfl, rfl, rfl, rfl, fun _ => rfl⟩
  split := h.split
  lists := h.lists
  fresh := h.fresh
  others q hq := by
    rw [hEdit.files, h.others q hq, Option.map_map]
    congr 1
    funext e
    exact if_neg hq
  node := by
    rw [hEdit.files, h.node, Option.map_some]
    exact congrArg some (if_pos rfl)

section

variable (h : Grown P s L d n a b f s' L')

include h

theorem Grown.old (he : s.memory.files q = some e) :
    q ≠ n ∧ s'.memory.files q = some (linked d n a b q e) := by
  have hq : q ≠ n := by
    rintro rfl
    rw [h.fresh] at he
    cases he
  exact ⟨hq, by rw [h.others q hq, he, Option.map_some]⟩

theorem Grown.nameOf_eq (he : s.memory.files q = some e) :
    nameOf s'.memory q = nameOf s.memory q := by
  rw [nameOf, nameOf, (h.old he).2, he]
  rfl

theorem Grown.mem_cases (hq : q ∈ L' c) : q ∈ L c ∨ q = n := by
  rw [h.lists] at hq
  by_cases hc : c = d
  · subst hc
    rw [Function.update_self] at hq
    rw [h.split]
    simp only [List.mem_append, List.mem_cons] at hq ⊢
    tauto
  · rw [Function.update_of_ne hc] at hq
    exact Or.inl hq

theorem Grown.mem_new : n ∈ L' d := by
  rw [h.lists, Function.update_self]
  exact List.mem_append_right _ List.mem_cons_self

theorem Grown.lists_new (hListing : Listing P s.memory L)
    (he : s.memory.files d = some e) : L' n = [] := by
  rw [h.lists, Function.update_of_ne (h.old he).1.symm]
  exact hListing.empty n fun f hf => by rw [h.fresh] at hf; cases hf

theorem Grown.face_eq (hd : isDirectory s.memory d = true) (hq : q ≠ n) :
    (s'.memory.files q).map DFile.face = (s.memory.files q).map DFile.face := by
  rw [h.others q hq, Option.map_map]
  cases he : s.memory.files q with
  | none => rfl
  | some e =>
    simp only [Option.map_some, Function.comp_apply, Option.some.injEq]
    by_cases hqd : q = d
    · subst hqd
      rw [isDirectory_of he, decide_eq_true_eq] at hd
      simp [DFile.face, linked, hd, hq]
    · simp [DFile.face, linked, hqd, hq]

theorem Grown.isDirectory_old (hq : isDirectory s.memory q = true) :
    isDirectory s'.memory q = true := by
  obtain ⟨e, he, hType⟩ := isDirectory_iff.mp hq
  exact isDirectory_iff.mpr ⟨_, (h.old he).2, hType⟩

theorem Grown.lookup_old (hListing : Listing P s.memory L)
    (hName : trim f.name fsNameLength = trim name name.length)
    (hNew : lookupIn s.memory name (L d) = 0) {x : Path}
    (hFound : lookupIn s.memory x (L c) ≠ 0) :
    lookupIn s'.memory x (L' c) = lookupIn s.memory x (L c) := by
  have hNames : ∀ q ∈ L c, nameOf s'.memory q = nameOf s.memory q := by
    intro q hq
    obtain ⟨g, hg, -⟩ := hListing.live hq
    exact h.nameOf_eq hg
  rw [h.lists]
  by_cases hcd : c = d
  · subst hcd
    have hn : trim (nameOf s'.memory n) fsNameLength ≠ trim x x.length := by
      rw [nameOf, h.node]
      intro hSame
      refine hFound ?_
      rw [lookupIn, ← hSame, Option.map_some, Option.getD_some, hName]
      exact hNew
    rw [Function.update_self, lookupIn_skip hn, ← h.split, lookupIn_congr hNames]
  · rw [Function.update_of_ne hcd, lookupIn_congr hNames]

theorem Grown.stepTo_old (hListing : Listing P s.memory L)
    (hName : trim f.name fsNameLength = trim name name.length)
    (hNew : lookupIn s.memory name (L d) = 0) (hc : isDirectory s.memory c = true) {x : Path}
    (hStep : stepTo s.memory L c x ≠ 0) :
    stepTo s'.memory L' c x = stepTo s.memory L c x := by
  obtain ⟨e, he, hType⟩ := isDirectory_iff.mp hc
  unfold stepTo at hStep ⊢
  by_cases hDot : x = [dot]
  · rw [if_pos hDot, if_pos hDot]
  by_cases hDots : x = [dot, dot]
  · obtain ⟨hne, hOld⟩ := h.old he
    rw [if_neg hDot, if_pos hDots, if_neg hDot, if_pos hDots, parentOf_of he, parentOf_of hOld]
    exact if_neg hne
  rw [if_neg hDot, if_neg hDots] at hStep ⊢
  rw [if_neg hDot, if_neg hDots, h.lookup_old hListing hName hNew hStep]

theorem Grown.lookup_new (hListing : Listing P s.memory L)
    (hName : trim f.name fsNameLength = trim name name.length)
    (hNew : lookupIn s.memory name (L d) = 0) :
    lookupIn s'.memory name (L' d) = n := by
  rw [h.lists, Function.update_self]
  refine lookupIn_found (by rw [nameOf, h.node]; exact hName) fun q hq => ?_
  have hMem : q ∈ L d := by rw [h.split]; exact List.mem_append_left _ hq
  obtain ⟨g, hg, -⟩ := hListing.live hMem
  rw [h.nameOf_eq hg]
  exact (lookupIn_eq_zero (hListing.zero_unlisted d)).mp hNew q hMem

theorem Grown.walk_new (hListing : Listing P s.memory L)
    (hd : isDirectory s.memory d = true) (hDot : name ≠ [dot]) (hDots : name ≠ [dot, dot])
    (hName : trim f.name fsNameLength = trim name name.length)
    (hNew : lookupIn s.memory name (L d) = 0) (hWalk : walk s.memory L fsRoot names = d) :
    walk s'.memory L' fsRoot (names ++ [name]) = n := by
  obtain ⟨e, he, -⟩ := isDirectory_iff.mp hd
  have hne : d ≠ 0 := hListing.ne_zero he
  have hn : n ≠ 0 := h.listing.ne_zero h.node
  have hSame : walk s'.memory L' fsRoot names = d := by
    rw [walk_kept (fun _ => h.isDirectory_old) (fun _ _ hc hStep =>
      h.stepTo_old hListing hName hNew hc hStep)
      (by rw [hWalk]; exact hne), hWalk]
  have hStep : stepTo s'.memory L' d name = n := by
    rw [stepTo, if_neg hDot, if_neg hDots, h.lookup_new hListing hName hNew]
  rw [walk_append (by rw [hSame]; exact hne), hSame, walk, if_pos (h.isDirectory_old hd), hStep,
    if_neg hn, walk]

end

end Grown

end Dandelion.FileSystem
