import Dandelion.FileSystem.Lookups

/-! # Trees without ambiguous names

Where the names in every directory are distinct and proper, the position of a
node leads back to it. Links to nodes of new names keep them so, and so does
everything that takes entries away.
-/

namespace Dandelion.FileSystem

/-- A name that no path gives another meaning to. -/
def ProperName (name : Path) : Prop := name ≠ [dot] ∧ name ≠ [dot, dot] ∧ slash ∉ name

instance (name : Path) : Decidable (ProperName name) := inferInstanceAs (Decidable (_ ∧ _ ∧ _))

structure Named (m : Memory) (L : Ptr → List Ptr) : Prop where
  distinct : ∀ d, (L d).Pairwise fun p q => entryName m p ≠ entryName m q
  proper : ∀ d, ∀ p ∈ L d, ProperName (entryName m p)

variable {P : Platform} {s s' : State} {m m' : Memory} {L L' : Ptr → List Ptr} {d n p r : Ptr}
  {a b : List Ptr} {f : DFile} {π : List Path} {file : Path} {preventUp : Bool}

section Steps

theorem Named.thin (h : Named m L) (hSub : ∀ d, (L' d).Sublist (L d))
    (hName : ∀ d, ∀ q ∈ L' d, entryName m' q = entryName m q) : Named m' L' := by
  refine ⟨fun d => ?_, fun d q hq => ?_⟩
  · refine List.Pairwise.imp_of_mem (fun {x y} hx hy hne => ?_) ((h.distinct d).sublist (hSub d))
    rwa [hName d x hx, hName d y hy]
  · rw [hName d q hq]
    exact h.proper d q ((hSub d).subset hq)

theorem Named.congr (h : Named m L) (hName : ∀ d, ∀ q ∈ L d, entryName m' q = entryName m q) :
    Named m' L := h.thin (fun _ => List.Sublist.refl _) hName

theorem Named.of_files (h : Named m L) (hFiles : m'.files = m.files) : Named m' L :=
  h.congr fun _ q _ => by rw [entryName, entryName, nameOf, nameOf, hFiles]

theorem Links.named (h : Links P s L d n a b s' L') (hNamed : Named s.memory L)
    (hNew : ∀ q ∈ L d, entryName s.memory q ≠ entryName s.memory n)
    (hProper : ProperName (entryName s.memory n)) : Named s'.memory L' := by
  constructor
  · intro c
    simp only [h.entryName_eq]
    rw [h.lists]
    by_cases hc : c = d
    · subst hc
      rw [Function.update_self]
      have hOld := hNamed.distinct c
      rw [h.split] at hOld hNew
      refine (List.pairwise_middle fun hne => Ne.symm hne).mpr
        (List.pairwise_cons.mpr ⟨fun q hq => ?_, hOld⟩)
      exact (hNew q hq).symm
    · rw [Function.update_of_ne hc]
      exact hNamed.distinct c
  · intro c p hp
    rw [h.entryName_eq]
    rcases h.mem_iff.mp hp with hOld | ⟨_, rfl⟩
    · exact hNamed.proper c p hOld
    · exact hProper

theorem Creates.named {names : List Path} (h : Creates P preventUp s L d names s' L' r)
    (hListing : Listing P s.memory L) (hNamed : Named s.memory L)
    (hNames : ∀ c ∈ names, 0 ∉ c ∧ slash ∉ c) : Named s'.memory L' := by
  induction h with
  | done => exact hNamed
  | stay _ ih => exact ih hListing hNamed fun c hc => hNames c (List.mem_cons_of_mem _ hc)
  | up _ _ ih => exact ih hListing hNamed fun c hc => hNames c (List.mem_cons_of_mem _ hc)
  | enter _ _ _ _ _ ih => exact ih hListing hNamed fun c hc => hNames c (List.mem_cons_of_mem _ hc)
  | @make s s₁ s₂ s' L L₂ L' d n r c rest g a b hDot hDots hLength hDir hMissing hg hAdds
      hLinks _ ih =>
    obtain ⟨hZero, hSlash⟩ := hNames c List.mem_cons_self
    have hName : entryName s₁.memory n = c := by
      rw [entryName_of hAdds.live, trim_nameDirectory _ hLength, trim_of_nonzero hZero]
    have hNamed₁ : Named s₁.memory L := hNamed.congr fun _ _ hq => hAdds.entryName_eq hListing hq
    refine ih hLinks.listing (hLinks.named hNamed₁ (fun q hq => ?_) ?_) fun c hc =>
      hNames c (List.mem_cons_of_mem _ hc)
    · rw [hName, hAdds.entryName_eq hListing hq]
      have hOther := (lookupIn_eq_zero (hListing.zero_unlisted d)).mp hMissing q hq
      rwa [trim_of_nonzero hZero] at hOther
    · rw [hName]
      exact ⟨hDot, hDots, hSlash⟩
  | refused hSame => exact hNamed.of_files hSame.files

end Steps

section Lookup

theorem trim_trim (name : List UInt8) (bound : Nat) :
    trim (trim name bound) (trim name bound).length = trim name bound := by
  refine trim_of_nonzero fun hZero => ?_
  have := List.mem_takeWhile_imp hZero
  simp at this

theorem lookupIn_entryName (hDistinct : (L d).Pairwise fun p q => entryName m p ≠ entryName m q)
    (hp : p ∈ L d) :
    lookupIn m (entryName m p) (L d) = p := by
  obtain ⟨a, b, hSplit⟩ := List.append_of_mem hp
  rw [hSplit] at hDistinct ⊢
  have hBefore := (List.pairwise_append.mp hDistinct).2.2
  rw [lookupIn, List.find?_append, List.find?_eq_none.mpr, Option.none_or, List.find?_cons_of_pos,
    Option.getD_some]
  · simp only [decide_eq_true_eq]
    rw [entryName, trim_trim]
  · intro q hq hName
    rw [entryName, trim_trim] at hName
    exact hBefore q hq p List.mem_cons_self (of_decide_eq_true hName)

theorem At.walk_eq (hListing : Listing P m L) (hNamed : Named m L) (h : At m L π p) :
    walk m L fsRoot π = p := by
  induction h with
  | root => rfl
  | @child π d p hd hp ih =>
    obtain ⟨e, he, hDir⟩ := hListing.directory hp
    obtain ⟨f, hf, _⟩ := hListing.live hp
    obtain ⟨hDot, hDots, _⟩ := hNamed.proper d p hp
    have hne : walk m L fsRoot π ≠ 0 := by
      rw [ih]
      exact hListing.ne_zero he
    rw [walk_append hne, ih, walk, if_pos (isDirectory_iff.mpr ⟨e, he, hDir⟩), stepTo, if_neg hDot,
      if_neg hDots, lookupIn_entryName (hNamed.distinct d) hp, if_neg (hListing.ne_zero hf), walk]

theorem trim_fileNode (link mode : Nat) {bytes : Nat → UInt8} (hBytes : ∀ i, bytes i = 0)
    {name : Path} (h : name.length ≤ fsNameLength) :
    trim (fileNode name link mode bytes).name fsNameLength = trim name name.length := by
  have hJunk : (DFile.ofBytes bytes).name.drop name.length =
      List.replicate (fsNameLength - name.length) 0 := by
    have hZeros : bytes = fun _ => 0 := funext hBytes
    rw [hZeros]
    simp only [DFile.ofBytes, List.map_const', List.length_range, List.drop_replicate]
  simp only [trim, fileNode, hJunk, List.take_length]
  rw [List.take_append, List.take_of_length_le h, List.takeWhile_append]
  split
  · rename_i hAll
    rw [(List.takeWhile_prefix _).eq_of_length hAll]
    cases fsNameLength - name.length <;> simp [List.replicate_succ]
  · rfl

theorem Creates.absent {dirs : List Path} (h : Creates P false s L fsRoot dirs s' L' r)
    (hListing : Listing P s.memory L) (hNamed : Named s.memory L) (hr : r ≠ 0)
    (hDirs : ∀ c ∈ dirs, 0 ∉ c) (hPlace : clean [] dirs ++ [file] ∉ visits [] dirs)
    (hAbsent : findFrom P fsRoot (clean [] dirs ++ [file]) s = .ok (0, s)) :
    ∀ q ∈ L' r, entryName s'.memory q ≠ file := by
  rintro q hq rfl
  obtain ⟨hListing', hAt, _, hNew⟩ := h.positions hListing .root hDirs
  rcases hNew _ q (.child (hAt hr) hq) with hOld | hVisited
  · rw [findFrom_ok hListing .root, hOld.walk_eq hListing hNamed] at hAbsent
    obtain ⟨e, he, _⟩ := hListing'.live hq
    exact hListing'.ne_zero he (Prod.mk.inj (Except.ok.inj hAbsent)).1
  · exact hPlace hVisited

end Lookup

end Dandelion.FileSystem
