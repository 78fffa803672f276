import Dandelion.FileSystem.Destination

/-! # Two walkers over one tree

`find_file_path` and `create_directories` follow a path each in its own loop. What
the second one made is there for the first one. They part where the second one
stays at the root or leaves a file upwards, and below a file with content.
-/

namespace Dandelion.FileSystem

open Foundation.Triples

abbrev Spot.root : Spot := ⟨fsRoot, []⟩

/-- The way of `create_directories` leaves a file or goes up at the root. -/
def strays (m : Memory) (L : Ptr → List Ptr) : Spot → List Path → Bool
  | _, [] => false
  | x, c :: rest =>
    !x.isDirectory m || (c = [dot, dot] && x.below.isEmpty && parentOf m x.node = 0) ||
      match x.turn m L c with
      | .on y => strays m L y rest
      | .new y => strays m L y rest
      | .cut => false
      | .stop => false

/-- Below a file without content a node is asked for that is given back. -/
def Destination.walls : Destination → Nat
  | .wall => 1
  | _ => 0

/-- What a walk that came to these new directories returns. -/
def Lands (P : Platform) (s s₁ : State) (L₁ : Ptr → List Ptr) (r : Ptr) (s₂ : State) :
    Destination → Prop
  | .place x => s₂ = s₁ ∧ Rooted L₁ r ∧ Stands s s₁ L₁ r x
  | .cut => s₂ = s₁ ∧ r = 0
  | .wall => Same s₁ s₂ ∧ r = 0 ∧ ∃ g, P.answer s₁.memory s₁.requests sizeofFile 8 = some g
  | .astray => False

/-- One of so many requests for nodes is refused. -/
def Refuses (P : Platform) (n k : Nat) : Prop :=
  ∃ i < k, ∃ m, P.answer m (n + i) sizeofFile 8 = none

variable {P : Platform} {s s' s₁ s₂ s₃ : State} {L L' L₁ L₂ L₃ : Ptr → List Ptr} {d p q r : Ptr}
  {e f : DFile} {c : Path} {names rest : List Path} {x y : Spot} {V : Finset Spot}
  {next : Ptr → M Ptr}

section Creating

theorem findFileInDir_astray (hLeaves : Leaves s.memory) (hf : s.memory.files d = some f)
    (hType : f.type ≠ .directory) (hLink : f.link ≠ 0) (hc : PlainName c) :
    Ensures (findFileInDir P d c) s fun _ _ => False := by
  rw [findFileInDir, if_neg hc.notDot, if_neg hc.notDots]
  refine ensures_file fun e _ he => ?_
  obtain rfl := Option.mem_unique hf he
  refine .after steps_ok ?_
  rw [scanChildren, if_neg hLink]
  refine (ensures_getFileAt f.link).bind fun g s₁ h => ?_
  rw [(hLeaves d f hf hType).1] at h
  cases h.2.2

theorem walkStep_wall (h : Listing P s₁.memory L₁) (hf : s₁.memory.files r = some f)
    (hType : f.type ≠ .directory) (hLink : f.link = 0) (hc : PlainName c) :
    Meets (walkStep P (findFileInDir P) false next r c) s₁
      (fun r' s₂ => Same s₁ s₂ ∧ r' = 0 ∧
        ∃ g, P.answer s₁.memory s₁.requests sizeofFile 8 = some g)
      fun _ => P.answer s₁.memory s₁.requests sizeofFile 8 = none := by
  have hNone : findFileInDir P r c s₁ = .ok (0, s₁) := by
    rw [findFileInDir, if_neg hc.notDot, if_neg hc.notDots,
      bind_ok (getFileAt_ok (h.ne_zero hf) hf), bind_ok steps_ok, hLink, scanChildren, if_pos rfl]
    rfl
  rw [walkStep, if_neg (Nat.not_lt.mpr hc.short), if_neg hc.notDot, if_neg hc.notDots]
  refine .after hNone ?_
  rw [if_neg (not_not.mpr rfl)]
  refine meets_newDirectory id fun g s₂ hg hAdds => ?_
  obtain ⟨s₃, hFree, hSame⟩ := hAdds.undo
  refine .after (linkFileToFolder_refused (h.ne_zero hf) (hAdds.old hf) hType) ?_
  exact .ite (fun _ => .after hFree (.pure ⟨hSame, rfl, g, hg⟩)) fun h => absurd (by decide) h

/-- A creation walk ends where the tree says, and has made the new directories on its way. -/
theorem Walked.createFrom (h : Walked P s L V s₁ L₁) (hListing : Listing P s.memory L)
    (hRooted : Rooted L₁ r) (hStands : Stands s s₁ L₁ r x)
    (hLeaves : destination s.memory L x names = .astray → Leaves s.memory) :
    Meets (createFrom P false r names) s₁
      (fun r' s₃ => ∃ s₂ L₂, Walked P s L (V ∪ newPlaces s.memory L x names) s₂ L₂ ∧
        Lands P s s₂ L₂ r' s₃ (destination s.memory L x names))
      fun _ => destination s.memory L x names = .astray ∨ Refuses P s.requests
        ((V ∪ newPlaces s.memory L x names).card + (destination s.memory L x names).walls) := by
  induction names generalizing s₁ L₁ r x V with
  | nil =>
    refine .pure ⟨s₁, L₁, ?_, rfl, hRooted, hStands⟩
    rwa [newPlaces, Finset.union_empty]
  | cons c rest ih =>
    rw [createFrom_cons]
    refine h.step hListing hRooted hStands (fun _ => rfl) (fun hTurn => ?_)
      (fun hPrevent => by cases hPrevent) (fun q y hTurn _ hq hy => ?_)
      (fun y hTurn hFree hNone _ => ?_) (fun s₂ L₂ q y hTurn h₂ hq hy => ?_)
      fun e hTurn hc hx he hType => ?_
    all_goals
      rw [destination, hTurn] at hLeaves
      simp only [destination, newPlaces, hTurn, Finset.union_empty]
    · exact ⟨s₁, L₁, h, rfl, rfl⟩
    · exact ih h hq hy hLeaves
    · -- the request for this directory is among those of the walk
      refine Or.inr ⟨V.card, ?_, s₁.memory, h.requests ▸ hNone⟩
      have hLt : V.card < (V ∪ insert y (newPlaces s.memory L y rest)).card :=
        Finset.card_lt_card ⟨Finset.subset_union_left, fun hSub =>
          hFree (hSub (Finset.mem_union_right _ (Finset.mem_insert_self _ _)))⟩
      omega
    · have hAll := ih h₂ hq hy hLeaves
      rwa [Finset.insert_union, ← Finset.union_insert] at hAll
    · subst hx
      obtain ⟨e₁, he₁, -, hType₁, -, hLink₁⟩ := h.grows.old r e he
      simp only [he, Option.all_some, decide_eq_true_eq] at hLeaves ⊢
      by_cases hLink : e.link = 0
      · rw [if_pos hLink]
        refine (walkStep_wall h.grows.listing he₁ (hType₁ ▸ hType) ((hLink₁ hType).trans hLink)
          hc).mono (fun r' s₂ hs₂ => ⟨s₁, L₁, h, hs₂⟩) fun _ hNone =>
            Or.inr ⟨V.card, ?_, s₁.memory, ?_⟩
        · exact Nat.lt_succ_self _
        · rwa [← h.requests]
      · rw [if_neg hLink] at hLeaves ⊢
        rw [walkStep, if_neg (Nat.not_lt.mpr hc.short), if_neg hc.notDot, if_neg hc.notDots]
        have hGone : Ensures (findFileInDir P r c) s₁ fun _ _ => False :=
          findFileInDir_astray (h.leaves (hLeaves rfl)) he₁ (hType₁ ▸ hType)
            (by rwa [hLink₁ hType]) hc
        exact (hGone.mono (fun _ _ h => h) fun _ _ => Or.inl rfl).bind fun _ _ hFalse =>
          hFalse.elim

theorem createDirectories_root (hListing : Listing P s.memory L) {path : Path} :
    createDirectories P fsRoot path false s = createFrom P false fsRoot (components path) s := by
  obtain ⟨f, hf, hType, -⟩ := hListing.root
  rw [createDirectories, bind_ok (getFileAt_ok (hListing.ne_zero hf) hf),
    if_neg (not_not.mpr hType)]

theorem Stands.root (hListing : Listing P s.memory L) : Stands s s' L' fsRoot .root := by
  obtain ⟨f, hf, -⟩ := hListing.root
  exact .here hf

theorem createDirectories_lands (hListing : Listing P s.memory L) (path : Path)
    (hLeaves : destination s.memory L .root (components path) = .astray → Leaves s.memory) :
    Meets (createDirectories P fsRoot path false) s
      (fun r s₃ => ∃ s₂ L₂, Walked P s L (newPlaces s.memory L .root (components path)) s₂ L₂ ∧
        Lands P s s₂ L₂ r s₃ (destination s.memory L .root (components path)))
      fun _ => destination s.memory L .root (components path) = .astray ∨ Refuses P s.requests
        ((newPlaces s.memory L .root (components path)).card +
          (destination s.memory L .root (components path)).walls) := by
  have hAll := (Walked.init hListing).createFrom hListing .root (.root hListing) hLeaves
  rw [Finset.empty_union] at hAll
  exact .of_eq (createDirectories_root hListing) hAll

theorem not_refuses (h : P.Grants) (n k : Nat) : ¬ Refuses P n k := by
  rintro ⟨i, -, m, hNone⟩
  obtain ⟨g, hg⟩ := h m (n + i) sizeofFile 8 (by decide)
  rw [hNone] at hg
  cases hg

end Creating

section Looking

/-- Going up from a place, a lookup comes to the same one, unless that was the root. -/
theorem Walked.stepTo_up (h : Walked P s L V s' L') (hListing : Listing P s.memory L)
    (hRooted : Rooted L' r) (hStands : Stands s s' L' r x) :
    ∃ q, Rooted L' q ∧ Stands s s' L' q (x.up s.memory) ∧ stepTo s'.memory L' r [dot, dot] =
      if (x.below.isEmpty && parentOf s.memory x.node = 0 : Bool) then 0 else q := by
  obtain ⟨f, hf⟩ := hRooted.live h.grows.listing
  obtain ⟨hRooted', hStands'⟩ := h.up hListing hRooted hStands hf
  refine ⟨_, hRooted', hStands', ?_⟩
  rw [stepTo_dots, parentOf_of hf]
  cases hStands with
  | here he =>
    have hSame := h.grows.parentOf_eq he
    rw [parentOf_of hf] at hSame
    by_cases hZero : f.parent = 0
    · simp [← hSame, hZero]
    · simp [← hSame, hZero]
  | under hUp hNone hNew hFound =>
    obtain ⟨-, hUp, -⟩ := (Stands.under hUp hNone hNew hFound).parent h.grows
    obtain ⟨g, hg⟩ := hUp.live h.grows
    have hne := h.grows.listing.ne_zero hg
    rw [parentOf_of hf] at hne
    simp [hne]

/-- A lookup finds the old entry that a creation walk enters. -/
theorem Walked.stepTo_old (h : Walked P s L V s' L') (hListing : Listing P s.memory L)
    (hRooted : Rooted L' r) (hStands : Stands s s' L' r x) (hc : PlainName c)
    (hBelow : x.below = []) (hFound : lookupIn s.memory c (L x.node) ≠ 0) :
    Rooted L' (lookupIn s.memory c (L x.node)) ∧
      Stands s s' L' (lookupIn s.memory c (L x.node)) ⟨lookupIn s.memory c (L x.node), []⟩ ∧
      stepTo s'.memory L' r c = lookupIn s.memory c (L x.node) := by
  cases hStands with
  | under _ _ _ _ => exact absurd hBelow (List.cons_ne_nil _ _)
  | here he =>
    have hFinds := h.grows.finds r c hFound
    obtain ⟨g, hg, -⟩ := hListing.live (lookupIn_mem hFound).1
    refine ⟨hRooted.child ?_, .here hg, ?_⟩
    · rw [← hFinds]
      exact (lookupIn_mem (hFinds ▸ hFound)).1
    · rw [stepTo_name hc.notDot hc.notDots, hFinds]

/-- A lookup finds the directory that a creation walk has made. -/
theorem Walked.stepTo_new (h : Walked P s L V s' L') (hRooted : Rooted L' r)
    (hStands : Stands s s' L' r x) (hc : PlainName c) (hMem : x.child c ∈ V) :
    ∃ q, Rooted L' q ∧ Stands s s' L' q (x.child c) ∧ stepTo s'.memory L' r c = q := by
  obtain ⟨-, q, hq⟩ := (h.made _).mp hMem
  have hFound := hq.found hStands
  obtain ⟨g, hg⟩ := hq.live h.grows
  have hne : lookupIn s'.memory c (L' r) ≠ 0 := by
    rw [hFound]
    exact h.grows.listing.ne_zero hg
  refine ⟨q, hRooted.child (hFound ▸ (lookupIn_mem hne).1), hq, ?_⟩
  rw [stepTo_name hc.notDot hc.notDots, hFound]

/-- Where a creation walk goes on to a place, a lookup does, but not up from the root. -/
theorem Walked.stepTo_eq (h : Walked P s L V s' L') (hListing : Listing P s.memory L)
    (hRooted : Rooted L' r) (hStands : Stands s s' L' r x)
    (hTurn : x.turn s.memory L c = .on z ∨ x.turn s.memory L c = .new z ∧ z ∈ V) :
    ∃ q, Rooted L' q ∧ Stands s s' L' q z ∧ stepTo s'.memory L' r c =
      if (c = [dot, dot] && x.below.isEmpty && parentOf s.memory x.node = 0 : Bool) then 0
      else q := by
  rcases name_cases c with hLong | rfl | rfl | hc
  · simp [turn_long hLong] at hTurn
  · obtain rfl : x = z := by simpa [turn_dot] using hTurn
    exact ⟨r, hRooted, hStands, rfl⟩
  · obtain rfl : x.up s.memory = z := by simpa [turn_dots] using hTurn
    simpa using h.stepTo_up hListing hRooted hStands
  · simp only [hc.notDots, decide_false, Bool.false_and, Bool.false_eq_true, if_false]
    rw [turn_plain hc] at hTurn
    split at hTurn
    · split at hTurn
      · rename_i hOld
        obtain rfl : _ = z := by simpa using hTurn
        exact ⟨_, h.stepTo_old hListing hRooted hStands hc hOld.1 hOld.2⟩
      · obtain ⟨rfl, hMem⟩ : x.child c = z ∧ z ∈ V := by simpa using hTurn
        exact h.stepTo_new hRooted hStands hc hMem
    · simp at hTurn

/-- A lookup in the tree that a creation walk leaves. -/
theorem Walked.walk_eq (h : Walked P s L V s' L') (hListing : Listing P s.memory L)
    (hRooted : Rooted L' r) (hStands : Stands s s' L' r x)
    (hEnd : destination s.memory L x names = .place y) (hIn : newPlaces s.memory L x names ⊆ V) :
    ∃ q, Stands s s' L' q y ∧
      walk s'.memory L' r names = if strays s.memory L x names then 0 else q := by
  induction names generalizing r x with
  | nil =>
    obtain rfl : x = y := Destination.place.inj hEnd
    exact ⟨r, hStands, rfl⟩
  | cons c rest ih =>
    obtain ⟨z, hTurn, hEnd', hIn', hStrays⟩ : ∃ z,
        (x.turn s.memory L c = .on z ∨ x.turn s.memory L c = .new z ∧ z ∈ V) ∧
        destination s.memory L z rest = .place y ∧ newPlaces s.memory L z rest ⊆ V ∧
        strays s.memory L x (c :: rest) = (!x.isDirectory s.memory ||
          (c = [dot, dot] && x.below.isEmpty && parentOf s.memory x.node = 0) ||
          strays s.memory L z rest) := by
      simp only [destination, newPlaces, strays] at hEnd hIn ⊢
      cases hTurn : x.turn s.memory L c with
      | on z =>
        rw [hTurn] at hEnd hIn
        exact ⟨z, Or.inl rfl, hEnd, hIn, rfl⟩
      | new z =>
        rw [hTurn] at hEnd hIn
        obtain ⟨hMem, hSub⟩ := Finset.insert_subset_iff.mp hIn
        exact ⟨z, Or.inr ⟨rfl, hMem⟩, hEnd, hSub, rfl⟩
      | cut =>
        rw [hTurn] at hEnd
        cases hEnd
      | stop =>
        rw [hTurn] at hEnd
        simp only at hEnd
        split at hEnd <;> cases hEnd
    obtain ⟨p, hp, hz, hStep⟩ := h.stepTo_eq hListing hRooted hStands hTurn
    obtain ⟨q, hq, hWalk⟩ := ih hp hz hEnd' hIn'
    refine ⟨q, hq, ?_⟩
    rw [hStrays]
    cases hx : x.isDirectory s.memory with
    | false => exact walk_stuck fun hr => by rw [hStands.isDirectory_eq h.grows, hx] at hr; cases hr
    | true =>
      cases hUp : (c = [dot, dot] && x.below.isEmpty && parentOf s.memory x.node = 0 : Bool) with
      | true => exact walk_stuck fun _ => by rw [hStep, hUp, if_pos rfl]
      | false =>
        obtain ⟨g, hg⟩ := hz.live h.grows
        simp only [hUp, Bool.false_eq_true, if_false] at hStep
        rw [walk_cons ((hStands.isDirectory_eq h.grows).trans hx) hStep
          (h.grows.listing.ne_zero hg), hWalk]
        simp

end Looking

end Dandelion.FileSystem
