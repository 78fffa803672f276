import Dandelion.FileSystem.SteadyRuns
import Dandelion.FileSystem.Walkers

/-! # When lookups and creations agree

A directory that a lookup finds is the one that `create_directories` returns, and
nothing is made. The other way round this depends on the path: `..` is the root
itself at the root for one of the walkers and nothing for the other one, and only
one of them leaves files by `.` and `..`.
-/

namespace Dandelion.FileSystem

open Foundation.Runs Foundation.Triples

def WalkersAgree (P : Platform) (s : State) (path : Path) : Prop :=
  (∀ d, findFilePath P path s = .ok (d, s) → isDirectory s.memory d = true →
    createDirectories P fsRoot path false s = .ok (d, s)) ∧
  Meets (createDirectories P fsRoot path false) s
    (fun d s' => isDirectory s'.memory d = true → findFilePath P path s' = .ok (d, s'))
    fun _ => ¬ P.Grants

/-- The way of a creation along these components ends at a wall or a file, or a lookup can take
it. -/
def Straight (m : Memory) (L : Ptr → List Ptr) (names : List Path) : Prop :=
  match destination m L .root names with
  | .astray => False
  | .cut => True
  | .wall => True
  | .place x => x.isDirectory m = false ∨ strays m L .root names = false

variable {P : Platform} {s s' : State} {m : Memory} {L : Ptr → List Ptr} {d p r : Ptr} {f : DFile}
  {c : Path} {names : List Path} {path : Path} {x : Spot}

section Law

theorem length_trim_le (name : List UInt8) (bound : Nat) : (trim name bound).length ≤ bound :=
  ((List.takeWhile_sublist _).length_le).trans (List.length_take_le _ _)

theorem length_of_lookupIn (hZero : 0 ∉ c) (h : lookupIn m c (L d) ≠ 0) :
    c.length ≤ fsNameLength := by
  obtain ⟨-, hName⟩ := lookupIn_mem h
  rw [trim_of_nonzero hZero] at hName
  rw [← hName]
  exact length_trim_le _ _

theorem length_of_step (hZero : 0 ∉ c) (h : stepTo m L d c ≠ 0) : ¬ c.length > fsNameLength := by
  by_cases hDot : c = [dot]
  · rw [hDot]
    decide
  by_cases hDots : c = [dot, dot]
  · rw [hDots]
    decide
  rw [stepTo_name hDot hDots] at h
  exact Nat.not_lt.mpr (length_of_lookupIn hZero h)

theorem destination_of_walk (hNames : ∀ c ∈ names, 0 ∉ c) (h : walk m L p names ≠ 0) :
    destination m L ⟨p, []⟩ names = .place ⟨walk m L p names, []⟩ ∧
      newPlaces m L ⟨p, []⟩ names = ∅ := by
  induction names generalizing p with
  | nil => exact ⟨rfl, rfl⟩
  | cons c rest ih =>
    have hRest : ∀ c ∈ rest, 0 ∉ c := fun c hc => hNames c (List.mem_cons_of_mem _ hc)
    rw [walk] at h ⊢
    split at h
    · rename_i hDir
      split at h
      · exact absurd rfl h
      · rename_i hStep
        have hTurn : Spot.turn m L ⟨p, []⟩ c = .on ⟨stepTo m L p c, []⟩ := by
          rcases name_cases c with hLong | rfl | rfl | hc
          · exact absurd hLong (length_of_step (hNames c List.mem_cons_self) hStep)
          · rfl
          · rw [stepTo_dots] at hStep ⊢
            rw [turn_dots, Spot.up]
            dsimp only
            rw [if_neg hStep]
          · rw [stepTo_name hc.notDot hc.notDots] at hStep ⊢
            rw [turn_plain hc, if_pos (show Spot.isDirectory m ⟨p, []⟩ = true from hDir),
              if_pos ⟨rfl, hStep⟩]
        rw [if_pos hDir, if_neg hStep]
        simp only [destination, newPlaces, hTurn]
        exact ih hRest h
    · exact absurd rfl h

theorem createDirectories_of_found (hListing : Listing P s.memory L) (hPath : 0 ∉ path)
    (hFind : findFilePath P path s = .ok (d, s)) (hd : isDirectory s.memory d = true) :
    createDirectories P fsRoot path false s = .ok (d, s) := by
  obtain ⟨f, hf, -⟩ := isDirectory_iff.mp hd
  have hWalk : walk s.memory L fsRoot (components path) = d := congrArg Prod.fst
    (Except.ok.inj ((findFrom_ok hListing .root (components path)).symm.trans hFind))
  obtain ⟨hEnd, hNone⟩ := destination_of_walk (fun c hc => (components_clean hPath c hc).1)
    (by rw [hWalk]; exact hListing.ne_zero hf)
  rw [hWalk] at hEnd
  have hMeets := createDirectories_lands (P := P) hListing path fun hAstray => by
    rw [Spot.root, hEnd] at hAstray
    cases hAstray
  simp only [Spot.root, hEnd, hNone] at hMeets
  cases hRun : createDirectories P fsRoot path false s with
  | error e =>
    rcases hMeets.failure hRun with hAstray | ⟨i, hi, -⟩
    · cases hAstray
    · exact absurd hi (Nat.not_lt_zero i)
  | ok a =>
    obtain ⟨s₂, L₂, hWalked, hSame, -, hStands⟩ := hMeets.result hRun
    obtain rfl := hWalked.start rfl
    obtain ⟨r, s'⟩ := a
    obtain rfl : s' = s₂ := hSame
    obtain rfl := Stands.unique (.here hf) hStands
    rfl

theorem found_of_created (hListing : Listing P s.memory L) {a : Ptr × State}
    (hEnd : destination s.memory L .root (components path) = .place x)
    (hRun : createDirectories P fsRoot path false s = .ok a) :
    a.1 ≠ 0 ∧ isDirectory a.2.memory a.1 = x.isDirectory s.memory ∧
      findFilePath P path a.2 =
        .ok (if strays s.memory L .root (components path) then 0 else a.1, a.2) := by
  have hMeets := createDirectories_lands (P := P) hListing path fun hAstray => by
    rw [hEnd] at hAstray
    cases hAstray
  rw [hEnd] at hMeets
  obtain ⟨s₂, L₂, hWalked, hSame, -, hStands⟩ := hMeets.result hRun
  obtain ⟨r, s'⟩ := a
  obtain rfl : s' = s₂ := hSame
  obtain ⟨f, hf⟩ := hStands.live hWalked.grows
  refine ⟨hWalked.grows.listing.ne_zero hf, hStands.isDirectory_eq hWalked.grows, ?_⟩
  obtain ⟨q, hq, hWalk⟩ := hWalked.walk_eq hListing .root (.root hListing) hEnd
    (Finset.Subset.refl _)
  obtain rfl := hStands.unique hq
  rw [← hWalk]
  exact findFrom_ok hWalked.grows.listing .root (components path)

theorem agree_of_straight (hListing : Listing P s.memory L) (hPath : 0 ∉ path)
    (h : Straight s.memory L (components path)) : WalkersAgree P s path := by
  refine ⟨fun d hFind hd => createDirectories_of_found hListing hPath hFind hd, ?_⟩
  have hNot : destination s.memory L .root (components path) ≠ .astray := by
    intro hAstray
    rw [Straight, hAstray] at h
    exact h
  have hMeets := createDirectories_lands (P := P) hListing path fun h => absurd h hNot
  unfold Meets
  cases hRun : createDirectories P fsRoot path false s with
  | error e =>
    exact fun hGrants => (hMeets.failure hRun).elim hNot (not_refuses hGrants _ _)
  | ok a =>
    intro hDir
    obtain ⟨s₂, L₂, hWalked, hLands⟩ := hMeets.result hRun
    obtain ⟨f, hf, -⟩ := isDirectory_iff.mp hDir
    cases hEnd : destination s.memory L .root (components path) with
    | astray => exact absurd hEnd hNot
    | cut =>
      rw [hEnd] at hLands
      rw [hLands.1] at hf
      exact absurd hLands.2 (hWalked.grows.listing.ne_zero hf)
    | wall =>
      rw [hEnd] at hLands
      rw [hLands.1.files] at hf
      exact absurd hLands.2.1 (hWalked.grows.listing.ne_zero hf)
    | place x =>
      obtain ⟨-, hOld, hFind⟩ := found_of_created hListing hEnd hRun
      rw [Straight, hEnd] at h
      rcases h with hFile | hStraight
      · rw [hOld, hFile] at hDir
        cases hDir
      · rw [hFind, hStraight, if_neg (by decide)]

theorem straight_of_agree (hListing : Listing P s.memory L) (hGrants : P.Grants)
    (hLeaves : destination s.memory L .root (components path) = .astray → Leaves s.memory)
    (h : WalkersAgree P s path) : Straight s.memory L (components path) := by
  obtain ⟨-, hMeets⟩ := h
  cases hRun : createDirectories P fsRoot path false s with
  | error e => exact absurd hGrants (hMeets.failure hRun)
  | ok a =>
    have hAgree := hMeets.result hRun
    have hLands := (createDirectories_lands (P := P) hListing path hLeaves).result hRun
    unfold Straight
    cases hEnd : destination s.memory L .root (components path) with
    | astray =>
      obtain ⟨s₂, L₂, -, hFalse⟩ := hLands
      rw [hEnd] at hFalse
      exact hFalse
    | cut => trivial
    | wall => trivial
    | place x =>
      obtain ⟨hne, hOld, hFind⟩ := found_of_created hListing hEnd hRun
      cases hStrays : strays s.memory L .root (components path) with
      | false => exact Or.inr rfl
      | true =>
        refine Or.inl (Bool.eq_false_iff.mpr fun hDir => hne ?_)
        have hSame := hAgree (hOld.trans hDir)
        rw [hFind, hStrays, if_pos rfl] at hSame
        exact (congrArg Prod.fst (Except.ok.inj hSame)).symm

/-- In every state that is reached the walkers agree on the paths that are straight in
its tree. They agree on no other one, as long as memory is granted and what a file
refers to is not a node. -/
theorem walkers_agree_iff {x : Session} (hP : P.Linkable)
    (hx : Reachable (Started P) (Proceeds P) x) :
    ∃ L, Listing P x.state.memory L ∧ ∀ str : List UInt8,
      (Straight x.state.memory L (components (pathOf str)) →
        WalkersAgree P x.state (pathOf str)) ∧
      (P.Grants → (destination x.state.memory L .root (components (pathOf str)) = .astray →
          Leaves x.state.memory) →
        WalkersAgree P x.state (pathOf str) →
          Straight x.state.memory L (components (pathOf str))) := by
  obtain ⟨L, hSteady⟩ := steady_of_reachable hP hx
  refine ⟨L, hSteady.listing, fun str => ⟨?_, straight_of_agree hSteady.listing⟩⟩
  exact agree_of_straight hSteady.listing (zero_not_mem_pathOf str)

/-- A directory that is not there yet. -/
theorem walkers_agree_new : ∃ x, Reachable (Started (.bump 0)) (Proceeds (.bump 0)) x ∧
    WalkersAgree (.bump 0) x.state [97] := by
  obtain ⟨x, hx, -⟩ := exists_of_bareRun (P := .bump 0) [] (fun _ => true) (by decide +kernel)
  obtain ⟨L, hListing, hAgree⟩ := walkers_agree_iff linkable_bump (proceeds_of_completes hx)
  refine ⟨x, proceeds_of_completes hx, (hAgree [97]).1 ?_⟩
  obtain ⟨f, hf, hType, -⟩ := hListing.root
  have hRoot : Spot.isDirectory x.state.memory .root = true := isDirectory_iff.mpr ⟨f, hf, hType⟩
  have hNames : components (pathOf [97]) = [[97]] := by decide
  have hTurn := turn_plain (m := x.state.memory) (L := L) (x := .root)
    (show PlainName [97] from ⟨by decide, by decide, by decide⟩)
  rw [if_pos hRoot] at hTurn
  split at hTurn <;>
  · rw [hNames, Straight, destination, strays, hTurn, hRoot]
    exact Or.inr rfl

/-- `..` at the root: a creation stays there, a lookup finds nothing. -/
theorem walkers_agree_fails : ∃ x, Reachable (Started (.bump 0)) (Proceeds (.bump 0)) x ∧
    ¬ WalkersAgree (.bump 0) x.state [dot, dot] := by
  obtain ⟨x, hx, hTest⟩ := exists_of_bareRun (P := .bump 0) []
    (fun x => passes (createDirectories (.bump 0) fsRoot [dot, dot] false x.state) fun a =>
      isDirectory a.2.memory a.1 && passes (findFilePath (.bump 0) [dot, dot] a.2)
        fun b => b.1 == 0 && a.1 != 0)
    (by decide +kernel)
  refine ⟨x, proceeds_of_completes hx, fun hAgree => ?_⟩
  obtain ⟨a, hRun, hBoth⟩ := exists_of_passes hTest
  rw [Bool.and_eq_true] at hBoth
  obtain ⟨hDir, hFind⟩ := hBoth
  obtain ⟨b, hb, hNone⟩ := exists_of_passes hFind
  obtain rfl := Except.ok.inj ((hAgree.2.result hRun hDir).symm.trans hb)
  rw [Bool.and_eq_true, beq_iff_eq, bne_iff_ne] at hNone
  exact hNone.2 hNone.1

end Law

end Dandelion.FileSystem
