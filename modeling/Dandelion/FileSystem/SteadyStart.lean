import Dandelion.FileSystem.SoundStart
import Dandelion.FileSystem.SteadyCalls

/-! # The tree starts steady

The tree that `fs_initialize` builds is steady, whatever the input sets are.
-/

namespace Dandelion.FileSystem

variable {P : Platform} {s s' : State} {L L' : Ptr → List Ptr} {d n p r D : Ptr} {f : DFile}
  {item : Item} {items : List Item} {preventUp : Bool}

section Steps

theorem Creates.steady {names : List Path} (h : Creates P preventUp s L d names s' L' r)
    (hP : P.Linkable) (hSteady : Steady P s L) : Steady P s' L' := by
  induction h with
  | done => exact hSteady
  | stay _ ih => exact ih hSteady
  | up _ _ ih => exact ih hSteady
  | enter _ _ _ _ _ ih => exact ih hSteady
  | make _ _ _ _ _ hg hAdds hLinks _ ih =>
    have hNone : ∀ {g : Grant} {c : Path}, ((DFile.ofBytes g.bytes).nameDirectory c).type ≠
        .file := by
      intro g c hType
      cases hType
    refine ih ((hSteady.adds hAdds rfl fun hType => absurd hType hNone).links hLinks
      (hAdds.unlisted hSteady.listing) ?_)
    exact linked_new hAdds.live hAdds.vacant.1 (hP _ _ _ hg) fun hType => absurd hType hNone
  | refused hSame => exact hSteady.same hSame

theorem Steady.addsFile {content length : Nat} (h : Steady P s L)
    (hAdds : AddsFile s s' n f content length) (hCount : f.hardLinks = 0)
    (hHolding : Holding s'.memory) : Steady P s' L where
  listing := hAdds.listing h.listing
  counts := by
    refine h.counts.mono (fun _ _ hq => hq) fun c q f' hq hf' => ?_
    obtain ⟨e, he, _⟩ := h.listing.live hq
    obtain rfl := Option.mem_unique (hAdds.old he) hf'
    exact ⟨_, he, rfl⟩
  single q e he hType := by
    by_cases hq : q = n
    · subst hq
      obtain rfl := Option.mem_unique hAdds.live he
      rw [hCount]
      exact Nat.zero_le 1
    · rw [hAdds.files, Function.update_of_ne hq] at he
      exact h.single q e he hType
  holding := hHolding

theorem OpensAt.steady {index : Nat} (h : OpensAt s s' index p) (hSteady : Steady P s L) :
    Steady P s' L := by
  obtain ⟨s₁, hEdit, hMemory⟩ := h.edits
  have hHolding := hEdit.holding hSteady.holding
  rw [← hMemory] at hHolding
  refine hSteady.nodes hHolding (fun q => by rw [hMemory]; exact hEdit.files q) (fun q f _ => ?_)
    (fun _ q f _ _ => ?_)
    fun q f _ hLe => ?_
  · by_cases hq : q = p <;> simp [editAt, hq]
  · by_cases hq : q = p <;> simp [editAt, hq]
  · by_cases hq : q = p <;> simpa [editAt, hq] using hLe

theorem Steady.imports {isStdio : Bool} (h : Steady P s L) (hP : P.Linkable)
    (hStocked : Stocked (item :: items) s) (hImports : ImportsItem P D isStdio item s L 0 s' L') :
    Steady P s' L' := by
  cases hImports with
  | skipped _ => exact h
  | placed _ hCreates _ _ _ _ hAdds hLinks hOpens hOutfits =>
    have h₁ := hCreates.steady hP h
    have h₂ := h₁.addsFile hAdds rfl ((hStocked.creates hCreates).place hAdds).sound.holding
    have h₃ := h₂.links hLinks (h₁.listing.unlisted_of_none hAdds.vacant.2.1)
      (linked_new hAdds.live hAdds.vacant.1 (by show 0 + 1 < 2 ^ 16; decide) fun _ => rfl)
    split at hOpens
    · have h₄ := hOpens.steady h₃
      exact h₄.of_files (hOutfits.holding h₄.holding) hOutfits.files
    · subst hOpens
      exact h₃.of_files (hOutfits.holding h₃.holding) hOutfits.files

theorem Steady.stream {s₁ s₂ : State} {fd link mode : Nat} {name : Path} {bytes : Nat → UInt8}
    {a b : List Ptr} (h : Steady P s L)
    (hAdds : AddsFile s s₁ n (fileNode name link mode bytes) 0 0) (hOpens : OpensAt s₁ s₂ fd n)
    (hLinks : Links P s₂ L stdioFolder n a b s' L') : Steady P s' L' := by
  have h₁ := h.addsFile hAdds rfl (hAdds.holding h.holding fun hne => absurd rfl hne)
  obtain ⟨s₃, hEdit, hMemory⟩ := hOpens.edits
  have hNode := hEdit.file hAdds.live
  rw [← hMemory, editAt, if_pos rfl] at hNode
  refine (hOpens.steady h₁).links hLinks (h.listing.unlisted_of_none hAdds.vacant.2.1)
    (linked_new hNode hAdds.vacant.1 ?_ fun _ => rfl)
  show 0 + 1 < 2 ^ 16
  decide

theorem steadyBuild (hP : P.Linkable) : BuildRules P fun items s L => Steady P s L ∧
    Stocked items s where
  skip h := ⟨h.1, h.2.skip⟩
  creates h hCreates := ⟨hCreates.steady hP h.1, h.2.creates hCreates⟩
  item h hImports := ⟨h.1.imports hP h.2 hImports, h.2.imports hImports⟩
  stream h hAdds hOpens hLinks :=
    ⟨h.1.stream hAdds hOpens hLinks, stockedRules.stream h.2 hAdds hOpens hLinks⟩
  outfits h hOutfits :=
    ⟨h.1.of_files (hOutfits.holding h.1.holding) hOutfits.files, h.2.outfits hOutfits⟩

end Steps

theorem fsInitialize_sound {sets : List InputSet} {outputs : List Path} (h : Boots sets s)
    (hP : P.Linkable) :
    Ensures (fsInitialize P sets outputs) s fun r s' => r.1 = 0 →
      ∃ L', Steady P s' L' ∧ Stocked [] s' := by
  obtain ⟨s', L', hRun, hGrounded, hStocked, hCounts, hTypes⟩ := linkStatics_stocked (P := P) h
  refine (steadyBuild hP).fsInitialize hRun
    ⟨⟨hGrounded.listing, hCounts, fun q f hf hType => ?_, ?_⟩, hStocked⟩ hGrounded
  · exact absurd hType (hTypes q f hf)
  · exact hStocked.sound.holding

end Dandelion.FileSystem
