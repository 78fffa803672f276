import Dandelion.FileSystem.Steady

/-! # Calls that keep the tree steady

Every call keeps the tree steady, whatever its arguments are, as long as it
completes.
-/

namespace Dandelion.FileSystem

open Foundation.Triples

variable {P : Platform} {s s' : State} {L : Ptr → List Ptr} {p : Ptr} {preventUp : Bool}

section Calls

theorem Steady.createFrom (h : Steady P s L) (hP : P.Linkable) (d : Ptr) (names : List Path) :
    Ensures (createFrom P preventUp d names) s fun _ s' => ∃ L', Steady P s' L' := by
  induction names generalizing s L d with
  | nil => exact .pure ⟨L, h⟩
  | cons c rest ih =>
    rw [FileSystem.createFrom]
    refine .ite (fun _ => .pure ⟨L, h⟩) fun _ => .ite (fun _ => ih h d) fun _ =>
      .ite (fun _ => ?_) fun _ => ?_
    · refine .ite (fun _ => .pure ⟨L, h⟩) fun _ => (readsOnly_getFileAt d).seq fun f => ?_
      exact .ite (fun _ => ih h d) fun _ => ih h f.parent
    · refine (readsOnly_findFileInDir d c).seq fun found => ?_
      refine .ite (fun _ => ih h found) fun _ => ?_
      refine meets_newDirectory (fun _ => trivial) fun g s₂ hg hAdds => ?_
      have h₂ := h.adds hAdds rfl fun hType => by cases hType
      refine (h₂.place hAdds.live (hAdds.unlisted h.listing) hAdds.vacant.1
        (hP _ _ _ hg) (fun hType => by cases hType) d).bind fun error s₃ h₃ => ?_
      rcases h₃ with ⟨rfl, -, L₃, a, b, -, h₃⟩ | ⟨rfl, rfl⟩
      · exact .ite (fun hLt => absurd hLt (by decide)) fun _ => ih h₃ g.ptr
      · -- the directory could not be linked and is given back
        obtain ⟨s₄, hFree, hSame⟩ := hAdds.undo
        exact .ite (fun _ => .after hFree (.pure ⟨L, h.same hSame⟩)) fun hNot =>
          absurd (by decide) hNot

theorem Steady.createDirectories (h : Steady P s L) (hP : P.Linkable) (d : Ptr) (path : Path) :
    Ensures (createDirectories P d path preventUp) s fun _ s' => ∃ L', Steady P s' L' := by
  rw [FileSystem.createDirectories]
  refine (readsOnly_getFileAt d).seq fun f => ?_
  exact .ite (fun _ => .pure ⟨L, h⟩) fun _ => h.createFrom hP d _

theorem Steady.mkdir (h : Steady P s L) (hP : P.Linkable) (name : List UInt8) (mode : Nat) :
    Ensures (dandelionMkdir P name mode) s fun _ s' => ∃ L', Steady P s' L' :=
  steadyRules.mkdir h name mode (fun _ _ => h.createDirectories hP _ _) fun p h => h.chmod p mode

theorem Steady.createAndOpen (h : Steady P s L) (hP : P.Linkable) (name : List UInt8)
    (flags mode : Nat) :
    Ensures (createAndOpen P name flags mode) s fun _ s' => ∃ L', Steady P s' L' := by
  rw [FileSystem.createAndOpen]
  refine (readsOnly_pathFromString name).seq fun path => ?_
  cases getFile path with
  | none => trivial
  | some fileName =>
    refine .ite (fun _ => .pure ⟨L, h⟩) fun hLength =>
      (h.createDirectories hP fsRoot _).bind fun parent s₂ h₂ => ?_
    obtain ⟨L₂, h₂⟩ := h₂
    refine .ite (fun _ => .pure ⟨L₂, h₂⟩) fun _ => ?_
    refine meets_createFile hLength (fun _ => ⟨L₂, h₂.same ⟨rfl, rfl, rfl, rfl⟩⟩)
      fun g s₃ _ hAdds => ?_
    have h₃ := h₂.adds hAdds rfl fun _ => Nat.zero_le _
    refine (h₃.place hAdds.live (hAdds.unlisted h₂.listing) hAdds.vacant.1
      (show 0 + 1 < 2 ^ 16 by decide) (fun _ => rfl) parent).bind fun error s₄ h₄ => ?_
    rcases h₄ with ⟨rfl, -, L₄, a, b, -, h₄⟩ | ⟨rfl, rfl⟩
    · refine .ite (fun hne => absurd rfl hne) fun _ => ?_
      exact (steadyOpens.openDescriptor h₄ g.ptr flags).imp fun _ _ h => ⟨L₄, h⟩
    · -- what the walk ended in is not a directory; the new node is left alone
      exact .ite (fun _ => .pure ⟨L₂, h₃⟩) fun hNot => absurd (by decide) hNot

theorem Steady.open (h : Steady P s L) (hP : P.Linkable) (name : List UInt8) (flags mode : Nat) :
    Ensures (dandelionOpen P name flags mode) s fun _ s' => ∃ L', Steady P s' L' := by
  rw [dandelionOpen]
  refine (readsOnly_findFile name).seq fun current => ?_
  refine .ite (fun _ => .pure ⟨L, h⟩) fun _ =>
    .ite (fun _ => .ite (fun _ => .pure ⟨L, h⟩) fun _ => ?_) fun _ => ?_
  · exact h.createAndOpen hP name flags mode
  · exact (steadyOpens.openDescriptor h current flags).imp fun _ _ h => ⟨L, h⟩

end Calls

end Dandelion.FileSystem
