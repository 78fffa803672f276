import Dandelion.FileSystem.AccessRuns

/-! # Descriptors without a chunk

An entry of the table that has no chunk yet stands at the start of its file: its
offset is zero. Every entry that a call sets has this property.
-/

namespace Dandelion.FileSystem

open Foundation.Runs Foundation.Triples

def Anchored (s : State) : Prop := ∀ i, (s.openFiles i).Anchored

variable {P : Platform} {s s' : State} {x y : Session} {index flags : Nat}

theorem Anchored.refers (h : Anchored s) (hRefers : Refers s s') : Anchored s' :=
  fun i => (hRefers i).anchored (h i)

theorem OpensAs.anchored (h : OpensAs s s' index flags) (hs : Anchored s) : Anchored s' := by
  intro i
  by_cases hi : i = index
  · exact hi ▸ h.start
  · exact (h.others i hi).anchored (hs i)

theorem anchored_of_started (h : Started P x) : Anchored x.state := by
  obtain ⟨_, sets, outputs, s, a, hBoots, hInit⟩ := h
  have hOpen : ∀ entry ∈ standard, ∀ p,
      Preserves Anchored (openExistingFile entry.1 p entry.2 false) := by
    intro entry _ p s hs
    refine (openExistingFile_table entry.1 p entry.2 false).imp fun r s' hs' => ?_
    rcases hs' with ⟨_, hRefers⟩ | ⟨_, hOpens⟩
    · exact hs.refers hRefers
    · exact hOpens.anchored hs
  have hRules : StartRules P Anchored := .of_table (fun s s' h hs => hs.refers (.of_eq h)) hOpen
  refine (hRules.fsInitialize sets outputs s fun i => ?_).result hInit
  rw [hBoots.openFiles]
  exact fun _ => rfl

theorem Anchored.perform {c : Call} (h : Anchored x.state) (hStep : Completes P x c y) :
    Anchored y.state := by
  cases c with
  | openFile name flags mode =>
    have hAll : Ensures (Call.perform P x.dirs (.openFile name flags mode)) x.state fun _ s' =>
        Anchored s' := by
      refine (dandelionOpen_table name flags mode).bind fun r s₁ h₁ => .pure ?_
      rcases h₁ with ⟨_, hRefers⟩ | ⟨_, hOpens⟩
      · exact h.refers hRefers
      · exact hOpens.anchored h
    exact hAll.result hStep
  | close fd =>
    have hAll : Ensures (Call.perform P x.dirs (.close fd)) x.state fun _ s' => Anchored s' := by
      refine (dandelionClose_table fd).bind fun r s₁ h₁ => .pure ?_
      obtain ⟨-, ⟨-, hCloses⟩ | ⟨-, rfl⟩⟩ := h₁
      · exact fun i => hCloses.anchored i (h i)
      · exact h
    exact hAll.result hStep
  | _ =>
    exact h.refers (refers_of_completes (fun _ _ _ h => by cases h) (fun _ h => by cases h) hStep)

theorem anchored_of_reachable (h : Reachable (Started P) (Performs P) x) : Anchored x.state := by
  refine h.invariant (fun x => Anchored x.state) (fun _ => anchored_of_started)
    fun x q y hs hStep => ?_
  cases q with
  | call c => exact hs.perform hStep
  | link old new =>
    obtain ⟨_, r, hLink⟩ := hStep
    exact hs.refers ((KeepsTable.unmoved (tableRules.dandelionLink old new) x.state).result hLink)

end Dandelion.FileSystem
