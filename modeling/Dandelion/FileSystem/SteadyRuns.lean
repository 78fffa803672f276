import Dandelion.FileSystem.SteadyStart

/-! # Every run keeps the tree steady

The tree stays steady along runs of all calls of the interface, as long as no
hard link is made: a link that is refused does no harm.
-/

namespace Dandelion.FileSystem

open Foundation.Runs

inductive Request where
  | call (c : Call)
  | link (old new : List UInt8)

def Proceeds (P : Platform) (x : Session) : Request → Session → Prop
  | .call c, y => Completes P x c y
  | .link old new, y =>
    y.dirs = x.dirs ∧ ∃ r, dandelionLink P old new x.state = .ok (r, y.state) ∧ r ≠ 0

/-- A call that completes, or a hard link of any kind. -/
def Performs (P : Platform) (x : Session) : Request → Session → Prop
  | .call c, y => Completes P x c y
  | .link old new, y => y.dirs = x.dirs ∧ ∃ r, dandelionLink P old new x.state = .ok (r, y.state)

variable {P : Platform} {s : State} {L : Ptr → List Ptr}

theorem Steady.reworking {α : Type} {x : M α} {sized : Prop} (h : Steady P s L)
    (hx : Reworking sized x) :
    Ensures x s fun _ s' => ∃ L', Steady P s' L' :=
  (hx s).imp fun _ _ hReworks => ⟨L, Steady.reworks h hReworks⟩

theorem Steady.perform (h : Steady P s L) (hP : P.Linkable) (c : Call) (dirs : List Ptr) :
    Ensures (c.perform P dirs) s fun _ s' => ∃ L', Steady P s' L' := by
  cases c with
  | openFile name flags mode => exact (h.open hP name flags mode).bind fun _ _ h => .pure h
  | close fd => exact (steadyRules.close h fd).bind fun _ _ h => .pure h
  | unlink name => exact (steadyRules.unlink h name).bind fun _ _ h => .pure h
  | mkdir name mode => exact (h.mkdir hP name mode).bind fun _ _ h => .pure h
  | rmdir name => exact (steadyRules.rmdir h name).bind fun _ _ h => .pure h
  | read fd len offset options =>
    exact (h.reworking (dandelionRead_reworks fd len offset options)).bind fun _ _ h => .pure h
  | write fd bytes offset options =>
    exact (h.reworking (dandelionWrite_reworks fd bytes offset options)).bind fun _ _ h => .pure h
  | lseek fd offset whence =>
    exact (h.reworking (dandelionLseek_reworks fd offset whence)).bind fun _ _ h => .pure h
  | truncate name length =>
    exact (h.reworking (dandelionTruncate_reworks name length)).bind fun _ _ h => .pure h
  | ftruncate fd length =>
    exact (h.reworking (dandelionFtruncate_reworks fd length)).bind fun _ _ h => .pure h
  | opendir name => exact (steadyRules.opendir h name).bind fun _ _ h => .pure h
  | closedir dir => exact (steadyRules.closedir h dir).bind fun _ _ h => .pure h

theorem Steady.link_refused (h : Steady P s L) (hP : P.Linkable) (old new : List UInt8) :
    Ensures (dandelionLink P old new) s fun r s' => r ≠ 0 → ∃ L', Steady P s' L' := by
  rw [dandelionLink]
  refine (readsOnly_findFile old).seq fun file => ?_
  refine .ite (fun _ => .pure fun _ => ⟨L, h⟩) fun _ => (readsOnly_getFileAt file).seq fun f => ?_
  refine .ite (fun _ => .pure fun _ => ⟨L, h⟩) fun _ =>
    .ite (fun _ => .pure fun _ => ⟨L, h⟩) fun _ => ?_
  refine (readsOnly_findFile new).seq fun newFile => ?_
  refine .ite (fun _ => .pure fun _ => ⟨L, h⟩) fun _ =>
    (readsOnly_pathFromString new).seq fun path => ?_
  cases getFile path with
  | none => trivial
  | some name =>
    refine (h.createDirectories hP fsRoot _).bind fun newDir s₅ h₅ =>
      .ite (fun _ => .pure fun _ => h₅) fun _ => ?_
    exact .after_any fun _ s₆ => .after_any fun _ s₇ => .pure fun hne => absurd rfl hne

theorem proceeds_of_completes {x : Session} (h : Reachable (Started P) (Completes P) x) :
    Reachable (Started P) (Proceeds P) x := by
  induction h with
  | init hStart => exact .init hStart
  | @step x y c _ hStep ih => exact .step (i := .call c) ih hStep

theorem performs_of_proceeds {x : Session} (h : Reachable (Started P) (Proceeds P) x) :
    Reachable (Started P) (Performs P) x := by
  refine h.mono fun x q y hStep => ?_
  cases q with
  | call c => exact hStep
  | link old new =>
    obtain ⟨hDirs, r, hRun, -⟩ := hStep
    exact ⟨hDirs, r, hRun⟩

theorem Steady.proceed {x y : Session} {q : Request} (h : Steady P x.state L) (hP : P.Linkable)
    (hStep : Proceeds P x q y) :
    ∃ L', Steady P y.state L' := by
  cases q with
  | call c => exact (h.perform hP c x.dirs).result hStep
  | link old new =>
    obtain ⟨_, r, hRun, hr⟩ := hStep
    exact (h.link_refused hP old new).result hRun hr

theorem steady_of_started {x : Session} (hP : P.Linkable) (h : Started P x) :
    ∃ L, Steady P x.state L := by
  obtain ⟨_, sets, outputs, s, a, hBoots, hInit⟩ := h
  obtain ⟨L, hSteady, _⟩ := (fsInitialize_sound hBoots hP).result hInit rfl
  exact ⟨L, hSteady⟩

theorem steady_of_reachable {x : Session} (hP : P.Linkable)
    (h : Reachable (Started P) (Proceeds P) x) :
    ∃ L, Steady P x.state L := by
  refine h.invariant (fun x => ∃ L, Steady P x.state L)
    (fun x hStart => steady_of_started hP hStart) ?_
  rintro x q y ⟨L, hSteady⟩ hStep
  exact hSteady.proceed hP hStep

/-- In every state that a run without new hard links reaches, the list of every directory ends and
is sorted, and what it holds is in no other list, refers to that directory and has a link. -/
theorem lists_kept {x : Session} (hP : P.Linkable) (h : Reachable (Started P) (Proceeds P) x) :
    ∃ L : Ptr → List Ptr,
      (∀ d f, x.state.memory.files d = some f → f.type = .directory →
        Entries x.state.memory d (L d)) ∧
      (∀ d, Sorted P x.state.memory (L d) ∧ (L d).Nodup ∧ fsRoot ∉ L d) ∧ ∀ d p, p ∈ L d →
        (∃ f, x.state.memory.files p = some f ∧ f.parent = d ∧ f.hardLinks ≠ 0) ∧
          ∀ c, p ∈ L c → c = d := by
  obtain ⟨L, hSteady⟩ := steady_of_reachable hP h
  have hListing := hSteady.listing
  refine ⟨L, hListing.entries, fun d =>
    ⟨hListing.sorted d, hListing.nodup d, hListing.root_unlisted d⟩, fun d p hp => ?_⟩
  obtain ⟨f, hf, hParent⟩ := hListing.live hp
  exact ⟨⟨f, hf, hParent, (hSteady.counts d p f hp hf).1⟩, fun c hc => hListing.same_parent hc hp⟩

/-- A file was put in a new directory, written and removed again. -/
theorem lists_kept_removed : ∃ x, Reachable (Started (.bump 0)) (Proceeds (.bump 0)) x ∧
    ∃ l, Entries x.state.memory fsRoot l ∧ Sorted (.bump 0) x.state.memory l := by
  obtain ⟨x, hx, hRoot⟩ := exists_of_bareRun (P := .bump 0) [.mkdir [97] sIRWXU,
    .openFile [97, slash, 98] (oWRONLY ||| oCREAT) sIRWXU, .write 3 [1] 0 moveOffset,
    .unlink [97, slash, 98]]
    (fun y => (y.state.memory.files fsRoot).map DFile.type = some .directory) (by decide +kernel)
  have h := proceeds_of_completes hx
  obtain ⟨L, hEntries, hSorted, -⟩ := lists_kept linkable_bump h
  obtain ⟨f, hf, hDirectory⟩ := Option.map_eq_some_iff.mp (of_decide_eq_true hRoot)
  exact ⟨x, h, L fsRoot, hEntries _ f hf hDirectory, (hSorted _).1⟩

end Dandelion.FileSystem
