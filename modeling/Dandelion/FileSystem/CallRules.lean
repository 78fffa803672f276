import Dandelion.FileSystem.ReworkCalls
import Dandelion.FileSystem.Run

/-! # Rules for the calls on nodes

The calls on paths and descriptors are put together from a few steps: they look
something up, create nodes, edit them, place them in a directory or release them.
A relation between states that these steps obey is obeyed by the calls.
-/

namespace Dandelion.FileSystem

open Foundation.Triples

/-- Every completed run is in the relation. -/
def Obeys {α : Type} (R : State → State → Prop) (x : M α) : Prop := ∀ s, Ensures x s (fun _ => R s)

structure StepRules (R : State → State → Prop) : Prop where
  refl : ∀ s, R s s
  trans : ∀ {s s' s'' : State}, R s s' → R s' s'' → R s s''

/-- Edits that change neither the kind nor the mode nor the content of a node. -/
structure EditRules (R : State → State → Prop) : Prop extends StepRules R where
  edit : ∀ (p : Ptr) (g : DFile → DFile),
    (∀ f, (g f).type = f.type ∧ (g f).link = f.link ∧ (g f).mode = f.mode) →
      Obeys R (modifyFile p g)

/-- The steps that leave the table of descriptors alone. -/
structure NodeRules (P : Platform) (R : State → State → Prop) : Prop extends EditRules R where
  chmod : ∀ p mode, Obeys R (modifyFile p fun f => { f with mode := mode })
  place : ∀ d p, Obeys R (linkFileToFolder P d p)
  directories : ∀ d path preventUp, Obeys R (createDirectories P d path preventUp)

/-- The steps of a removal. -/
structure Releases (R : State → State → Prop) : Prop where
  detach : ∀ p, Obeys R (detach p)
  free : ∀ p, Obeys R (freeData p)

/-- Edits of nodes, and how chunks and nodes are given back. -/
structure ReleaseRules (R : State → State → Prop) : Prop extends StepRules R where
  edit : ∀ p g, Obeys R (modifyFile p g)
  chunk : ∀ {s : State} {p c}, s.memory.chunks p = some c →
    Ensures (do dandelionFree c.data; dandelionFree p) s fun _ => R s
  node : ∀ {s : State} {p f} {x : M Unit}, s.memory.files p = some f → Obeys R x →
    Ensures (do x; dandelionFree p) s fun _ => R s

structure CallRules (P : Platform) (R : State → State → Prop) : Prop extends NodeRules P R where
  create : ∀ {name : Path}, name.length ≤ fsNameLength → Obeys R (createFile P name 0 0 0)
  table : ∀ fd o, Obeys R (setOpenFile fd o)

/-- The step of an open with `O_TRUNC`. -/
def Empties (R : State → State → Prop) : Prop :=
  ∀ (p link : Ptr) (k : M Int), Obeys R k →
    Obeys R (do freeFileChunks link; modifyFile p fun f => { f with link := 0 }; k)

/-- The calls that work on nodes alone. -/
def Call.onNodes : Call → Bool
  | .unlink _ | .mkdir _ _ | .rmdir _ | .opendir _ | .closedir _ => true
  | _ => false

/-- The calls that work on content. -/
def Call.onContent : Call → Bool
  | .write _ _ _ _ | .lseek _ _ _ | .truncate _ _ | .ftruncate _ _ => true
  | _ => false

def Call.truncates : Call → Bool
  | .openFile _ flags _ => hasBit flags oTRUNC
  | _ => false

variable {P : Platform} {R : State → State → Prop} {p : Ptr} {α β : Type}

theorem Obeys.ite {c : Prop} [Decidable c] {x y : M α} (hx : Obeys R x) (hy : Obeys R y) :
    Obeys R (if c then x else y) := fun s => Meets.ite (fun _ => hx s) fun _ => hy s

theorem Obeys.mono {R' : State → State → Prop} {x : M α} (h : Obeys R x)
    (hR : ∀ {s s'}, R s s' → R' s s') :
    Obeys R' x := fun s => Meets.imp (h s) fun _ _ => hR

namespace StepRules

variable (h : StepRules R)

include h

theorem reads {x : M α} (hx : ReadsOnly x) : Obeys R x := fun s =>
  (hx s).imp fun _ _ hs => hs ▸ h.refl s

theorem pure (a : α) : Obeys R (pure a : M α) := fun s => .pure (h.refl s)

theorem bind {x : M α} {k : α → M β} (hx : Obeys R x) (hk : ∀ a, Obeys R (k a)) :
    Obeys R (x >>= k) := fun s =>
  (hx s).bind fun a s' h₁ => (hk a s').imp fun _ _ h₂ => h.trans h₁ h₂

/-- What is done with a result after reading it. -/
theorem after {x : M α} {k : α → M β} (hx : ReadsOnly x) (hk : ∀ a, Obeys R (k a)) :
    Obeys R (x >>= k) := h.bind (h.reads hx) hk

theorem freeFileChunks (hChunk : ∀ {s : State} {p c}, s.memory.chunks p = some c →
    Ensures (do dandelionFree c.data; dandelionFree p) s fun _ => R s) (p : Ptr) :
      Obeys R (freeFileChunks p) := by
  have hFrom : ∀ (fuel : Nat) (p : Ptr), Obeys R (freeChunksFrom fuel p) := by
    intro fuel
    induction fuel with
    | zero => exact fun p => h.reads (.fail _)
    | succ fuel ih =>
      intro p
      rw [freeChunksFrom]
      refine .ite (h.pure _) fun s => ensures_chunk fun c _ hc => ?_
      rw [← bind_assoc]
      exact (hChunk hc).bind fun _ s₂ h₂ => (ih c.next s₂).imp fun _ _ h₃ => h.trans h₂ h₃
  exact h.after readsOnly_steps fun fuel => hFrom fuel p

end StepRules

namespace ReleaseRules

variable (h : ReleaseRules R)

include h

theorem freeNode (fuel : Nat) :
    (∀ p, Obeys R (freeNode fuel p)) ∧ ∀ p, Obeys R (freeChildren fuel p) := by
  induction fuel with
  | zero => exact ⟨fun p => h.reads (.fail _), fun p => h.reads (.fail _)⟩
  | succ fuel ih =>
    constructor
    · intro p s
      rw [FileSystem.freeNode]
      refine ensures_file fun f _ hf => ?_
      refine .ite (fun _ => .pure (h.refl _)) fun _ => ?_
      have hNode : ∀ {x : M Unit}, Obeys R x →
          Ensures (do x; dandelionFree p; Pure.pure 0 : M Int) s fun _ => R s := by
        intro x hx
        rw [← bind_assoc]
        exact (h.node hf hx).bind fun _ _ h₂ => .pure h₂
      cases f.type with
      | directory => exact hNode (ih.2 f.link)
      | file => exact hNode (h.freeFileChunks h.chunk f.link)
      | device => exact hNode (h.pure ())
      | unknown => exact .pure (h.refl _)
    · intro p
      rw [FileSystem.freeChildren]
      exact .ite (h.pure _) (h.bind (ih.1 p) fun _ =>
        h.after (readsOnly_getFileAt p) fun c => ih.2 _)

theorem unlinkFrom (file : Ptr) (fuel : Nat) (child : Ptr) :
    Obeys R (unlinkFrom file fuel child) := by
  induction fuel generalizing child with
  | zero => exact h.reads (.fail _)
  | succ fuel ih =>
    rw [FileSystem.unlinkFrom]
    refine .ite (h.pure _) (h.after (readsOnly_getFileAt child) fun c => .ite ?_ (ih _))
    exact h.after (readsOnly_getFileAt file) fun f => h.edit _ _

theorem releases : Releases R where
  detach file :=
    h.after (readsOnly_getFileAt file) fun f => h.after (readsOnly_getFileAt f.parent) fun _ =>
      .ite (h.edit _ _) (h.after readsOnly_steps fun _ => h.unlinkFrom _ _ _)
  free p := h.after readsOnly_steps fun _ => (h.freeNode _).1 p

end ReleaseRules

namespace EditRules

variable (h : EditRules R)

include h

theorem openDescriptor (hTable : ∀ fd o, Obeys R (setOpenFile fd o)) (p : Ptr) {flags : Nat}
    (hTrunc : hasBit flags oTRUNC = true → Empties R) :
    Obeys R (openDescriptor p flags) := by
  have hFinish : ∀ (i : Nat) access, Obeys R (finishOpen i p access) := fun i access =>
    h.after (readsOnly_getFileAt p) fun f => h.bind (h.edit _ _ fun _ => ⟨rfl, rfl, rfl⟩) fun _ =>
      h.bind (hTable _ _) fun _ => h.pure _
  intro s
  rw [FileSystem.openDescriptor]
  obtain ⟨free, hFree, -⟩ := lowestFree_ok (s := s)
  refine .after hFree ?_
  cases free with
  | none => exact .pure (h.refl _)
  | some i =>
    refine h.bind (h.after (readsOnly_getFileAt p) fun f => .ite (h.pure _) (.ite (h.pure _) ?_))
      (fun error => .ite (h.pure _) (h.pure _)) s
    intro s₁
    exact .ite (fun hFlags => hTrunc hFlags.1 p f.link _ (hFinish _ _) s₁) fun _ => hFinish _ _ s₁

end EditRules

namespace NodeRules

variable (h : NodeRules P R)

include h

theorem dandelionOpendir (name : List UInt8) : Obeys R (dandelionOpendir P name) := by
  refine h.after (readsOnly_findFile name) fun current => .ite (h.pure _) ?_
  refine h.after (readsOnly_getFileAt current) fun f => .ite (h.pure _) ?_
  exact h.bind (h.edit _ _ fun _ => ⟨rfl, rfl, rfl⟩) fun _ => h.pure _

theorem dandelionMkdir (name : List UInt8) (mode : Nat) : Obeys R (dandelionMkdir P name mode) := by
  refine h.after (readsOnly_pathFromString name) fun path => ?_
  cases getFile path with
  | none => exact h.reads (.fail _)
  | some dirName =>
    refine h.after (readsOnly_findFrom fsRoot _) fun parent => .ite (h.pure _) ?_
    refine h.after (readsOnly_getFileAt parent) fun f => .ite (h.pure _) ?_
    refine h.after (readsOnly_findFileInDir parent dirName) fun existing => .ite (h.pure _) ?_
    refine h.bind (h.directories _ _ _) fun newDir => .ite (h.pure _) ?_
    exact h.bind (h.chmod _ _) fun _ => h.pure _

theorem dandelionLink (old new : List UInt8) : Obeys R (dandelionLink P old new) := by
  refine h.after (readsOnly_findFile old) fun file => .ite (h.pure _) ?_
  refine h.after (readsOnly_getFileAt file) fun f => .ite (h.pure _) (.ite (h.pure _) ?_)
  refine h.after (readsOnly_findFile new) fun newFile => .ite (h.pure _) ?_
  refine h.after (readsOnly_pathFromString new) fun path => ?_
  cases getFile path with
  | none => exact h.reads (.fail _)
  | some name =>
    refine h.bind (h.directories _ _ _) fun newDir => .ite (h.pure _) ?_
    refine h.bind (h.place _ _) fun _ => ?_
    exact h.bind (h.edit _ _ fun _ => ⟨rfl, rfl, rfl⟩) fun _ => h.pure _

variable (hr : Releases R)

include hr

theorem dandelionUnlink (name : List UInt8) : Obeys R (dandelionUnlink P name) := by
  refine h.after (readsOnly_findFile name) fun file =>
    .ite (h.pure _) (h.bind (hr.detach file) fun _ => ?_)
  exact h.bind (h.edit _ _ fun _ => ⟨rfl, rfl, rfl⟩) fun _ =>
    h.bind (hr.free file) fun _ => h.pure _

theorem dandelionRmdir (name : List UInt8) : Obeys R (dandelionRmdir P name) := by
  refine h.after (readsOnly_findFile name) fun file => .ite (h.pure _) ?_
  exact h.after (readsOnly_getFileAt file) fun f =>
    .ite (h.pure _) (.ite (h.pure _) (h.dandelionUnlink hr name))

theorem dandelionClosedir (dir : Ptr) : Obeys R (dandelionClosedir dir) :=
  h.bind (h.edit _ _ fun _ => ⟨rfl, rfl, rfl⟩) fun _ => hr.free dir

theorem perform {c : Call} (dirs : List Ptr) (hc : c.onNodes = true) :
    Obeys R (c.perform P dirs) := by
  cases c with
  | unlink name => exact h.bind (h.dandelionUnlink hr name) fun _ => h.pure _
  | mkdir name mode => exact h.bind (h.dandelionMkdir name mode) fun _ => h.pure _
  | rmdir name => exact h.bind (h.dandelionRmdir hr name) fun _ => h.pure _
  | opendir name => exact h.bind (h.dandelionOpendir name) fun _ => h.pure _
  | closedir dir => exact h.bind (h.dandelionClosedir hr dir) fun _ => h.pure _
  | _ => exact Bool.noConfusion hc

end NodeRules

namespace CallRules

variable (h : CallRules P R)

include h

theorem dandelionOpen (name : List UInt8) {flags : Nat} (mode : Nat)
    (hTrunc : hasBit flags oTRUNC = true → Empties R) :
    Obeys R (dandelionOpen P name flags mode) := by
  refine h.after (readsOnly_findFile name) fun current => .ite (h.pure _)
    (.ite (.ite (h.pure _) ?_) (h.openDescriptor h.table _ hTrunc))
  refine h.after (readsOnly_pathFromString name) fun path => ?_
  cases getFile path with
  | none => exact h.reads (.fail _)
  | some fileName =>
    intro s
    refine .ite (fun _ => .pure (h.refl _)) fun hLength => ?_
    refine h.bind (h.directories _ _ _) (fun parent => .ite (h.pure _) ?_) s
    refine h.bind (h.create (Nat.le_of_lt (Nat.lt_of_not_le hLength))) fun current =>
      .ite (h.pure _) ?_
    refine h.bind (h.chmod _ _) fun _ => h.bind (h.place _ _) fun error => ?_
    exact .ite (h.pure _) (h.openDescriptor h.table _ hTrunc)

/-- A weaker relation has the rules as well. -/
theorem mono {R' : State → State → Prop} (hSteps : StepRules R') (hR : ∀ {s s'}, R s s' → R' s s') :
    CallRules P R' where
  toStepRules := hSteps
  edit p g hg := (h.edit p g hg).mono hR
  chmod p mode := (h.chmod p mode).mono hR
  place d p := (h.place d p).mono hR
  directories d path preventUp := (h.directories d path preventUp).mono hR
  create hName := (h.create hName).mono hR
  table fd o := (h.table fd o).mono hR

theorem dandelionRead (fd : Int) (len : Nat) (offset : Int) (options : Nat) :
    Obeys R (dandelionRead P fd len offset options) := by
  have hFrom : ∀ o p i, Obeys R (readFrom fd o len options p i) := fun o p i =>
    h.after readsOnly_steps fun _ => h.after (readsOnly_readLoop _ _ _ _ _ _) fun _ =>
      .ite (h.bind (h.table _ _) fun _ => h.pure _) (h.pure _)
  refine h.after (readsOnly_getOpenFile fd) fun o => .ite (h.pure _) ?_
  refine h.after (readsOnly_getFileAt _) fun f =>
    .ite (h.pure _) (.ite (h.pure _) (.ite (h.pure _) ?_))
  refine .ite (.ite (h.pure _) ?_) (.ite (.ite ?_ ?_) (hFrom _ _ _))
  · refine h.after readsOnly_steps fun _ => h.after (readsOnly_readSeek _ _ _) fun place => ?_
    cases place with
    | none => exact h.pure _
    | some place => exact hFrom _ _ _
  · exact h.bind (h.table _ _) fun _ => hFrom _ _ _
  · exact h.bind (h.table _ _) fun _ => h.pure _

variable (hr : Releases R)

include hr

theorem dandelionClose (fd : Int) : Obeys R (dandelionClose fd) := by
  refine h.after (readsOnly_getOpenFile fd) fun o => .ite (h.pure _) ?_
  refine h.bind (h.edit _ _ fun _ => ⟨rfl, rfl, rfl⟩) fun _ => h.bind (hr.free _) fun _ => ?_
  refine h.after (readsOnly_getOpenFile fd) fun o => ?_
  exact h.bind (h.table _ _) fun _ => h.pure _

/-- A call that does not work on content obeys the relation. -/
theorem perform {c : Call} (dirs : List Ptr) (hc : c.onContent = false)
    (hTrunc : c.truncates = true → Empties R) : Obeys R (c.perform P dirs) := by
  cases c with
  | openFile name flags mode => exact h.bind (h.dandelionOpen name mode hTrunc) fun _ => h.pure _
  | close fd => exact h.bind (h.dandelionClose hr fd) fun _ => h.pure _
  | read fd len offset options =>
    exact h.bind (h.dandelionRead fd len offset options) fun _ => h.pure _
  | write | lseek | truncate | ftruncate => exact Bool.noConfusion hc
  | _ => exact h.toNodeRules.perform hr dirs rfl

end CallRules

theorem keeping_modifyFile {g : DFile → DFile}
    (hg : ∀ f, (g f).type = f.type ∧ (g f).link = f.link) :
    Obeys (fun s s' => Keeps s.memory s'.memory) (modifyFile p g) := fun _ =>
  (ensures_modifyFile fun f _ => ⟨(hg f).1, fun _ => (hg f).2⟩).imp fun _ _ h => h.1

/-- The relation of the calls that create. -/
theorem keepingRules : CallRules P fun s s' => Keeps s.memory s'.memory where
  refl s := .refl s.memory
  trans := Keeps.trans
  edit _ _ hg := keeping_modifyFile fun f => ⟨(hg f).1, (hg f).2.1⟩
  chmod _ _ := keeping_modifyFile fun _ => ⟨rfl, rfl⟩
  place d p s := (ensures_linkFileToFolder d p).imp fun _ _ h => h.1
  directories d path preventUp s :=
    (ensures_createDirectories d path preventUp).imp fun _ _ h => h.1
  create {name} hName s := by
    cases hg : P.answer s.memory s.requests sizeofFile 8 with
    | none => exact .of_ok (createFile_none hg) (Keeps.refl s.memory)
    | some g =>
      obtain ⟨s₁, hRun, hAdds⟩ := createFile_empty 0 0 hg hName
      exact .of_ok hRun (hAdds.keeps (fun _ => rfl) ()).1
  table fd o s := by
    by_cases hRange : 0 ≤ fd ∧ fd < fsMaxFiles
    · exact .of_ok (setOpenFile_ok hRange o) (Keeps.refl s.memory)
    · exact .of_error (if_neg hRange) trivial

end Dandelion.FileSystem
