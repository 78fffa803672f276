import Dandelion.FileSystem.Freeing
import Dandelion.FileSystem.SteadyRuns

/-! # Removing an entry

`dandelion_unlink` and `dandelion_rmdir` in the trees that runs reach: what they
remove, and on which paths they remove more than one entry or do not return.
-/

namespace Dandelion.FileSystem

open Foundation.Chains Foundation.Runs Foundation.Triples

/-- A call for the path `name` returns an error and changes nothing, or returns 0 and
takes the one entry that the path leads to out of its list; every other node keeps
its position. -/
def RemovesOne (P : Platform) (call : M Int) (name : List UInt8) (s : State)
    (L : Ptr → List Ptr) : Prop :=
  ∃ r s', call s = .ok (r, s') ∧
    (r < 0 ∧ s' = s ∨ r = 0 ∧ ∃ d a b, L d = a ++ resolve s.memory L name :: b ∧
    Listing P s'.memory (Function.update L d (a ++ b)) ∧
    ∀ π q, q ≠ resolve s.memory L name → At s.memory L π q →
      At s'.memory (Function.update L d (a ++ b)) π q)

/-- The last name of a regular file that is not open goes with its chunks, which must be
its own. -/
def Releasable (m : Memory) (p : Ptr) : Prop :=
  ∀ f, m.files p = some f → f.type = .file → f.hardLinks = 1 → f.openDescriptors = 0 →
    Owned m f.link

def Unlinkable (m : Memory) (L : Ptr → List Ptr) (name : List UInt8) : Prop :=
  (pathOf name).length < fsPathLength ∧ (resolve m L name ≠ 0 →
    resolve m L name ≠ fsRoot ∧ L (resolve m L name) = [] ∧ Releasable m (resolve m L name))

def Rmdirable (m : Memory) (L : Ptr → List Ptr) (name : List UInt8) : Prop :=
  (pathOf name).length < fsPathLength ∧ ¬ (resolve m L name = fsRoot ∧ L fsRoot = [])

variable {P : Platform} {s s' : State} {m m' : Memory} {L L' : Ptr → List Ptr} {d p q : Ptr}
  {a b : List Ptr} {f : DFile} {π : List Path} {name : List UInt8}

section Positions

theorem At.others (hLists : ∀ c q, q ≠ p → q ∈ L c → q ∈ L' c)
    (hNames : ∀ c, ∀ q ∈ L c, q ≠ p → entryName m' q = entryName m q) (hEmpty : L p = [])
    (h : At m L π q) (hq : q ≠ p) :
    At m' L' π q := by
  induction h with
  | root => exact .root
  | @child π d q _ hMem ih =>
    have hd : d ≠ p := by
      rintro rfl
      rw [hEmpty] at hMem
      exact List.not_mem_nil hMem
    rw [← hNames d q hMem hq]
    exact .child (ih hd) (hLists d q hq hMem)

end Positions

section Unlink

theorem entries_link (h : Entries m p (L p)) (hf : m.files p = some f) : f.link = 0 ↔ L p = [] := by
  obtain ⟨_, e, he, _, hChain⟩ := h
  obtain rfl := Option.mem_unique hf he
  constructor
  · intro hZero
    rw [hZero] at hChain
    exact chain_zero.mp hChain
  · intro hEmpty
    rw [hEmpty] at hChain
    exact hChain

theorem Steady.freeData_ok (h : Steady P s L) (hf : s.memory.files p = some f) (hRoot : p ≠ fsRoot)
    (hUnlisted : ∀ d, p ∉ L d) (hEmpty : L p = []) (hStatic : p < staticEnd → f.hardLinks ≠ 0)
    (hOwned : f.type = .file → f.hardLinks = 0 → f.openDescriptors = 0 → Owned s.memory f.link) :
    ∃ r s', FileSystem.freeData p s = .ok (r, s') ∧
      (∀ q, q ≠ p → s'.memory.files q = s.memory.files q) ∧
      Listing P s'.memory L := by
  have hp : p ≠ 0 := h.listing.ne_zero hf
  have hRun : FileSystem.freeData p s = freeNode (2 * s.memory.limit + 1 + 1) p s := by
    rw [FileSystem.freeData, bind_ok steps_ok,
      show 2 * (s.memory.limit + 1) = 2 * s.memory.limit + 1 + 1 by omega]
  by_cases hCounts : f.hardLinks ≠ 0 ∨ f.openDescriptors ≠ 0
  · refine ⟨0, s, ?_, fun _ _ => rfl, h.listing⟩
    rw [hRun, freeNode, bind_ok (getFileAt_ok hp hf), if_pos hCounts]
    rfl
  · obtain ⟨hZero, hClosed⟩ : f.hardLinks = 0 ∧ f.openDescriptors = 0 := by simpa using hCounts
    have hHigh : staticEnd ≤ p := Nat.not_lt.mp fun hLt => hStatic hLt hZero
    have hFree : ∀ {s₂ : State}, s₂.memory.files = s.memory.files →
        ∃ s', dandelionFree p s₂ = .ok ((), s') ∧
          (∀ q, q ≠ p → s'.memory.files q = s.memory.files q) ∧
          Listing P s'.memory L := by
      intro s₂ hSame
      have hAllocated : s₂.memory.allocated p = true := by simp [Memory.allocated, hSame, hf, hHigh]
      refine ⟨_, if_pos hAllocated, fun q hq => ?_, ?_⟩
      · rw [drop_files, Function.update_of_ne hq, hSame]
      · have hListing : Listing P (s₂.memory.drop p) (Function.update L p []) :=
          (h.listing.of_files hSame).drop hUnlisted hRoot rfl
        rwa [Function.update_eq_self_iff.mpr hEmpty.symm] at hListing
    rw [hRun, freeNode, bind_ok (getFileAt_ok hp hf), if_neg hCounts]
    cases hType : f.type with
    | directory =>
      have hLink := (entries_link (h.listing.entries p f hf hType) hf).mpr hEmpty
      obtain ⟨s', hDrop, hRest⟩ := hFree rfl
      refine ⟨0, s', ?_, hRest⟩
      have hNone : freeChildren (2 * s.memory.limit + 1) f.link s = .ok ((), s) := by
        rw [freeChildren, if_pos hLink]
        rfl
      exact (bind_ok hNone).trans (bind_ok hDrop)
    | file =>
      obtain ⟨cs, hChain, hOwn⟩ := hOwned hType hZero hClosed
      obtain ⟨s₂, hChunks, hFrees⟩ := freeFileChunks_ok h.holding hChain hOwn
      obtain ⟨s', hDrop, hRest⟩ := hFree hFrees.files
      exact ⟨0, s', (bind_ok hChunks).trans (bind_ok hDrop), hRest⟩
    | device =>
      obtain ⟨s', hDrop, hRest⟩ := hFree rfl
      exact ⟨0, s', bind_ok hDrop, hRest⟩
    | unknown => exact ⟨-1, s, rfl, fun _ _ => rfl, h.listing⟩

theorem Steady.removes (h : Steady P s L) (hShort : (pathOf name).length < fsPathLength)
    (hp : resolve s.memory L name ∈ L d) (hEmpty : L (resolve s.memory L name) = [])
    (hOwned : Releasable s.memory (resolve s.memory L name)) :
    RemovesOne P (dandelionUnlink P name) name s L := by
  generalize hResolve : resolve s.memory L name = p at hp hEmpty hOwned
  obtain ⟨f, hf, _⟩ := h.listing.live hp
  have hFound := findFile_ok h.listing hShort
  rw [hResolve] at hFound
  obtain ⟨s₁, a, b, hDetach, hSplit, hEdit, h₁, hUnlisted, hCount⟩ := h.detach hp
  have hRoot : p ≠ fsRoot := fun hEq => h.listing.root_unlisted d (hEq ▸ hp)
  have hf₁ := hEdit.file hf
  obtain ⟨s₂, hDiscount, hEdit₂⟩ := modifyFile_edits
    (fun f => { f with hardLinks := (f.hardLinks + (2 ^ 16 - 1)) % 2 ^ 16 })
    (h.listing.ne_zero hf) hf₁
  have h₂ := (h₁.discount hUnlisted hCount).result hDiscount
  have hf₂ := hEdit₂.file hf₁
  rw [editAt, if_pos rfl] at hf₂
  have hOther : p ≠ d := by
    rintro rfl
    rw [hEmpty] at hp
    exact List.not_mem_nil hp
  obtain ⟨hLinked, hStatic⟩ := h.counts d p f hp hf
  have hKept : p < staticEnd → (f.hardLinks + (2 ^ 16 - 1)) % 2 ^ 16 ≠ 0 := fun hLow => by
    have := hStatic hLow
    omega
  have hOwned₂ : f.type = .file → f.openDescriptors = 0 →
      Owned s₂.memory (unlinked d a b p f).link := by
    intro hType hClosed
    have hOne : f.hardLinks = 1 :=
      Nat.le_antisymm (h.single p f hf hType) (Nat.one_le_iff_ne_zero.mpr hLinked)
    have hSame : (unlinked d a b p f).link = f.link := if_neg fun hAnd => hOther hAnd.1
    rw [hSame]
    exact (hOwned f hf hType hOne hClosed).congr h.holding h₂.holding
      (hEdit₂.chunks.trans hEdit.chunks)
      (hEdit₂.blocks.trans hEdit.blocks)
  obtain ⟨r, s₃, hFree, hFiles, hListing⟩ := h₂.freeData_ok hf₂ hRoot hUnlisted
    (by rw [Function.update_of_ne hOther, hEmpty]) hKept fun hType _ hClosed =>
      hOwned₂ hType hClosed
  refine ⟨0, s₃, ?_, Or.inr ⟨rfl, d, a, b, by rw [hResolve, hSplit], hListing,
    fun π q hq hAt => ?_⟩⟩
  · rw [dandelionUnlink, bind_ok hFound, if_neg (h.listing.ne_zero hf), bind_ok hDetach,
      bind_ok hDiscount, bind_ok hFree]
    rfl
  · rw [hResolve] at hq
    refine hAt.others (fun c q hq hMem => (h.listing.mem_remove_iff hSplit).mpr ⟨hMem, hq⟩)
      (fun c q hMem hq => ?_) hEmpty hq
    obtain ⟨e, he, _⟩ := h.listing.live hMem
    have he₂ := hEdit₂.file (hEdit.file he)
    rw [editAt, if_neg hq] at he₂
    rw [entryName_of he, entryName_of ((hFiles q hq).trans he₂)]
    rfl

theorem Steady.freeData_owned (h : Steady P s L) (hf : s.memory.files p = some f)
    (hType : f.type = .file) (hZero : f.hardLinks = 0) (hClosed : f.openDescriptors = 0) :
    Ensures (FileSystem.freeData p) s fun _ _ => Owned s.memory f.link := by
  rw [FileSystem.freeData]
  refine .after steps_ok ?_
  rw [show 2 * (s.memory.limit + 1) = 2 * s.memory.limit + 1 + 1 by omega, freeNode]
  refine .after (getFileAt_ok (h.listing.ne_zero hf) hf) (.ite (fun hCounts => ?_) fun _ => ?_)
  · exact absurd hCounts (by simp [hZero, hClosed])
  · rw [hType]
    exact (owned_of_freeFileChunks h.holding).bind fun _ s₁ hOwned =>
      .after_any fun _ _ => .pure hOwned

theorem Steady.unlink_returns (h : Steady P s L) (name : List UInt8) :
    Ensures (dandelionUnlink P name) s fun r _ => (pathOf name).length < fsPathLength ∧
      (resolve s.memory L name ≠ 0 →
      r = 0 ∧ resolve s.memory L name ≠ fsRoot ∧
        Releasable s.memory (resolve s.memory L name)) := by
  rw [dandelionUnlink]
  refine ((ensures_findFile h.listing name).and (ensures_findFile_short name)).bind
    fun p s₁ hFound => ?_
  obtain ⟨⟨rfl, rfl, hRooted⟩, hShort⟩ := hFound
  refine .ite (fun hp => .pure ⟨hShort, fun hne => absurd hp hne⟩) fun hp => ?_
  rcases (hRooted hp).cases with hRoot | ⟨d, _, hMem⟩
  · obtain ⟨f, hf, _, hParent⟩ := h.listing.root
    refine .after_error (e := .null) ?_ trivial
    rw [hRoot, FileSystem.detach, bind_ok (getFileAt_ok (hRoot ▸ hp) hf), hParent]
    rfl
  · generalize resolve s₁.memory L name = p at hp hMem hRooted
    obtain ⟨f, hf, _⟩ := h.listing.live hMem
    obtain ⟨s₂, a, b, hDetach, hSplit, hEdit, h₂, hUnlisted, hCount⟩ := h.detach hMem
    have hRoot : p ≠ fsRoot := fun hEq => h.listing.root_unlisted d (hEq ▸ hMem)
    obtain ⟨s₃, hDiscount, hEdit₃⟩ := modifyFile_edits
      (fun f => { f with hardLinks := (f.hardLinks + (2 ^ 16 - 1)) % 2 ^ 16 }) hp (hEdit.file hf)
    have h₃ := (h₂.discount hUnlisted hCount).result hDiscount
    have hf₃ := hEdit₃.file (hEdit.file hf)
    rw [editAt, if_pos rfl] at hf₃
    have hOwned : Ensures (FileSystem.freeData p) s₃ fun _ _ => Releasable s₁.memory p := by
      by_cases hLast : f.type = .file ∧ f.hardLinks = 1 ∧ f.openDescriptors = 0
      · obtain ⟨hType, hOne, hClosed⟩ := hLast
        have hZero : (f.hardLinks + (2 ^ 16 - 1)) % 2 ^ 16 = 0 := by omega
        refine (h₃.freeData_owned hf₃ hType hZero hClosed).imp fun _ _ hOwned e he _ _ _ => ?_
        obtain rfl := Option.mem_unique hf he
        have hOther : p ≠ d := fun hEq => (hRooted hp).not_own_child h.listing (hEq ▸ hMem)
        have hSame : (unlinked d a b p f).link = f.link := if_neg fun hAnd => hOther hAnd.1
        rw [← hSame]
        exact hOwned.congr h₃.holding h.holding (hEdit₃.chunks.trans hEdit.chunks).symm
          (hEdit₃.blocks.trans hEdit.blocks).symm
      · refine (Meets.any _ _).imp fun _ _ _ e he hType hOne hClosed => ?_
        obtain rfl := Option.mem_unique hf he
        exact absurd ⟨hType, hOne, hClosed⟩ hLast
    refine .after hDetach
      (.after hDiscount (hOwned.bind fun _ s₄ h₄ => .pure ⟨hShort, fun _ => ⟨rfl, hRoot, h₄⟩⟩))

theorem not_at_removed (h : Listing P s.memory L) (hSplit : L d = a ++ p :: b) :
    ¬ At m' (Function.update L d (a ++ b)) π p := by
  intro hAt
  rcases hAt.inv with ⟨_, rfl⟩ | ⟨_, c, _, _, hMem⟩
  · exact h.root_unlisted d (hSplit ▸ List.mem_append_right _ List.mem_cons_self)
  · exact ((h.mem_remove_iff hSplit).mp hMem).2 rfl

theorem RemovesOne.childless {call : M Int} (h : RemovesOne P call name s L)
    (hListing : Listing P s.memory L) (hp : Rooted L (resolve s.memory L name))
    (hZero : ∀ r s', call s = .ok (r, s') → r = 0) :
    L (resolve s.memory L name) = [] := by
  obtain ⟨r, s', hRun, ⟨hNeg, _⟩ | ⟨_, d, a, b, hSplit, hListing', hOthers⟩⟩ := h
  · rw [hZero r s' hRun] at hNeg
    exact absurd hNeg (by decide)
  · refine List.eq_nil_iff_forall_not_mem.mpr fun q hq => ?_
    obtain ⟨π, hAt⟩ := (hp.child hq).at (m := s.memory)
    have hne : q ≠ resolve s.memory L name := fun hEq => hp.not_own_child hListing (hEq ▸ hq)
    -- the child is still in the list of its parent, which is in no list any more
    rcases (hOthers π q hne hAt).inv with ⟨_, rfl⟩ | ⟨_, c, _, hc, hMem⟩
    · exact hListing.root_unlisted _ hq
    · obtain rfl := hListing.same_parent ((hListing.mem_remove_iff hSplit).mp hMem).1 hq
      exact not_at_removed hListing hSplit hc

theorem Steady.unlink_iff (h : Steady P s L) (name : List UInt8) :
    RemovesOne P (dandelionUnlink P name) name s L ↔ Unlinkable s.memory L name := by
  constructor
  · intro hOne
    have hOne' := hOne
    obtain ⟨r, s', hRun, _⟩ := hOne'
    obtain ⟨hShort, hReturns⟩ := (h.unlink_returns name).result hRun
    refine ⟨hShort, fun hp => ?_⟩
    obtain ⟨rfl, hRoot, hOwned⟩ := hReturns hp
    refine ⟨hRoot, hOne.childless h.listing (Rooted.root.walk h.listing hp) fun r₁ s₁ hRun₁ =>
      ?_, hOwned⟩
    rw [hRun, Except.ok.injEq, Prod.mk.injEq] at hRun₁
    exact hRun₁.1.symm
  · rintro ⟨hShort, hGood⟩
    by_cases hp : resolve s.memory L name = 0
    · refine ⟨-(eNOTDIR : Int), s, ?_, Or.inl ⟨by decide, rfl⟩⟩
      rw [dandelionUnlink, bind_ok (findFile_ok h.listing hShort), if_pos hp]
      rfl
    · obtain ⟨hRoot, hEmpty, hOwned⟩ := hGood hp
      rcases (Rooted.root.walk h.listing hp).cases with hEq | ⟨d, _, hMem⟩
      · exact absurd hEq hRoot
      · exact h.removes hShort hMem hEmpty hOwned

theorem Steady.rmdir_iff (h : Steady P s L) (name : List UInt8) :
    RemovesOne P (dandelionRmdir P name) name s L ↔ Rmdirable s.memory L name := by
  constructor
  · rintro ⟨r, s', hRun, _⟩
    have hAll : Ensures (dandelionRmdir P name) s fun _ _ => Rmdirable s.memory L name := by
      rw [dandelionRmdir]
      refine ((ensures_findFile h.listing name).and (ensures_findFile_short name)).bind
        fun p s₁ hFound => ?_
      obtain ⟨⟨rfl, rfl, hRooted⟩, hShort⟩ := hFound
      by_cases hBoth : resolve s₁.memory L name = fsRoot ∧ L fsRoot = []
      · obtain ⟨hRoot, hEmpty⟩ := hBoth
        obtain ⟨f, hf, hType, _⟩ := h.listing.root
        have hLink := (entries_link (h.listing.entries _ f hf hType) hf).mpr hEmpty
        have hp : resolve s₁.memory L name ≠ 0 := by
          rw [hRoot]
          decide
        refine .ite (fun hZero => absurd hZero hp) fun _ => .after (getFileAt_ok hp (hRoot ▸ hf)) ?_
        refine .ite (fun hne => absurd hType hne) fun _ =>
          .ite (fun hne => absurd hLink hne) fun _ => ?_
        exact (h.unlink_returns name).imp fun _ _ hReturns => absurd hRoot (hReturns.2 hp).2.1
      · exact (Meets.any _ _).imp fun _ _ _ => ⟨hShort, hBoth⟩
    exact hAll.result hRun
  · rintro ⟨hShort, hGood⟩
    by_cases hp : resolve s.memory L name = 0
    · refine ⟨-(eNOENT : Int), s, ?_, Or.inl ⟨by decide, rfl⟩⟩
      rw [dandelionRmdir, bind_ok (findFile_ok h.listing hShort), if_pos hp]
      rfl
    · have hRooted := Rooted.root.walk h.listing hp
      obtain ⟨f, hf⟩ := hRooted.live h.listing
      have hRun : dandelionRmdir P name s = (if f.type ≠ .directory then pure (-(eNOTDIR : Int))
          else if f.link ≠ 0 then pure (-(eNOTEMPTY : Int)) else dandelionUnlink P name) s := by
        rw [dandelionRmdir, bind_ok (findFile_ok h.listing hShort), if_neg hp,
          bind_ok (getFileAt_ok hp hf)]
      by_cases hType : f.type = .directory
      · have hEntries := h.listing.entries _ f hf hType
        by_cases hLink : f.link = 0
        · have hEmpty := (entries_link hEntries hf).mp hLink
          have hRoot : resolve s.memory L name ≠ fsRoot := fun hEq => hGood ⟨hEq, hEq ▸ hEmpty⟩
          have hOwned : Releasable s.memory (resolve s.memory L name) := fun e he hFile => by
            obtain rfl := Option.mem_unique hf he
            exact absurd (hType.symm.trans hFile) (by decide)
          obtain ⟨r, s', hUnlink, hRest⟩ :=
            (h.unlink_iff name).mpr ⟨hShort, fun _ => ⟨hRoot, hEmpty, hOwned⟩⟩
          refine ⟨r, s', ?_, hRest⟩
          rw [hRun, if_neg (not_not.mpr hType), if_neg (not_not.mpr hLink), hUnlink]
        · refine ⟨-(eNOTEMPTY : Int), s, ?_, Or.inl ⟨by decide, rfl⟩⟩
          rw [hRun, if_neg (not_not.mpr hType), if_pos hLink]
          rfl
      · refine ⟨-(eNOTDIR : Int), s, ?_, Or.inl ⟨by decide, rfl⟩⟩
        rw [hRun, if_pos hType]
        rfl

end Unlink

section Runs

/-- In every state that a run without new hard links reaches, a removal takes one entry
or none exactly if its path is not too long, does not lead to the root or to a
directory with children, and does not release chunks that are not there to be released. -/
theorem removes_one_iff {x : Session} (hP : P.Linkable)
    (hx : Reachable (Started P) (Proceeds P) x) :
    ∃ L, Listing P x.state.memory L ∧ ∀ name,
      (RemovesOne P (dandelionUnlink P name) name x.state L ↔ Unlinkable x.state.memory L name) ∧
      (RemovesOne P (dandelionRmdir P name) name x.state L ↔ Rmdirable x.state.memory L name) := by
  obtain ⟨L, hSteady⟩ := steady_of_reachable hP hx
  exact ⟨L, hSteady.listing, fun name => ⟨hSteady.unlink_iff name, hSteady.rmdir_iff name⟩⟩

def stdoutPath : List UInt8 := slash :: stdioName ++ slash :: stdoutName

/-- The open file `stdio/stdout` can be unlinked. -/
theorem removes_one_stdout : ∃ x L, Reachable (Started (.bump 0)) (Proceeds (.bump 0)) x ∧
    Listing (.bump 0) x.state.memory L ∧
    RemovesOne (.bump 0) (dandelionUnlink (.bump 0) stdoutPath) stdoutPath x.state L := by
  obtain ⟨x, hx, hTest⟩ := exists_of_bareRun (P := .bump 0) []
    (fun x => passes (findFile (.bump 0) stdoutPath x.state) fun r =>
      r.1 != fsRoot && (x.state.memory.files r.1).any fun f =>
        f.type = .file && f.openDescriptors != 0)
    (by decide +kernel)
  obtain ⟨L, hListing, hIff⟩ := removes_one_iff linkable_bump (proceeds_of_completes hx)
  refine ⟨x, L, proceeds_of_completes hx, hListing,
    (hIff stdoutPath).1.mpr ⟨by decide, fun _ => ?_⟩⟩
  rw [findFile_ok hListing (by decide), passes, Bool.and_eq_true, bne_iff_ne] at hTest
  obtain ⟨hRoot, hNode⟩ := hTest
  obtain ⟨f, hf, hBoth⟩ := (Option.any_eq_true _ _).mp hNode
  rw [Bool.and_eq_true, decide_eq_true_eq, bne_iff_ne] at hBoth
  refine ⟨hRoot, List.eq_nil_iff_forall_not_mem.mpr fun q hq => ?_, fun e he _ _ hClosed => ?_⟩
  · obtain ⟨e, he, hDir⟩ := hListing.directory hq
    obtain rfl := Option.mem_unique hf he
    exact absurd (hBoth.1.symm.trans hDir) (by decide)
  · obtain rfl := Option.mem_unique hf he
    exact absurd hClosed hBoth.2

/-- After `fs_initialize`, unlinking the root follows its null parent, and unlinking
`stdio` takes the standard streams away with it. -/
theorem removes_one_fails : ∃ x L, Reachable (Started (.bump 0)) (Proceeds (.bump 0)) x ∧
    Listing (.bump 0) x.state.memory L ∧
    ¬ RemovesOne (.bump 0) (dandelionUnlink (.bump 0) [slash]) [slash] x.state L ∧
    ¬ RemovesOne (.bump 0) (dandelionUnlink (.bump 0) stdioName) stdioName x.state L := by
  obtain ⟨x, hx, hTest⟩ := exists_of_bareRun (P := .bump 0) []
    (fun x => faults (dandelionUnlink (.bump 0) [slash] x.state) (fun _ => true) &&
      passes (findFile (.bump 0) stdioName x.state) fun r =>
        (x.state.memory.files r.1).any fun f => f.type = .directory && f.link != 0)
          (by decide +kernel)
  rw [Bool.and_eq_true] at hTest
  obtain ⟨hRoot, hStdio⟩ := hTest
  obtain ⟨L, hSteady⟩ := steady_of_reachable linkable_bump (proceeds_of_completes hx)
  refine ⟨x, L, proceeds_of_completes hx, hSteady.listing, ?_, fun hOne => ?_⟩
  · rintro ⟨r, s', hRun, _⟩
    rw [hRun] at hRoot
    cases hRoot
  · rw [findFile_ok hSteady.listing (by decide)] at hStdio
    obtain ⟨f, hf, hBoth⟩ := (Option.any_eq_true _ _).mp hStdio
    rw [Bool.and_eq_true, decide_eq_true_eq, bne_iff_ne] at hBoth
    obtain ⟨_, hGood⟩ := (hSteady.unlink_iff stdioName).mp hOne
    have hEntries := hSteady.listing.entries _ f hf hBoth.1
    exact hBoth.2 ((entries_link hEntries hf).mpr (hGood (hSteady.listing.ne_zero hf)).2.1)

end Runs

end Dandelion.FileSystem
