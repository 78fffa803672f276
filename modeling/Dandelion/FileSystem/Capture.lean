import Dandelion.FileSystem.Dense
import Dandelion.FileSystem.Streams

/-! # Capturing output

Every descriptor of a new file or of an output stream has the string that was
written through it so far. Creating a file adds a descriptor with the empty
string, and a write adds to the string of its own descriptor only.
-/

namespace Dandelion.FileSystem

open Foundation.Runs Foundation.Triples

/-- The strings written through the descriptors that are captured. -/
abbrev Written := Nat → Option (List UInt8)

/-- The file of a descriptor holds a string. If the descriptor moves, it stands at the last
chunk. -/
def HoldsString (uses : Nat → Bool) (s : State) (i : Nat) (w : List UInt8) : Prop :=
  ∃ f l, WritableAt s i (s.openFiles i) f ∧ Filed s.memory f.link l ∧ Dense l ∧ flat l = w ∧
    (uses i = false → ∀ x ∈ l.getLast?, (s.openFiles i).currentChunk = x.ptr)

structure Captures (uses : Nat → Bool) (written : Written) (s : State) : Prop where
  orderly : Orderly s.memory
  holds : ∀ i w, written i = some w → HoldsString uses s i w
  apart : ∀ i j, written i ≠ none → written j ≠ none → i ≠ j →
    (s.openFiles i).file ≠ (s.openFiles j).file

structure Captured where
  state : State
  written : Written

inductive Recording
  | create (name : Path) (flags mode : Nat)
  | put (fd : Nat) (bytes : List UInt8) (offset : Int)

/-- The write of a descriptor that is used in one of the two ways. -/
def writeAs (P : Platform) (uses : Nat → Bool) (fd : Nat) (bytes : List UInt8)
    (offset : Int) : M Int :=
  dandelionWrite P fd bytes offset (if uses fd then useOffset else moveOffset)

/-- A non-empty string of less than two to the thirty-one bytes. The offset counts if the descriptor
uses it, and then it is the number of bytes so far, as a number of 64 bits with a sign. -/
def Puts (uses : Nat → Bool) (w bytes : List UInt8) (fd : Nat) (offset : Int) : Prop :=
  bytes ≠ [] ∧ bytes.length < 2 ^ 31 ∧ (uses fd = true → offset = w.length ∧ w.length < 2 ^ 63)

inductive Records (P : Platform) (uses : Nat → Bool) : Captured → Recording → Captured → Prop
  | create {x : Captured} {name : Path} {flags mode fd : Nat} {s' : State} :
      findFile P name x.state = .ok (0, x.state) → flags &&& oACCMODE = oWRONLY →
      hasBit flags oCREAT = true → hasBit flags oAPPEND = false → hasBit flags oTRUNC = false →
      hasBit mode sIWUSR = true → dandelionOpen P name flags mode x.state = .ok ((fd : Int), s') →
      Records P uses x (.create name flags mode) ⟨s', Function.update x.written fd (some [])⟩
  | put {x : Captured} {fd : Nat} {bytes w : List UInt8} {offset r : Int} {s' : State} :
      x.written fd = some w → Puts uses w bytes fd offset →
        writeAs P uses fd bytes offset x.state = .ok (r, s') →
      Records P uses x (.put fd bytes offset) ⟨s', Function.update x.written fd (some (w ++ bytes))⟩

/-- The state that `fs_initialize` leaves without input sets. -/
def StartsRecording (P : Platform) (x : Captured) : Prop :=
  (∃ outputs s a, Boots [] s ∧ fsInitialize P [] outputs s = .ok ((0, a), x.state)) ∧
    x.written = fun i => if i ∈ [1, 2] then some [] else none

variable {P : Platform} {s s' : State} {uses : Nat → Bool} {written : Written}
  {w bytes : List UInt8} {i j fd : Nat} {p : Ptr} {offset : Int} {flags : Nat} {x : Captured}

section Invariant

theorem Blank.captures {fds : List Nat} (h : Blank fds s) :
    Captures uses (fun i => if i ∈ fds then some [] else none) s := by
  have hFiled : ∀ p f, s.memory.files p = some f → f.type = .file → Filed s.memory f.link [] := by
    intro p f hf hType
    rw [h.empty p f hf hType]
    exact .nil
  have hMem : ∀ {i : Nat} {w : List UInt8}, (if i ∈ fds then some [] else none) = some w →
      i ∈ fds ∧ w = [] := by
    intro i w hw
    split at hw
    · next hi => exact ⟨hi, (Option.some.inj hw).symm⟩
    · cases hw
  refine ⟨⟨fun p f hf hType => ⟨[], hFiled p f hf hType⟩, fun p q f g k l _ hf _ hType _ hk _ =>
    ?_⟩, fun i w hw => ?_,
    fun i j hi hj hne => ?_⟩
  · rw [hk.unique (hFiled p f hf hType)]
    exact fun _ hy => absurd hy List.not_mem_nil
  · obtain ⟨hi, rfl⟩ := hMem hw
    obtain ⟨f, hf⟩ := h.opened i hi
    exact ⟨f, [], hf, hFiled _ f hf.node hf.regular, .nil, rfl, fun _ x hx => by cases hx⟩
  · obtain ⟨w, hw⟩ := Option.ne_none_iff_exists'.mp hi
    obtain ⟨w', hw'⟩ := Option.ne_none_iff_exists'.mp hj
    exact h.apart i (hMem hw).1 j (hMem hw').1 hne

theorem Captures.opens (h : Captures uses written s) (hOpens : OpensEmpty s s' fd p flags)
    (hAppend : hasBit flags oAPPEND = false) :
    Captures uses (Function.update written fd (some [])) s' := by
  obtain ⟨f, hNew, hLink, hFile⟩ := hOpens.writable hAppend
  have hOther : ∀ j, written j ≠ none → j ≠ fd ∧ s'.openFiles j = s.openFiles j ∧
      (s.openFiles j).file ≠ p := by
    intro j hj
    obtain ⟨w, hw⟩ := Option.ne_none_iff_exists'.mp hj
    obtain ⟨e, l, he, -⟩ := h.holds j w hw
    exact hOpens.other he
  refine ⟨hOpens.keeps.orderly h.orderly, fun i w hw => ?_, fun i j hi hj hne => ?_⟩
  · by_cases hEq : i = fd
    · subst hEq
      rw [Function.update_self] at hw
      obtain rfl := Option.some.inj hw
      exact ⟨f, [], hNew, hLink ▸ .nil, .nil, rfl, fun _ x hx => by cases hx⟩
    · rw [Function.update_of_ne hEq] at hw
      obtain ⟨e, l, he, hl, hDense, hFlat, hLast⟩ := h.holds i w hw
      have hTable := (hOther i (by rw [hw]; simp)).2.1
      obtain ⟨e', he', hLink'⟩ := he.keep hTable hOpens.keeps
      exact ⟨e', l, he', hLink' ▸ hOpens.keeps.filed hl, hDense, hFlat, by rw [hTable]; exact hLast⟩
  · by_cases hi' : i = fd
    · subst hi'
      rw [Function.update_of_ne hne.symm] at hj
      rw [hFile, (hOther j hj).2.1]
      exact (hOther j hj).2.2.symm
    · rw [Function.update_of_ne hi'] at hi
      rw [(hOther i hi).2.1]
      by_cases hj' : j = fd
      · subst hj'
        rw [hFile]
        exact (hOther i hi).2.2
      · rw [Function.update_of_ne hj'] at hj
        rw [(hOther j hj).2.1]
        exact h.apart i j hi hj hne

theorem Captures.put (h : Captures uses written s) (hGrants : P.Grants) (hw : written fd = some w)
    (hPuts : Puts uses w bytes fd offset) :
    ∃ s', writeAs P uses fd bytes offset s = .ok ((bytes.length : Int), s') ∧
      Captures uses (Function.update written fd (some (w ++ bytes))) s' := by
  obtain ⟨hne, hLen, hOffset⟩ := hPuts
  obtain ⟨f, l, hf, hl, hDense, rfl, hLast⟩ := h.holds fd w hw
  obtain ⟨l', link, current, inside, s', hRun, hTable, hFiles, hl', hChanges, -, hDense', hFlat,
      hLast'⟩ :=
    dandelionWrite_grows hGrants hf hl hDense hne hLen hOffset hLast
  have hEntry : s'.openFiles fd =
      { s.openFiles fd with currentChunk := current, offset := inside } := by
    rw [hTable]
    exact Function.update_self _ _ _
  have hOtherEntry : ∀ j, j ≠ fd → s'.openFiles j = s.openFiles j := by
    intro j hj
    rw [hTable]
    exact Function.update_of_ne hj _ _
  have hSameFile : ∀ j, (s'.openFiles j).file = (s.openFiles j).file := by
    intro j
    by_cases hj : j = fd
    · rw [hj, hEntry]
    · rw [hOtherEntry j hj]
  have hNode : s'.memory.files (s.openFiles fd).file = some { f with link := link } := by
    rw [hFiles, Function.update_self]
  have hOtherNode : ∀ q, q ≠ (s.openFiles fd).file → s'.memory.files q = s.memory.files q := by
    intro q hq
    rw [hFiles, Function.update_of_ne hq]
  refine ⟨s', hRun, ?_, fun i w' hw' => ?_, fun i j hi hj hij => ?_⟩
  · refine h.orderly.of_changes hf.node hf.regular hl hChanges hNode hl' fun q hq g hg hType => ?_
    rw [hOtherNode q hq] at hg
    exact ⟨g, hg, hType, rfl⟩
  · by_cases hi : i = fd
    · subst hi
      rw [Function.update_self] at hw'
      obtain rfl := Option.some.inj hw'
      rw [HoldsString, hEntry]
      exact ⟨_, l', ⟨hf.range, hEntry, hf.opened, hNode, hf.regular, hf.access⟩, hl', hDense',
        hFlat, hLast'⟩
    · rw [Function.update_of_ne hi] at hw'
      obtain ⟨e, k, he, hk, hDenseK, hFlatK, hLastK⟩ := h.holds i w' hw'
      have hApart := h.apart i fd (by rw [hw']; simp) (by rw [hw]; simp) hi
      have hClear := h.orderly.clear _ _ e f k l hApart he.node hf.node he.regular hf.regular hk hl
      rw [HoldsString, hOtherEntry i hi]
      refine ⟨e, k, ⟨he.range, hOtherEntry i hi, he.opened, ?_, he.regular, he.access⟩,
        (hChanges.frame hk hClear).1, hDenseK, hFlatK, hLastK⟩
      rw [hOtherNode _ hApart, he.node]
  · have hOld : ∀ k, Function.update written fd (some (flat l ++ bytes)) k ≠ none →
        written k ≠ none := by
      intro k hk
      by_cases hEq : k = fd
      · rw [hEq, hw]
        simp
      · rwa [Function.update_of_ne hEq] at hk
    rw [hSameFile i, hSameFile j]
    exact h.apart i j (hOld i hi) (hOld j hj) hij

end Invariant

section Law

theorem captures_of_reachable (hGrants : P.Grants)
    (h : Reachable (StartsRecording P) (Records P uses) x) :
    Captures uses x.written x.state := by
  refine h.invariant (fun x => Captures uses x.written x.state) (fun x hStart => ?_)
    fun x q y hCaptures hStep => ?_
  · obtain ⟨⟨outputs, s, a, hBoots, hRun⟩, hWritten⟩ := hStart
    rw [hWritten]
    exact ((fsInitialize_blank hBoots).result hRun rfl).captures
  · cases hStep with
    | create hAbsent _ _ hAppend hTrunc _ hOpen =>
      obtain ⟨p, hOpens⟩ := dandelionOpen_creates hAbsent hTrunc hOpen (Int.natCast_nonneg _)
      exact hCaptures.opens hOpens hAppend
    | put hw hPuts hRun =>
      obtain ⟨s', hOk, hAfter⟩ := hCaptures.put hGrants hw hPuts
      cases hRun.symm.trans hOk
      exact hAfter

def contentOf (s : State) (fd : Nat) : Option (List UInt8) :=
  (s.memory.files (s.openFiles fd).file).bind fun f => content s.memory f.link

theorem HoldsString.contentOf_eq (h : HoldsString uses s i w) : contentOf s i = some w := by
  obtain ⟨f, l, hf, hl, -, rfl, -⟩ := h
  rw [contentOf, hf.node, Option.bind_some, hl.stored.content_eq]

/-- In every run, each file holds the strings written through its descriptor, and the next write
through any descriptor ends and returns its length. -/
theorem output_captured (hGrants : P.Grants) (h : Reachable (StartsRecording P) (Records P uses) x)
    (hw : x.written fd = some w) :
    contentOf x.state fd = some w ∧ ∀ bytes offset, Puts uses w bytes fd offset →
      ∃ s', writeAs P uses fd bytes offset x.state = .ok ((bytes.length : Int), s') := by
  have hCaptures := captures_of_reachable hGrants h
  refine ⟨(hCaptures.holds fd w hw).contentOf_eq, fun bytes offset hPuts => ?_⟩
  obtain ⟨s', hRun, -⟩ := hCaptures.put hGrants hw hPuts
  exact ⟨s', hRun⟩

/-- A file is created, two bytes are written to it and one to the standard output. -/
theorem output_captured_short :
    ∃ x, Reachable (StartsRecording (.bump 0)) (Records (.bump 0) fun fd => fd == 3) x ∧
    x.written 3 = some [1, 2] ∧ x.written 1 = some [7] ∧ contentOf x.state 3 = some [1, 2] := by
  have hGrants := grants_bump 0
  obtain ⟨y, hy, hTest⟩ := exists_of_bareRunIf (P := .bump 0)
    (fun y => StartsRecording (.bump 0) ⟨y.state, fun i => if i ∈ [1, 2] then some [] else none⟩)
      (fun _ _ _ => False)
    (fun _ _ => false) []
    (fun y => (passes (findFile (.bump 0) [97] y.state) fun a => a.1 == 0) &&
      passes (dandelionOpen (.bump 0) [97] (oWRONLY ||| oCREAT) sIRWXU y.state) fun a => a.1 == 3)
    (fun s a hInit => ⟨⟨[], bareState, a, boots_bareState, hInit⟩, rfl⟩)
      (fun _ _ _ _ h => by cases h)
    (by decide +kernel)
  obtain hStart | ⟨-, hNever⟩ := hy
  · rw [Bool.and_eq_true] at hTest
    obtain ⟨⟨found, s⟩, hFind, hZero⟩ := exists_of_passes hTest.1
    obtain ⟨⟨fd, s₁⟩, hOpen, hThree⟩ := exists_of_passes hTest.2
    obtain rfl : found = 0 := beq_iff_eq.mp hZero
    obtain rfl : fd = 3 := beq_iff_eq.mp hThree
    obtain rfl : s = y.state := (readsOnly_findFile [97] y.state).result hFind
    have hCreate :
        Records (.bump 0) (fun fd => fd == 3) ⟨y.state, _⟩
          (.create [97] (oWRONLY ||| oCREAT) sIRWXU)
        ⟨s₁, Function.update (fun i => if i ∈ [1, 2] then some [] else none) 3 (some [])⟩ :=
      .create hFind (by decide) (by decide) (by decide) (by decide) (by decide) hOpen
    have h₁ := Reachable.step (.init hStart) hCreate
    have hPuts : Puts (fun fd => fd == 3) [] [1, 2] 3 0 :=
      ⟨by decide, by decide, fun _ => ⟨rfl, by decide⟩⟩
    obtain ⟨s₂, hRun, -⟩ := (captures_of_reachable hGrants h₁).put hGrants rfl hPuts
    have h₂ := h₁.step (.put rfl hPuts hRun)
    have hPuts' : Puts (fun fd => fd == 3) [] [7] 1 0 := ⟨by decide, by decide, fun h => by cases h⟩
    obtain ⟨s₃, hRun', -⟩ := (captures_of_reachable hGrants h₂).put hGrants rfl hPuts'
    have h₃ := h₂.step (.put rfl hPuts' hRun')
    exact ⟨_, h₃, rfl, rfl, (output_captured hGrants h₃ rfl).1⟩
  · exact hNever.elim

end Law

end Dandelion.FileSystem
