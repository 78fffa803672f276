import Dandelion.FileSystem.MakeDirectory
import Dandelion.FileSystem.SteadyCalls

/-! # Directory streams

A stream is a directory and the number of entries it has returned. The next
entry is found by counting from the front of the list, so a stream goes on with
the right entry as long as what it has returned stays the front of the list.
-/

namespace Dandelion.FileSystem

open Foundation.Chains Foundation.Triples

def dtREG : Nat := 1

def dtDIR : Nat := 2

/-- `struct dirent` as `dandelion_readdir` fills it; the last byte of the name is left as it was. -/
structure Dirent where
  dOff : Nat
  dIno : Nat
  dType : Nat
  dName : List UInt8
  deriving DecidableEq

def skipChildren : Nat → Nat → Ptr → M (Ptr × Nat)
  | 0, index, currentChild => pure (currentChild, index)
  | remaining + 1, index, currentChild =>
    if currentChild = 0 then pure (currentChild, index)
    else do
      let f ← getFileAt currentChild
      skipChildren remaining (index + 1) f.next

/-- The result, the next index of the stream and the entry. -/
def dandelionReaddir (dir : Ptr) (child : Nat) : M (Int × Nat × Option Dirent) := do
  let d ← getFileAt dir
  let (currentChild, index) ← skipChildren child 0 d.link
  if currentChild = 0 then
    if index ≠ child then pure (-(eNOENT : Int), child, none) else pure (-1, child, none)
  else do
    let f ← getFileAt currentChild
    let maxNameLength := min 256 fsNameLength
    pure (0, child + 1, some
      { dOff := index
        dIno := 0
        dType := if f.type = .file then dtREG else dtDIR
        dName := f.name.take (maxNameLength - 1) })

def entriesAt (m : Memory) (d : Ptr) : List Ptr :=
  (follow (nextNode m) (m.limit + 1) (((m.files d).map (·.link)).getD 0)).getD []

variable {P : Platform} {s s' : State} {m : Memory} {L : Ptr → List Ptr} {d p q : Ptr}
  {l : List Ptr} {e f : DFile}

section Reading

theorem entriesAt_eq (h : Listing P m L) (hd : isDirectory m d = true) : entriesAt m d = L d := by
  obtain ⟨f, hf, hType⟩ := isDirectory_iff.mp hd
  obtain ⟨-, e, he, -, hChain⟩ := h.entries d f hf hType
  obtain rfl := Option.mem_unique hf he
  have hLength : (L d).length ≤ m.limit + 1 := by
    refine Nat.le_succ_of_le (hChain.length_le fun q hq => ?_)
    obtain ⟨g, hg, -⟩ := h.live hq
    by_contra hNot
    rw [(m.bounded q (Nat.not_lt.mp hNot)).1] at hg
    cases hg
  rw [entriesAt, hf, Option.map_some, Option.getD_some, hChain.follow_eq hLength, Option.getD_some]

theorem skipChildren_ok (hChain : Chain (nextNode s.memory) p l) (remaining index : Nat) :
    skipChildren remaining index p s =
      .ok (((l.drop remaining).headD 0, index + min remaining l.length), s) := by
  induction remaining generalizing p l index with
  | zero =>
    rw [skipChildren, hChain.head_eq, Nat.zero_min]
    rfl
  | succ remaining ih =>
    rw [skipChildren]
    cases l with
    | nil =>
      rw [if_pos (show p = 0 from hChain), show p = 0 from hChain]
      rfl
    | cons q l =>
      obtain ⟨rfl, hp, r, hNext, hRest⟩ := hChain
      obtain ⟨f, hf, rfl⟩ := Option.map_eq_some_iff.mp hNext
      rw [if_neg hp, bind_ok (getFileAt_ok hp hf), ih hRest, List.drop_succ_cons, List.length_cons,
        Nat.succ_min_succ, Nat.add_assoc, Nat.add_comm 1]

theorem dandelionReaddir_entry (h : Listing P s.memory L) (hd : isDirectory s.memory d = true)
    {child : Nat} (hp : (L d)[child]? = some p) (hf : s.memory.files p = some f) :
    dandelionReaddir d child s = .ok ((0, child + 1, some
      ⟨child, 0, if f.type = .file then dtREG else dtDIR, f.name.take (min 256 fsNameLength - 1)⟩),
        s) := by
  obtain ⟨e, he, hType⟩ := isDirectory_iff.mp hd
  obtain ⟨hne, e', he', -, hChain⟩ := h.entries d e he hType
  obtain rfl := Option.mem_unique he he'
  obtain ⟨hLt, hAt⟩ := List.getElem?_eq_some_iff.mp hp
  have hHead : ((L d).drop child).headD 0 = p := by
    rw [List.drop_eq_getElem_cons hLt, List.headD_cons, hAt]
  rw [dandelionReaddir, bind_ok (getFileAt_ok hne he), bind_ok (skipChildren_ok hChain child 0),
    hHead, Nat.min_eq_left (Nat.le_of_lt hLt), Nat.zero_add]
  dsimp only
  rw [if_neg (h.ne_zero hf), bind_ok (getFileAt_ok (h.ne_zero hf) hf)]
  rfl

theorem dandelionReaddir_end (h : Listing P s.memory L) (hd : isDirectory s.memory d = true)
    {child : Nat} (hEnd : (L d).length ≤ child) :
    ∃ r : Int, dandelionReaddir d child s = .ok ((r, child, none), s) := by
  obtain ⟨e, he, hType⟩ := isDirectory_iff.mp hd
  obtain ⟨hne, e', he', -, hChain⟩ := h.entries d e he hType
  obtain rfl := Option.mem_unique he he'
  rw [dandelionReaddir, bind_ok (getFileAt_ok hne he), bind_ok (skipChildren_ok hChain child 0),
    List.drop_eq_nil_of_le hEnd]
  dsimp only
  rw [if_pos (show ([] : List Ptr).headD 0 = 0 from rfl)]
  split
  · exact ⟨_, rfl⟩
  · exact ⟨_, rfl⟩

theorem dandelionReaddir_none (h : Listing P s.memory L) (hd : isDirectory s.memory d = true)
    {child next : Nat} {r : Int} (hRun : dandelionReaddir d child s = .ok ((r, next, none), s')) :
    (L d).length ≤ child := by
  by_contra hNot
  have hAt := List.getElem?_eq_getElem (Nat.not_le.mp hNot)
  obtain ⟨f, hf, -⟩ := h.live (List.mem_of_getElem? hAt)
  rw [dandelionReaddir_entry h hd hAt hf] at hRun
  cases hRun

end Reading

end Dandelion.FileSystem
