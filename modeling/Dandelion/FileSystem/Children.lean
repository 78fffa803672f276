import Dandelion.Foundation.Chains
import Dandelion.FileSystem.NameOrder
import Dandelion.FileSystem.Rules
import Dandelion.FileSystem.Calls

/-! # Child lists

The nodes of a directory form a list through their `next` pointers. Linking puts
a node where its name belongs, taking a node out closes the gap, and a search
may stop at the first greater name because the list is in order.
-/

namespace Dandelion.FileSystem

open Foundation.Chains Foundation.Triples

def nextNode (m : Memory) (p : Ptr) : Option Ptr := (m.files p).map (·.next)

def nameOf (m : Memory) (p : Ptr) : List UInt8 := ((m.files p).map (·.name)).getD []

def keyOf (P : Platform) (m : Memory) (p : Ptr) : List Int :=
  nameKey P.signedChar (nameOf m p) fsNameLength

/-- The children of a directory, in the order of its list. -/
def Entries (m : Memory) (d : Ptr) (l : List Ptr) : Prop :=
  d ≠ 0 ∧ ∃ f, m.files d = some f ∧ f.type = .directory ∧ Chain (nextNode m) f.link l

def Sorted (P : Platform) (m : Memory) (l : List Ptr) : Prop :=
  l.Pairwise fun p q => keyOf P m p ≤ keyOf P m q

structure Edits (s s' : State) (g : Ptr → DFile → DFile) : Prop where
  files : ∀ q, s'.memory.files q = (s.memory.files q).map (g q)
  chunks : s'.memory.chunks = s.memory.chunks
  blocks : s'.memory.blocks = s.memory.blocks
  openFiles : s'.openFiles = s.openFiles
  requests : s'.requests = s.requests

def editAt (p : Ptr) (g : DFile → DFile) (q : Ptr) (f : DFile) : DFile := if q = p then g f else f

variable {P : Platform} {s s' s'' : State} {m : Memory} {d p q x : Ptr} {a b l : List Ptr}
  {e f : DFile}

section Editing

variable {g g' : Ptr → DFile → DFile}

theorem Edits.trans (h : Edits s s' g) (h' : Edits s' s'' g') :
    Edits s s'' fun q f => g' q (g q f) where
  files q := by rw [h'.files, h.files, Option.map_map]; rfl
  chunks := h'.chunks.trans h.chunks
  blocks := h'.blocks.trans h.blocks
  openFiles := h'.openFiles.trans h.openFiles
  requests := h'.requests.trans h.requests

theorem Edits.congr (h : Edits s s' g) (hEq : ∀ q f, g q f = g' q f) : Edits s s' g' := by
  have : g = g' := funext fun q => funext fun f => hEq q f
  exact this ▸ h

theorem Edits.file (h : Edits s s' g) (hf : s.memory.files q = some f) :
    s'.memory.files q = some (g q f) := by
  rw [h.files, hf, Option.map_some]

theorem Edits.nameOf_eq (h : Edits s s' g) (hName : ∀ q f, (g q f).name = f.name) (q : Ptr) :
    nameOf s'.memory q = nameOf s.memory q := by
  rw [nameOf, nameOf, h.files, Option.map_map]
  congr 2
  funext f
  exact hName q f

theorem Edits.keyOf_eq (h : Edits s s' g) (hName : ∀ q f, (g q f).name = f.name) (q : Ptr) :
    keyOf P s'.memory q = keyOf P s.memory q := by
  rw [keyOf, keyOf, h.nameOf_eq hName]

theorem Edits.nextNode_eq (h : Edits s s' g) (hNext : ∀ f, (g q f).next = f.next) :
    nextNode s'.memory q = nextNode s.memory q := by
  rw [nextNode, nextNode, h.files, Option.map_map]
  congr 1
  funext f
  exact hNext f

theorem modifyFile_edits (g : DFile → DFile) (hp : p ≠ 0) (hf : s.memory.files p = some f) :
    ∃ s', modifyFile p g s = .ok ((), s') ∧ Edits s s' (editAt p g) := by
  refine ⟨_, modifyFile_ok hp hf, fun q => ?_, rfl, rfl, rfl, rfl⟩
  change Function.update s.memory.files p (some (g f)) q = (s.memory.files q).map (editAt p g q)
  by_cases hq : q = p
  · subst hq
    rw [Function.update_self, hf, Option.map_some, editAt, if_pos rfl]
  · rw [Function.update_of_ne hq]
    have hId : editAt p g q = id := funext fun f => if_neg hq
    rw [hId, Option.map_id_fun, id]

end Editing

section Lists

theorem nextNode_of (hf : m.files p = some f) : nextNode m p = some f.next := by
  rw [nextNode, hf, Option.map_some]

theorem nameOf_of (hf : m.files p = some f) : nameOf m p = f.name := by
  rw [nameOf, hf, Option.map_some, Option.getD_some]

theorem lt_limit (hf : m.files p = some f) : p < m.limit := by
  by_contra h
  have hNone := (m.bounded p (Nat.le_of_not_lt h)).1
  rw [hf] at hNone
  cases hNone

theorem file_of_nextNode {r : Ptr} (h : nextNode m p = some r) :
    ∃ f, m.files p = some f ∧ f.next = r :=
  Option.map_eq_some_iff.mp h

theorem Chain.live (h : Chain (nextNode m) p l) (hq : q ∈ l) : ∃ f, m.files q = some f := by
  obtain ⟨r, hr⟩ := Segment.defined h hq
  obtain ⟨f, hf, _⟩ := file_of_nextNode hr
  exact ⟨f, hf⟩

theorem Chain.length_le_limit (h : Chain (nextNode m) p l) : l.length ≤ m.limit := by
  refine Chain.length_le h fun q hq => ?_
  obtain ⟨f, hf⟩ := Chain.live h hq
  exact lt_limit hf

theorem Entries.unique {k : List Ptr} (h : Entries m d l) (h' : Entries m d k) : l = k := by
  obtain ⟨_, f, hf, _, hChain⟩ := h
  obtain ⟨_, f', hf', _, hChain'⟩ := h'
  obtain rfl := Option.mem_unique hf hf'
  exact Chain.unique hChain hChain'

theorem Sorted.insert (h : Sorted P m (a ++ b)) (hBefore : ∀ q ∈ a, ¬ keyOf P m p < keyOf P m q)
    (hAfter : ∀ q ∈ b.head?, keyOf P m p < keyOf P m q) : Sorted P m (a ++ p :: b) := by
  obtain ⟨ha, hb, hab⟩ := List.pairwise_append.mp h
  have hRest : ∀ q ∈ b, keyOf P m p ≤ keyOf P m q := by
    cases b with
    | nil => exact fun q hq => absurd hq List.not_mem_nil
    | cons c b =>
      have hc := (hAfter c rfl).le
      intro q hq
      rcases List.mem_cons.mp hq with rfl | hq
      · exact hc
      · exact hc.trans (List.rel_of_pairwise_cons hb hq)
  refine List.pairwise_append.mpr ⟨ha, List.pairwise_cons.mpr ⟨hRest, hb⟩, fun q hq r hr => ?_⟩
  rcases List.mem_cons.mp hr with rfl | hr
  · exact not_lt.mp (hBefore q hq)
  · exact hab q hq r hr

theorem Sorted.remove (h : Sorted P m (a ++ p :: b)) : Sorted P m (a ++ b) :=
  h.sublist (List.Sublist.append_left (List.sublist_cons_self p b) a)

end Lists

section Searching

def lookupIn (m : Memory) (name : Path) (l : List Ptr) : Ptr :=
  (l.find? fun q => trim (nameOf m q) fsNameLength = trim name name.length).getD 0

theorem scanChildren_ok {name : Path} {fuel : Nat} (hChain : Chain (nextNode s.memory) p l)
    (hSorted : Sorted P s.memory l) (hFuel : l.length < fuel) :
    scanChildren P name fuel p s = .ok (lookupIn s.memory name l, s) := by
  induction l generalizing p fuel with
  | nil =>
    obtain ⟨n, rfl⟩ := Nat.exists_eq_add_one.mpr hFuel
    rw [scanChildren, if_pos (show p = 0 from hChain)]
    rfl
  | cons q l ih =>
    obtain ⟨n, rfl⟩ := Nat.exists_eq_add_one.mpr (Nat.zero_lt_of_lt hFuel)
    obtain ⟨rfl, hp, r, hNext, hRest⟩ := hChain
    obtain ⟨f, hf, rfl⟩ := file_of_nextNode hNext
    obtain ⟨hLe, hSorted⟩ := List.pairwise_cons.mp hSorted
    have hName : keyOf P s.memory p = nameKey P.signedChar f.name fsNameLength := by
      rw [keyOf, nameOf_of hf]
    rw [scanChildren, if_neg hp, bind_ok (getFileAt_ok hp hf), lookupIn, List.find?_cons,
      nameOf_of hf]
    by_cases hSame : trim f.name fsNameLength = trim name name.length
    · rw [if_pos (namecmp_eq_zero_iff.mpr hSame), decide_eq_true hSame]
      rfl
    · rw [if_neg (fun h => hSame (namecmp_eq_zero_iff.mp h)), decide_eq_false hSame]
      by_cases hGreater : namecmp P.signedChar f.name fsNameLength name name.length > 0
      · -- all later names are greater as well
        have hNone :
            l.find? (fun q => trim (nameOf s.memory q) fsNameLength = trim name name.length) =
              none := by
          refine List.find?_eq_none.mpr fun q hq hEq => ?_
          have hKey : keyOf P s.memory q = nameKey P.signedChar name name.length :=
            nameKey_eq_iff.mpr (of_decide_eq_true hEq)
          have hGt := namecmp_pos_iff.mp hGreater
          rw [← hName, ← hKey] at hGt
          exact absurd (hLe q hq) (not_le.mpr hGt)
        rw [if_pos hGreater]
        simp only [hNone]
        rfl
      · rw [if_neg hGreater]
        exact ih hRest hSorted (Nat.lt_of_succ_lt_succ hFuel)

theorem findFileInDir_ok {name : Path} (hEntries : Entries s.memory d l)
    (hSorted : Sorted P s.memory l) (hDot : name ≠ [dot]) (hDots : name ≠ [dot, dot]) :
    findFileInDir P d name s = .ok (lookupIn s.memory name l, s) := by
  obtain ⟨hd, f, hf, _, hChain⟩ := hEntries
  rw [findFileInDir, if_neg hDot, if_neg hDots, bind_ok (getFileAt_ok hd hf), bind_ok steps_ok]
  exact scanChildren_ok hChain hSorted (Nat.lt_succ_of_le (Chain.length_le_limit hChain))

end Searching

section Linking

def linked (d p : Ptr) (a b : List Ptr) (q : Ptr) (f : DFile) : DFile :=
  { f with
    parent := if q = p then d else f.parent
    hardLinks := if q = p then (f.hardLinks + 1) % 2 ^ 16 else f.hardLinks
    next := if q = p then b.headD 0 else if a.getLast? = some q then p else f.next
    link := if q = d ∧ a = [] then p else f.link }

theorem insertionPoint_ok (name : List UInt8) {fuel : Nat}
    (hChain : Chain (nextNode s.memory) p (p :: l)) (hFuel : l.length < fuel)
    (hFirst : ¬ namecmp P.signedChar name fsNameLength (nameOf s.memory p) fsNameLength < 0) :
    ∃ a x b, p :: l = a ++ x :: b ∧
      (∀ q ∈ a ++ [x], ¬ namecmp P.signedChar name fsNameLength (nameOf s.memory q) fsNameLength <
        0) ∧
      (∀ q ∈ b.head?, namecmp P.signedChar name fsNameLength (nameOf s.memory q) fsNameLength < 0) ∧
      insertionPoint P name fuel p s = .ok (x, s) := by
  induction l generalizing p fuel with
  | nil =>
    obtain ⟨n, rfl⟩ := Nat.exists_eq_add_one.mpr hFuel
    obtain ⟨_, hp, r, hNext, hEnd⟩ := hChain
    obtain ⟨f, hf, rfl⟩ := file_of_nextNode hNext
    refine ⟨[], p, [], rfl, fun q hq => ?_, fun q hq => absurd hq (by simp), ?_⟩
    · rwa [List.mem_singleton.mp hq]
    · rw [insertionPoint, bind_ok (getFileAt_ok hp hf), if_pos (show f.next = 0 from hEnd)]
      rfl
  | cons c l ih =>
    obtain ⟨n, rfl⟩ := Nat.exists_eq_add_one.mpr (Nat.zero_lt_of_lt hFuel)
    obtain ⟨_, hp, r, hNext, hRest⟩ := hChain
    obtain ⟨f, hf, rfl⟩ := file_of_nextNode hNext
    obtain ⟨rfl, hc, r, hNext', hRest'⟩ := hRest
    obtain ⟨g, hg, rfl⟩ := file_of_nextNode hNext'
    rw [insertionPoint, bind_ok (getFileAt_ok hp hf), if_neg hc, bind_ok (getFileAt_ok hc hg)]
    by_cases hLess : namecmp P.signedChar name fsNameLength g.name fsNameLength < 0
    · refine ⟨[], p, f.next :: l, rfl, fun q hq => ?_, fun q hq => ?_, by rw [if_pos hLess]; rfl⟩
      · rwa [List.mem_singleton.mp hq]
      · obtain rfl := Option.some.inj hq
        rwa [nameOf_of hg]
    · obtain ⟨a, x, b, hSplit, hBefore, hAfter, hRun⟩ :=
        ih (p := f.next) ⟨rfl, hc, g.next, hNext', hRest'⟩ (Nat.lt_of_succ_lt_succ hFuel)
          (by rwa [nameOf_of hg])
      refine ⟨p :: a, x, b, by rw [hSplit, List.cons_append], fun q hq => ?_,
        hAfter, by rw [if_neg hLess, hRun]⟩
      rcases List.mem_cons.mp hq with rfl | hq
      · exact hFirst
      · exact hBefore q hq

theorem linkFileToFolder_ok (hEntries : Entries s.memory d l) (hp : p ≠ 0)
    (hf : s.memory.files p = some f) (hNew : p ∉ l) :
    ∃ s' a b, linkFileToFolder P d p s = .ok (0, s') ∧ l = a ++ b ∧ Edits s s' (linked d p a b) ∧
      (∀ q ∈ a, ¬ keyOf P s.memory p < keyOf P s.memory q) ∧
      (∀ q ∈ b.head?, keyOf P s.memory p < keyOf P s.memory q) := by
  obtain ⟨hd, e, he, hDir, hChain⟩ := hEntries
  obtain ⟨s₁, hRun₁, hEdit₁⟩ := modifyFile_edits
    (fun f => { f with parent := d, hardLinks := (f.hardLinks + 1) % 2 ^ 16 }) hp hf
  have hKey : ∀ q, nameOf s₁.memory q = nameOf s.memory q :=
    hEdit₁.nameOf_eq fun q f => by unfold editAt; split <;> rfl
  have hNext : ∀ q, nextNode s₁.memory q = nextNode s.memory q := fun q =>
    hEdit₁.nextNode_eq fun f => by unfold editAt; split <;> rfl
  have he₁ := hEdit₁.file he
  have hf₁ := hEdit₁.file hf
  have hLink :
      (editAt p (fun f => { f with parent := d, hardLinks := (f.hardLinks + 1) % 2 ^ 16 })
        d e).link =
      e.link := by unfold editAt; split <;> rfl
  have hName :
      (editAt p (fun f => { f with parent := d, hardLinks := (f.hardLinks + 1) % 2 ^ 16 })
        p f).name =
      nameOf s.memory p := by rw [nameOf_of hf, editAt, if_pos rfl]
  have hChain₁ : Chain (nextNode s₁.memory) e.link l := hChain.congr fun q _ => hNext q
  rw [linkFileToFolder, bind_ok (getFileAt_ok hd he), if_neg (not_not.mpr hDir), bind_ok hRun₁,
    bind_ok (getFileAt_ok hd he₁), hLink]
  cases l with
  | nil =>
    -- the first child
    obtain ⟨s₂, hRun₂, hEdit₂⟩ := modifyFile_edits (fun d => { d with link := p }) hd he₁
    obtain ⟨s₃, hRun₃, hEdit₃⟩ :=
      modifyFile_edits (fun f => { f with next := 0 }) hp (hEdit₂.file hf₁)
    refine ⟨s₃, [], [], ?_, rfl, ((hEdit₁.trans hEdit₂).trans hEdit₃).congr fun q f =>
      ?_, by simp, by simp⟩
    · rw [if_pos (show e.link = 0 from hChain), bind_ok hRun₂, bind_ok hRun₃]
      rfl
    · by_cases hq : q = p <;> by_cases hq' : q = d <;> simp [editAt, linked, hq, hq'] <;> grind
  | cons c l =>
    obtain ⟨hc, hne, r, hNextc, hRest⟩ := hChain₁
    rw [if_neg (hc ▸ hne), bind_ok (getFileAt_ok hp hf₁), hName]
    obtain ⟨g, hg, rfl⟩ := file_of_nextNode hNextc
    rw [hc, bind_ok (getFileAt_ok hne hg), ← nameOf_of hg, hKey]
    by_cases hLess :
      namecmp P.signedChar (nameOf s.memory p) fsNameLength (nameOf s.memory c) fsNameLength < 0
    · obtain ⟨s₂, hRun₂, hEdit₂⟩ := modifyFile_edits (fun f => { f with next := c }) hp hf₁
      obtain ⟨s₃, hRun₃, hEdit₃⟩ :=
        modifyFile_edits (fun d => { d with link := p }) hd (hEdit₂.file he₁)
      refine ⟨s₃, [], c :: l, ?_, rfl, ((hEdit₁.trans hEdit₂).trans hEdit₃).congr fun q f =>
        ?_, by simp,
        fun q hq => ?_⟩
      · rw [if_pos hLess, bind_ok hRun₂, bind_ok hRun₃]
        rfl
      · by_cases hq : q = p <;> by_cases hq' : q = d <;> simp [editAt, linked, hq, hq'] <;> grind
      · obtain rfl := Option.some.inj hq
        exact namecmp_neg_iff.mp hLess
    · have hWhole : Chain (nextNode s₁.memory) c (c :: l) := ⟨rfl, hne, _, hNextc, hRest⟩
      have hFuel := Chain.length_le_limit hWhole
      obtain ⟨a, x, b, hSplit, hBefore, hAfter, hPoint⟩ := insertionPoint_ok (P := P)
        (nameOf s.memory p) hWhole
        (show l.length < s₁.memory.limit + 1 by simp only [List.length_cons] at hFuel; omega)
          (by rwa [hKey])
      simp only [hKey] at hBefore hAfter
      -- the node in front of the gap
      obtain ⟨hx, r, hNextx, hRight⟩ :
          x ≠ 0 ∧ ∃ r, nextNode s₁.memory x = some r ∧ Chain (nextNode s₁.memory) r b := by
        obtain ⟨_, _, _, hx, r, hNextx, hRight⟩ := segment_append.mp (hSplit ▸ hWhole)
        exact ⟨hx, r, hNextx, hRight⟩
      obtain ⟨h, hh, rfl⟩ := file_of_nextNode hNextx
      have hxp : x ≠ p := by
        rintro rfl
        exact hNew (hSplit ▸ by simp)
      obtain ⟨s₂, hRun₂, hEdit₂⟩ := modifyFile_edits (fun f => { f with next := h.next }) hp hf₁
      obtain ⟨s₃, hRun₃, hEdit₃⟩ :=
        modifyFile_edits (fun c => { c with next := p }) hx (hEdit₂.file hh)
      refine ⟨s₃, a ++ [x], b, ?_, by rw [hSplit, List.append_assoc]; rfl,
        ((hEdit₁.trans hEdit₂).trans hEdit₃).congr fun q f => ?_, fun q hq => ?_, fun q hq => ?_⟩
      · rw [if_neg hLess, bind_ok steps_ok, bind_ok hPoint, bind_ok (getFileAt_ok hx hh),
          bind_ok hRun₂, bind_ok hRun₃]
        rfl
      · have hHead : h.next = b.headD 0 := Chain.head_eq hRight
        by_cases hq : q = p
        · subst hq
          simp [editAt, linked, hHead, hxp.symm]
        · by_cases hq' : q = x
          · subst hq'
            simp [editAt, linked, hq]
          · simp [editAt, linked, hq, hq', Ne.symm hq']
      · exact fun hLt => hBefore q hq (namecmp_neg_iff.mpr hLt)
      · exact namecmp_neg_iff.mp (hAfter q hq)

theorem Entries.link (hEntries : Entries s.memory d (a ++ b)) (hp : p ≠ 0)
    (hf : s.memory.files p = some f) (hNew : p ∉ a ++ b) (hEdit : Edits s s' (linked d p a b)) :
    Entries s'.memory d (a ++ p :: b) := by
  obtain ⟨hd, e, he, hDir, hChain⟩ := hEntries
  have hNodup := Chain.nodup hChain
  refine ⟨hd, _, hEdit.file he, hDir, ?_⟩
  have hNext : ∀ q g, s.memory.files q = some g →
      nextNode s'.memory q = some (linked d p a b q g).next :=
    fun q g hg => nextNode_of (hEdit.file hg)
  have hSame : ∀ q, q ∈ a ++ b → a.getLast? ≠ some q →
      nextNode s'.memory q = nextNode s.memory q := by
    intro q hq hLast
    obtain ⟨g, hg⟩ := Chain.live hChain hq
    rw [hNext q g hg, nextNode_of hg, linked, if_neg (fun h : q = p => hNew (h ▸ hq)), if_neg hLast]
  have hResult := Chain.insert (nextNode s'.memory) hChain hp (a := p)
    (by rw [hNext p f hf, linked, if_pos rfl])
    (fun q hq => hSame q (List.mem_append_left _ (List.mem_of_mem_dropLast hq)) fun hLast => ?_)
    (fun q hq => ?_) (fun q hq => hSame q (List.mem_append_right _ hq) fun hLast => ?_)
  · have hLinkEq : (linked d p a b d e).link = if a = [] then p else e.link := by
      simp only [linked, true_and]
    rw [hLinkEq]
    exact hResult
  · obtain ⟨a', rfl⟩ := List.getLast?_eq_some_iff.mp hLast
    rw [List.dropLast_concat] at hq
    have := (List.nodup_append.mp (List.nodup_append.mp hNodup).1).2.2
    exact this q hq q List.mem_cons_self rfl
  · have hqa : q ∈ a := List.mem_of_getLast? hq
    obtain ⟨g, hg⟩ := Chain.live hChain (List.mem_append_left b hqa)
    rw [hNext q g hg, linked, if_neg (fun h : q = p => hNew (h ▸ List.mem_append_left _ hqa)),
      if_pos hq]
  · exact (List.nodup_append.mp hNodup).2.2 q (List.mem_of_getLast? hLast) q hq rfl

end Linking

end Dandelion.FileSystem
