import Dandelion.FileSystem.NameTable

/-! # The tree of directories

Every live directory has its list of children, every child names its directory
as parent, and the lists are in order. Each change of the tree is a change of
these lists: a node is added, linked, taken out or dropped.
-/

namespace Dandelion.FileSystem

open Foundation.Chains

/-- The nodes of memory form directories with the given children. -/
structure Listing (P : Platform) (m : Memory) (L : Ptr → List Ptr) : Prop where
  null : m.files 0 = none
  root : ∃ f, m.files fsRoot = some f ∧ f.type = .directory ∧ f.parent = 0
  entries : ∀ d f, m.files d = some f → f.type = .directory → Entries m d (L d)
  empty : ∀ d, (∀ f, m.files d = some f → f.type ≠ .directory) → L d = []
  parents : ∀ d p f, p ∈ L d → m.files p = some f → f.parent = d
  sorted : ∀ d, Sorted P m (L d)

variable {P : Platform} {s s' : State} {m m' : Memory} {L : Ptr → List Ptr} {c d p q : Ptr}
  {a b l : List Ptr} {e f : DFile}

section Facts

theorem Entries.frame (h : Entries m d l)
    (hd : ∀ f, m.files d = some f → ∃ f', m'.files d = some f' ∧ f'.type = f.type ∧
      f'.link = f.link)
    (hNext : ∀ q ∈ l, nextNode m' q = nextNode m q) : Entries m' d l := by
  obtain ⟨hne, f, hf, hDir, hChain⟩ := h
  obtain ⟨f', hf', hType, hLink⟩ := hd f hf
  exact ⟨hne, f', hf', hType.trans hDir, hLink ▸ hChain.congr hNext⟩

theorem Sorted.congr (h : Sorted P m l) (hSame : ∀ q ∈ l, nameOf m' q = nameOf m q) :
    Sorted P m' l := by
  refine List.Pairwise.imp_of_mem (fun {p q} hp hq hLe => ?_) h
  rwa [keyOf, keyOf, hSame p hp, hSame q hq]

section

variable (h : Listing P m L)

include h

theorem Listing.directory (hp : p ∈ L d) : ∃ f, m.files d = some f ∧ f.type = .directory := by
  by_contra hNot
  rw [h.empty d fun f hf hDir => hNot ⟨f, hf, hDir⟩] at hp
  exact absurd hp List.not_mem_nil

theorem Listing.entries_of_mem (hp : p ∈ L d) : Entries m d (L d) := by
  obtain ⟨f, hf, hDir⟩ := h.directory hp
  exact h.entries d f hf hDir

theorem Listing.live (hp : p ∈ L d) : ∃ f, m.files p = some f ∧ f.parent = d := by
  obtain ⟨f, hf⟩ := Chain.live (h.entries_of_mem hp).2.choose_spec.2.2 hp
  exact ⟨f, hf, h.parents d p f hp hf⟩

theorem Listing.ne_zero (hf : m.files p = some f) : p ≠ 0 := by
  rintro rfl
  rw [h.null] at hf
  cases hf

theorem Listing.same_parent (hp : p ∈ L d) (hp' : p ∈ L c) : d = c := by
  obtain ⟨f, hf, rfl⟩ := h.live hp
  exact h.parents c p f hp' hf

theorem Listing.nodup (d : Ptr) : (L d).Nodup := by
  cases hL : L d with
  | nil => exact List.nodup_nil
  | cons p l =>
    have hp : p ∈ L d := by rw [hL]; exact List.mem_cons_self
    exact hL ▸ Chain.nodup (h.entries_of_mem hp).2.choose_spec.2.2

theorem Listing.root_unlisted (d : Ptr) : fsRoot ∉ L d := by
  intro hMem
  obtain ⟨f, hf, _, hParent⟩ := h.root
  have hd : d = 0 := (h.parents d fsRoot f hMem hf).symm.trans hParent
  obtain ⟨e, he, _⟩ := h.directory hMem
  exact h.ne_zero he hd

theorem Listing.unlisted_of_none (hp : m.files p = none) (d : Ptr) : p ∉ L d := by
  intro hMem
  obtain ⟨f, hf, _⟩ := h.live hMem
  rw [hp] at hf
  cases hf

theorem Listing.unique {L' : Ptr → List Ptr} (h' : Listing P m L') : L = L' := by
  funext d
  by_cases hDir : ∃ f, m.files d = some f ∧ f.type = .directory
  · obtain ⟨f, hf, hType⟩ := hDir
    exact (h.entries d f hf hType).unique (h'.entries d f hf hType)
  · have hNot : ∀ f, m.files d = some f → f.type ≠ .directory :=
      fun f hf hType => hDir ⟨f, hf, hType⟩
    rw [h.empty d hNot, h'.empty d hNot]

end

end Facts

section Steps

theorem Listing.of_files (h : Listing P m L) (hFiles : m'.files = m.files) : Listing P m' L where
  null := by rw [hFiles, h.null]
  root := by rw [hFiles]; exact h.root
  entries d f hf hDir := by
    rw [hFiles] at hf
    exact (h.entries d f hf hDir).frame (fun g hg => ⟨g, by rw [hFiles, hg], rfl, rfl⟩)
      fun q _ => by rw [nextNode, nextNode, hFiles]
  empty d hd := h.empty d fun f hf => hd f (by rw [hFiles, hf])
  parents d p f hp hf := h.parents d p f hp (by rw [← hFiles, hf])
  sorted d := (h.sorted d).congr fun q _ => by rw [nameOf, nameOf, hFiles]

theorem Listing.map {g : Ptr → DFile → DFile} (h : Listing P m L)
    (hFiles : ∀ q, m'.files q = (m.files q).map (g q))
    (hg : ∀ q f, m.files q = some f → (g q f).name = f.name ∧ (g q f).next = f.next ∧
      (g q f).parent = f.parent ∧ (g q f).type = f.type ∧
        (f.type = .directory → (g q f).link = f.link)) :
    Listing P m' L := by
  have hNew : ∀ {q f}, m.files q = some f → m'.files q = some (g q f) :=
    fun hf => by rw [hFiles, hf, Option.map_some]
  have hBack : ∀ q f', m'.files q = some f' → ∃ f, m.files q = some f ∧ f' = g q f := by
    intro q f' hf'
    rw [hFiles] at hf'
    obtain ⟨f, hf, rfl⟩ := Option.map_eq_some_iff.mp hf'
    exact ⟨f, hf, rfl⟩
  refine ⟨by rw [hFiles, h.null]; rfl, ?_, fun d f' hf' hDir => ?_, fun d hd => ?_,
    fun d p f' hp hf' => ?_, fun d => ?_⟩
  · obtain ⟨f, hf, hDir, hParent⟩ := h.root
    obtain ⟨_, _, hSame, hType, _⟩ := hg _ f hf
    exact ⟨_, hNew hf, hType.trans hDir, hSame.trans hParent⟩
  · obtain ⟨f, hf, rfl⟩ := hBack d f' hf'
    have hDir' : f.type = .directory := (hg d f hf).2.2.2.1.symm.trans hDir
    have hEntries := h.entries d f hf hDir'
    refine hEntries.frame (fun e he => ?_) (fun q hq => ?_)
    · obtain rfl := Option.mem_unique hf he
      exact ⟨_, hNew hf, (hg d f hf).2.2.2.1, (hg d f hf).2.2.2.2 hDir'⟩
    · obtain ⟨e, he⟩ := Chain.live hEntries.2.choose_spec.2.2 hq
      rw [nextNode_of (hNew he), nextNode_of he, (hg q e he).2.1]
  · exact h.empty d fun f hf hDir => hd _ (hNew hf) ((hg d f hf).2.2.2.1.trans hDir)
  · obtain ⟨f, hf, rfl⟩ := hBack p f' hf'
    rw [(hg p f hf).2.2.1]
    exact h.parents d p f hp hf
  · refine (h.sorted d).congr fun q hq => ?_
    obtain ⟨f, hf, _⟩ := h.live hq
    rw [nameOf_of (hNew hf), nameOf_of hf, (hg q f hf).1]

theorem Listing.edit {g : Ptr → DFile → DFile} (h : Listing P s.memory L) (hEdit : Edits s s' g)
    (hg : ∀ q f, s.memory.files q = some f → (g q f).name = f.name ∧ (g q f).next = f.next ∧
      (g q f).parent = f.parent ∧ (g q f).type = f.type ∧
        (f.type = .directory → (g q f).link = f.link)) :
    Listing P s'.memory L := h.map hEdit.files hg

theorem Listing.add (h : Listing P m L) (hp : m.files p = none) (hne : p ≠ 0)
    (hFiles : m'.files = Function.update m.files p (some f))
    (hLink : f.type = .directory → f.link = 0) :
    Listing P m' L := by
  have hOld : ∀ q, q ≠ p → m'.files q = m.files q :=
    fun q hq => by rw [hFiles, Function.update_of_ne hq]
  have hNew : m'.files p = some f := by rw [hFiles, Function.update_self]
  have hLive : ∀ q g, m.files q = some g → q ≠ p := by
    rintro q g hg rfl
    rw [hp] at hg
    cases hg
  have hListed : ∀ d, ∀ q ∈ L d, m'.files q = m.files q := by
    intro d q hq
    obtain ⟨g, hg, _⟩ := h.live hq
    exact hOld q (hLive q g hg)
  refine ⟨by rw [hOld 0 hne.symm, h.null], ?_, fun d g hg hDir => ?_, fun d hd => ?_,
    fun d q g hq hg => ?_, fun d => ?_⟩
  · obtain ⟨g, hg, hRest⟩ := h.root
    exact ⟨g, by rw [hOld _ (hLive _ g hg), hg], hRest⟩
  · by_cases hd : d = p
    · subst hd
      obtain rfl := Option.mem_unique hg hNew
      have hNone : L d = [] := h.empty d fun g hg' => by rw [hp] at hg'; cases hg'
      rw [hNone]
      exact ⟨hne, g, hg, hDir, hLink hDir⟩
    · rw [hOld d hd] at hg
      exact (h.entries d g hg hDir).frame (fun e he => ⟨e, by rw [hOld d hd, he], rfl, rfl⟩)
        fun q hq => by rw [nextNode, nextNode, hListed d q hq]
  · refine h.empty d fun g hg => hd g ?_
    rw [hOld d (hLive d g hg), hg]
  · rw [hListed d q hq] at hg
    exact h.parents d q g hq hg
  · exact (h.sorted d).congr fun q hq => by rw [nameOf, nameOf, hListed d q hq]

theorem Listing.drop (h : Listing P m L) (hp : ∀ d, p ∉ L d) (hRoot : p ≠ fsRoot)
    (hFiles : m'.files = Function.update m.files p none) :
    Listing P m' (Function.update L p []) := by
  have hOld : ∀ q, q ≠ p → m'.files q = m.files q :=
    fun q hq => by rw [hFiles, Function.update_of_ne hq]
  have hGone : m'.files p = none := by rw [hFiles, Function.update_self]
  have hListed : ∀ d, ∀ q ∈ L d, m'.files q = m.files q :=
    fun d q hq => hOld q fun hEq => hp d (hEq ▸ hq)
  refine ⟨?_, ?_, fun d g hg hDir => ?_, fun d hd => ?_, fun d q g hq hg => ?_, fun d => ?_⟩
  · by_cases hZero : p = 0
    · rw [← hZero, hGone]
    · rw [hOld 0 (Ne.symm hZero), h.null]
  · rw [hOld _ hRoot.symm]
    exact h.root
  · have hd : d ≠ p := by
      rintro rfl
      rw [hGone] at hg
      cases hg
    rw [hOld d hd] at hg
    rw [Function.update_of_ne hd]
    exact (h.entries d g hg hDir).frame (fun e he => ⟨e, by rw [hOld d hd, he], rfl, rfl⟩)
      fun q hq => by rw [nextNode, nextNode, hListed d q hq]
  · by_cases hdp : d = p
    · rw [hdp, Function.update_self]
    · rw [Function.update_of_ne hdp]
      exact h.empty d fun g hg => hd g (by rw [hOld d hdp, hg])
  · by_cases hdp : d = p
    · rw [hdp, Function.update_self] at hq
      exact absurd hq List.not_mem_nil
    · rw [Function.update_of_ne hdp] at hq
      rw [hListed d q hq] at hg
      exact h.parents d q g hq hg
  · by_cases hdp : d = p
    · rw [hdp, Function.update_self]
      exact List.Pairwise.nil
    · rw [Function.update_of_ne hdp]
      exact (h.sorted d).congr fun q hq => by rw [nameOf, nameOf, hListed d q hq]

theorem Listing.relist {g : Ptr → DFile → DFile} (h : Listing P s.memory L) (hEdit : Edits s s' g)
    (hg : ∀ q f, (g q f).name = f.name ∧ (g q f).type = f.type) (hEntries : Entries s'.memory d l)
    (hRoot : ∀ f, (g fsRoot f).parent = f.parent) (hLink : ∀ q f, q ≠ d → (g q f).link = f.link)
    (hNext : ∀ c q f, c ≠ d → q ∈ L c → (g q f).next = f.next)
    (hParent : ∀ c q f, c ≠ d → q ∈ L c → (g q f).parent = f.parent)
    (hParents : ∀ q f, q ∈ l → s.memory.files q = some f → (g q f).parent = d)
    (hSorted : Sorted P s.memory l) : Listing P s'.memory (Function.update L d l) := by
  have hBack : ∀ q f', s'.memory.files q = some f' →
      ∃ f, s.memory.files q = some f ∧ f' = g q f := by
    intro q f' hf'
    rw [hEdit.files] at hf'
    obtain ⟨f, hf, rfl⟩ := Option.map_eq_some_iff.mp hf'
    exact ⟨f, hf, rfl⟩
  refine ⟨by rw [hEdit.files, h.null]; rfl, ?_, fun c f' hf' hDir => ?_, fun c hc => ?_,
    fun c q f' hq hf' => ?_, fun c => ?_⟩
  · obtain ⟨f, hf, hDir, hZero⟩ := h.root
    exact ⟨_, hEdit.file hf, (hg _ _).2.trans hDir, (hRoot f).trans hZero⟩
  · by_cases hcd : c = d
    · rw [hcd, Function.update_self]
      exact hEntries
    · rw [Function.update_of_ne hcd]
      obtain ⟨f, hf, rfl⟩ := hBack c f' hf'
      have hOld := h.entries c f hf ((hg c f).2.symm.trans hDir)
      refine hOld.frame (fun e he => ⟨_, hEdit.file he, (hg c e).2, hLink c e hcd⟩) fun q hq => ?_
      exact hEdit.nextNode_eq fun e => hNext c q e hcd hq
  · by_cases hcd : c = d
    · obtain ⟨_, f', hf', hDir, _⟩ := hEntries
      exact absurd hDir (hc f' (by rw [hcd, hf']))
    · rw [Function.update_of_ne hcd]
      exact h.empty c fun f hf hDir => hc _ (hEdit.file hf) ((hg c f).2.trans hDir)
  · obtain ⟨f, hf, rfl⟩ := hBack q f' hf'
    by_cases hcd : c = d
    · rw [hcd, Function.update_self] at hq
      rw [hcd]
      exact hParents q f hq hf
    · rw [Function.update_of_ne hcd] at hq
      rw [hParent c q f hcd hq]
      exact h.parents c q f hq hf
  · by_cases hcd : c = d
    · rw [hcd, Function.update_self]
      exact hSorted.edits hEdit fun q f => (hg q f).1
    · rw [Function.update_of_ne hcd]
      exact (h.sorted c).edits hEdit fun q f => (hg q f).1

structure Links (P : Platform) (s : State) (L : Ptr → List Ptr) (d p : Ptr) (a b : List Ptr)
    (s' : State)
    (L' : Ptr → List Ptr) : Prop where
  split : L d = a ++ b
  lists : L' = Function.update L d (a ++ p :: b)
  edits : Edits s s' (linked d p a b)
  before : ∀ q ∈ a, ¬ keyOf P s.memory p < keyOf P s.memory q
  after : ∀ q ∈ b.head?, keyOf P s.memory p < keyOf P s.memory q
  listing : Listing P s'.memory L'

theorem Listing.link (h : Listing P s.memory L) (he : s.memory.files d = some e)
    (hDir : e.type = .directory) (hf : s.memory.files p = some f) (hRoot : p ≠ fsRoot)
    (hNew : ∀ c, p ∉ L c) :
    ∃ s' L' a b, linkFileToFolder P d p s = .ok (0, s') ∧ Links P s L d p a b s' L' := by
  have hEntries := h.entries d e he hDir
  have hp := h.ne_zero hf
  obtain ⟨s', a, b, hRun, hSplit, hEdit, hBefore, hAfter⟩ :=
    linkFileToFolder_ok (P := P) hEntries hp hf (hNew d)
  refine ⟨s', _, a, b, hRun, hSplit, rfl, hEdit, hBefore, hAfter, ?_⟩
  have hOther : ∀ c q, q ∈ L c → q ≠ p := fun c q hq hEq => hNew c (hEq ▸ hq)
  have hNew' : p ∉ a ++ b := hSplit ▸ hNew d
  refine h.relist hEdit (fun q f => ⟨rfl, rfl⟩) ((hSplit ▸ hEntries).link hp hf hNew' hEdit)
    (fun f => if_neg hRoot.symm) (fun q f hq => if_neg fun hAnd => hq hAnd.1)
      (fun c q f hc hq => ?_)
    (fun c q f _ hq => if_neg (hOther c q hq)) (fun q f hq hf => ?_)
    (Sorted.insert (hSplit ▸ h.sorted d) hBefore hAfter)
  · refine (if_neg (hOther c q hq)).trans (if_neg fun hLast => hc ?_)
    exact h.same_parent hq (hSplit ▸ List.mem_append_left b (List.mem_of_getLast? hLast))
  · by_cases hqp : q = p
    · exact if_pos hqp
    · refine (if_neg hqp).trans (h.parents d q f ?_ hf)
      rw [hSplit]
      simp only [List.mem_append, List.mem_cons] at hq ⊢
      tauto

theorem Listing.detach (h : Listing P s.memory L) (hp : p ∈ L d) :
    ∃ s' a b, detach p s = .ok ((), s') ∧ L d = a ++ p :: b ∧ Edits s s' (unlinked d a b) ∧
      Listing P s'.memory (Function.update L d (a ++ b)) := by
  obtain ⟨f, hf, hParent⟩ := h.live hp
  have hEntries := h.entries_of_mem hp
  obtain ⟨a, b, hSplit⟩ := List.append_of_mem hp
  rw [hSplit] at hEntries
  obtain ⟨s', hRun, hEdit⟩ := detach_ok hEntries hf hParent
  refine ⟨s', a, b, hRun, hSplit, hEdit, ?_⟩
  refine h.relist hEdit (fun q f => ⟨rfl, rfl⟩) (hEntries.unlink hEdit) (fun f => rfl)
    (fun q f hq => if_neg fun hAnd => hq hAnd.1) (fun c q f hc hq => if_neg fun hLast => hc ?_)
    (fun c q f _ _ => rfl) (fun q f hq hf => h.parents d q f ?_ hf) (hSplit ▸ h.sorted d).remove
  · exact h.same_parent hq (hSplit ▸ List.mem_append_left _ (List.mem_of_getLast? hLast))
  · rw [hSplit]
    simp only [List.mem_append, List.mem_cons] at hq ⊢
    tauto

theorem Listing.mem_remove_iff (h : Listing P m L) (hSplit : L d = a ++ p :: b) :
    q ∈ Function.update L d (a ++ b) c ↔ q ∈ L c ∧ q ≠ p := by
  have hp : p ∈ L d := by
    rw [hSplit]
    exact List.mem_append_right _ List.mem_cons_self
  have hNodup := h.nodup d
  rw [hSplit, List.nodup_middle, List.nodup_cons] at hNodup
  by_cases hc : c = d
  · subst hc
    rw [Function.update_self, hSplit]
    constructor
    · intro hq
      refine ⟨?_, fun hEq => hNodup.1 (hEq ▸ hq)⟩
      exact (List.Sublist.append_left (List.sublist_cons_self p b) a).subset hq
    · rintro ⟨hq, hne⟩
      simpa [hne] using hq
  · rw [Function.update_of_ne hc]
    refine ⟨fun hq => ⟨hq, ?_⟩, fun hq => hq.1⟩
    rintro rfl
    exact hc (h.same_parent hp hq).symm

end Steps

end Dandelion.FileSystem
