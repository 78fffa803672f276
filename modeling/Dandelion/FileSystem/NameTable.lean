import Dandelion.FileSystem.Children
import Dandelion.FileSystem.Run

/-! # A directory as a table of names

Nodes are taken out of a child list by the surgery of `dandelion_unlink` or that
of `remove_file`. Whatever was linked and taken out before, the list is in order
and holds the nodes that are left, so that a search finds what a scan of the
whole list would find.
-/

namespace Dandelion.FileSystem

open Foundation.Chains Foundation.Runs Foundation.Triples

def unlinked (d : Ptr) (a b : List Ptr) (q : Ptr) (f : DFile) : DFile :=
  { f with
    next := if a.getLast? = some q then b.headD 0 else f.next
    link := if q = d ∧ a = [] then b.headD 0 else f.link }

variable {P : Platform} {s s' : State} {d p q x : Ptr} {a b l : List Ptr} {f : DFile}

section Removal

theorem chain_in_front {c : Ptr} (hChain : Chain (nextNode s.memory) q (c :: a ++ x :: p :: b)) :
    ∃ g, q = c ∧ c ≠ 0 ∧ s.memory.files c = some g ∧ g.next ≠ 0 ∧ g.next ≠ p ∧
      Chain (nextNode s.memory) g.next (a ++ x :: p :: b) := by
  have hNodup := Chain.nodup hChain
  obtain ⟨rfl, hq, r, hNext, hRest⟩ := hChain
  obtain ⟨g, hg, rfl⟩ := file_of_nextNode hNext
  have hHead := Chain.head_eq hRest
  have hMem : g.next ∈ a ++ [x] := by
    rw [hHead]
    cases a <;> simp
  have hIn : g.next ∈ a ++ x :: p :: b := by
    rw [← List.singleton_append, ← List.append_assoc]
    exact List.mem_append_left _ hMem
  refine ⟨g, rfl, hq, hg, Segment.ne_zero hRest hIn, fun hEq => ?_, hRest⟩
  rw [List.cons_append, List.nodup_cons, ← List.singleton_append, ← List.append_assoc] at hNodup
  exact (List.nodup_append.mp hNodup.2).2.2 _ hMem p List.mem_cons_self hEq

theorem chain_last_in_front (hChain : Chain (nextNode s.memory) q (x :: p :: b)) :
    ∃ g, q = x ∧ x ≠ 0 ∧ s.memory.files x = some g ∧ g.next = p := by
  obtain ⟨rfl, hx, r, hNext, hp, _⟩ := hChain
  obtain ⟨g, hg, rfl⟩ := file_of_nextNode hNext
  exact ⟨g, rfl, hx, hg, hp⟩

theorem unlinkFrom_ok {fuel : Nat} (hChain : Chain (nextNode s.memory) q (a ++ x :: p :: b))
    (hp : p ≠ 0) (hf : s.memory.files p = some f) (hFuel : a.length < fuel) :
    ∃ s', unlinkFrom p fuel q s = .ok ((), s') ∧
      Edits s s' (editAt x fun c => { c with next := f.next }) := by
  induction a generalizing q fuel with
  | nil =>
    obtain ⟨n, rfl⟩ := Nat.exists_eq_add_one.mpr hFuel
    obtain ⟨g, rfl, hq, hg, hNext⟩ := chain_last_in_front hChain
    obtain ⟨s', hRun, hEdit⟩ := modifyFile_edits (fun c => { c with next := f.next }) hq hg
    refine ⟨s', ?_, hEdit⟩
    rw [unlinkFrom, if_neg hq, bind_ok (getFileAt_ok hq hg), if_pos hNext,
      bind_ok (getFileAt_ok hp hf), hRun]
  | cons c a ih =>
    obtain ⟨n, rfl⟩ := Nat.exists_eq_add_one.mpr (Nat.zero_lt_of_lt hFuel)
    obtain ⟨g, rfl, hq, hg, _, hNext, hRest⟩ := chain_in_front hChain
    rw [unlinkFrom, if_neg hq, bind_ok (getFileAt_ok hq hg), if_neg hNext]
    exact ih hRest (Nat.lt_of_succ_lt_succ hFuel)

theorem childBefore_ok {fuel : Nat} (hChain : Chain (nextNode s.memory) q (a ++ x :: p :: b))
    (hFuel : a.length < fuel) : childBefore p fuel q s = .ok (x, s) := by
  induction a generalizing q fuel with
  | nil =>
    obtain ⟨n, rfl⟩ := Nat.exists_eq_add_one.mpr hFuel
    obtain ⟨g, rfl, hq, hg, hNext⟩ := chain_last_in_front hChain
    rw [childBefore, bind_ok (getFileAt_ok hq hg), if_neg (fun h => h.2 hNext)]
    rfl
  | cons c a ih =>
    obtain ⟨n, rfl⟩ := Nat.exists_eq_add_one.mpr (Nat.zero_lt_of_lt hFuel)
    obtain ⟨g, rfl, hq, hg, hEnd, hNext, hRest⟩ := chain_in_front hChain
    rw [childBefore, bind_ok (getFileAt_ok hq hg), if_pos ⟨hEnd, hNext⟩]
    exact ih hRest (Nat.lt_of_succ_lt_succ hFuel)

theorem unlinked_first {e : DFile} (hd : d ≠ 0) (he : s.memory.files d = some e)
    (hNext : f.next = b.headD 0) :
    ∃ s', modifyFile d (fun d => { d with link := f.next }) s = .ok ((), s') ∧
      Edits s s' (unlinked d [] b) := by
  obtain ⟨s', hRun, hEdit⟩ := modifyFile_edits (fun d => { d with link := f.next }) hd he
  refine ⟨s', hRun, hEdit.congr fun q g => ?_⟩
  by_cases hq : q = d <;> simp [editAt, unlinked, hq, hNext]

theorem unlinked_later (hNext : f.next = b.headD 0) (q : Ptr) (g : DFile) :
    editAt x (fun c => { c with next := f.next }) q g = unlinked d (a ++ [x]) b q g := by
  by_cases hq : q = x
  · simp [editAt, unlinked, hq, hNext]
  · simp [editAt, unlinked, hq, Ne.symm hq]

section

variable (hEntries : Entries s.memory d (a ++ p :: b))

include hEntries

theorem Entries.next_eq (hf : s.memory.files p = some f) :
    f.next = b.headD 0 := by
  obtain ⟨_, _, _, _, hChain⟩ := hEntries
  obtain ⟨_, _, rfl, _, r, hNext, hRest⟩ := segment_append.mp hChain
  rw [nextNode_of hf] at hNext
  rw [Option.some.inj hNext]
  exact Chain.head_eq hRest

theorem detach_ok (hf : s.memory.files p = some f)
    (hParent : f.parent = d) : ∃ s', detach p s = .ok ((), s') ∧ Edits s s' (unlinked d a b) := by
  have hNext := hEntries.next_eq hf
  obtain ⟨hd, e, he, _, hChain⟩ := hEntries
  have hp : p ≠ 0 := Segment.ne_zero hChain (by simp)
  have hHead := Chain.head_eq hChain
  have hNodup := Chain.nodup hChain
  rw [detach, bind_ok (getFileAt_ok hp hf), hParent, bind_ok (getFileAt_ok hd he)]
  rcases List.eq_nil_or_concat a with rfl | ⟨a, x, rfl⟩
  · rw [if_pos (show e.link = p from hHead)]
    exact unlinked_first hd he hNext
  · rw [List.concat_eq_append, List.append_assoc] at hChain hNodup hHead
    have hne : e.link ≠ p := by
      rw [hHead]
      cases a <;> simp_all [List.nodup_append]
    have hFuel := Chain.length_le_limit hChain
    obtain ⟨s', hRun, hEdit⟩ := unlinkFrom_ok hChain hp hf
      (show a.length < s.memory.limit + 1 by simp only [List.length_append] at hFuel; omega)
    refine ⟨s', by rw [if_neg hne, bind_ok steps_ok, hRun], ?_⟩
    rw [List.concat_eq_append]
    exact hEdit.congr (unlinked_later hNext)

theorem removeEntry_ok :
    ∃ s', removeEntry d p s = .ok (true, s') ∧ Edits s s' (unlinked d a b) := by
  obtain ⟨f, hf⟩ : ∃ f, s.memory.files p = some f := Chain.live hEntries.2.choose_spec.2.2 (by simp)
  have hNext := hEntries.next_eq hf
  obtain ⟨hd, e, he, _, hChain⟩ := hEntries
  have hp : p ≠ 0 := Segment.ne_zero hChain (by simp)
  have hHead := Chain.head_eq hChain
  have hNodup := Chain.nodup hChain
  rw [removeEntry, bind_ok (getFileAt_ok hd he), bind_ok (getFileAt_ok hp hf)]
  rcases List.eq_nil_or_concat a with rfl | ⟨a, x, rfl⟩
  · obtain ⟨s', hRun, hEdit⟩ := unlinked_first hd he hNext
    refine ⟨s', ?_, hEdit⟩
    rw [if_pos (show e.link = p from hHead), bind_ok hRun]
    rfl
  · rw [List.concat_eq_append, List.append_assoc] at hChain hNodup hHead
    have hne : e.link ≠ p := by
      rw [hHead]
      cases a <;> simp_all [List.nodup_append]
    have hFuel := Chain.length_le_limit hChain
    have hBefore := childBefore_ok hChain
      (show a.length < s.memory.limit + 1 by simp only [List.length_append] at hFuel; omega)
    obtain ⟨_, _, hLast⟩ := segment_append.mp hChain
    obtain ⟨g, rfl, hx, hg, hgNext⟩ := chain_last_in_front hLast
    obtain ⟨s', hRun, hEdit⟩ := modifyFile_edits (fun c => { c with next := f.next }) hx hg
    refine ⟨s', ?_, ?_⟩
    · rw [if_neg hne, bind_ok steps_ok, bind_ok hBefore, bind_ok (getFileAt_ok hx hg),
        if_pos hgNext, bind_ok hRun]
      rfl
    · rw [List.concat_eq_append]
      exact hEdit.congr (unlinked_later hNext)

theorem Entries.unlink (hEdit : Edits s s' (unlinked d a b)) :
    Entries s'.memory d (a ++ b) := by
  obtain ⟨hd, e, he, hDir, hChain⟩ := hEntries
  have hNodup := Chain.nodup hChain
  refine ⟨hd, _, hEdit.file he, hDir, ?_⟩
  have hNext : ∀ q ∈ a ++ p :: b, nextNode s'.memory q =
      if a.getLast? = some q then some (b.headD 0) else nextNode s.memory q := by
    intro q hq
    obtain ⟨g, hg⟩ := Chain.live hChain hq
    rw [nextNode_of (hEdit.file hg), nextNode_of hg, unlinked]
    split <;> rfl
  have hResult := Chain.remove (nextNode s'.memory) hChain
    (fun q hq => ?_) (fun q hq => ?_) (fun q hq => ?_)
  · have hLinkEq : (unlinked d a b d e).link = if a = [] then b.headD 0 else e.link := by
      simp only [unlinked, true_and]
    rw [hLinkEq]
    exact hResult
  · rw [hNext q (List.mem_append_left _ (List.mem_of_mem_dropLast hq)), if_neg]
    intro hLast
    obtain ⟨a', rfl⟩ := List.getLast?_eq_some_iff.mp hLast
    rw [List.dropLast_concat] at hq
    exact (List.nodup_append.mp (List.nodup_append.mp hNodup).1).2.2 q hq q List.mem_cons_self rfl
  · rw [hNext q (List.mem_append_left _ (List.mem_of_getLast? hq)), if_pos hq]
  · rw [hNext q (by simp [hq]), if_neg]
    intro hLast
    exact (List.nodup_append.mp hNodup).2.2 q (List.mem_of_getLast? hLast) q
      (List.mem_cons_of_mem _ hq) rfl

end

end Removal

section Runs

inductive Surgery where
  | link (p : Ptr)
  | unlink (p : Ptr)
  | remove (p : Ptr)

/-- The state together with the nodes that were linked and not yet taken out. -/
structure Table where
  state : State
  present : List Ptr

def EmptyTable (d : Ptr) (t : Table) : Prop := Entries t.state.memory d [] ∧ t.present = []

inductive Operates (P : Platform) (d : Ptr) : Table → Surgery → Table → Prop
  | link {t : Table} {p : Ptr} {r : Int} {s' : State} : p ≠ 0 → (t.state.memory.files p).isSome →
      p ∉ t.present →
      linkFileToFolder P d p t.state = .ok (r, s') → Operates P d t (.link p) ⟨s', p :: t.present⟩
  | unlink {t : Table} {p : Ptr} {s' : State} : p ∈ t.present → detach p t.state = .ok ((), s') →
      Operates P d t (.unlink p) ⟨s', t.present.erase p⟩
  | remove {t : Table} {p : Ptr} {r : Bool} {s' : State} :
      p ∈ t.present → removeEntry d p t.state = .ok (r, s') →
      Operates P d t (.remove p) ⟨s', t.present.erase p⟩

/-- The list is in order and holds what is present; every child knows its directory. -/
def Tabled (P : Platform) (d : Ptr) (t : Table) : Prop :=
  ∃ l, Entries t.state.memory d l ∧ Sorted P t.state.memory l ∧ l.Perm t.present ∧
    ∀ q ∈ l, ∀ f, t.state.memory.files q = some f → f.parent = d

theorem Sorted.edits {g : Ptr → DFile → DFile} (h : Sorted P s.memory l) (hEdit : Edits s s' g)
    (hName : ∀ q f, (g q f).name = f.name) : Sorted P s'.memory l := by
  refine List.Pairwise.imp (fun {p q} hLe => ?_) h
  rwa [hEdit.keyOf_eq hName, hEdit.keyOf_eq hName]

theorem Tabled.taken {t : Table} (hEntries : Entries t.state.memory d (a ++ p :: b))
    (hSorted : Sorted P t.state.memory (a ++ p :: b)) (hPerm : (a ++ p :: b).Perm t.present)
    (hParent : ∀ q ∈ a ++ p :: b, ∀ f, t.state.memory.files q = some f → f.parent = d)
    (hEdit : Edits t.state s' (unlinked d a b)) : Tabled P d ⟨s', t.present.erase p⟩ := by
  refine ⟨a ++ b, hEntries.unlink hEdit, (hSorted.edits hEdit fun _ _ => rfl).remove, ?_,
    fun q hq f hf => ?_⟩
  · exact (List.perm_cons p).mp ((List.perm_middle.symm.trans hPerm).trans
      (List.perm_cons_erase (hPerm.subset (by simp))))
  · rw [hEdit.files] at hf
    obtain ⟨g, hg, rfl⟩ := Option.map_eq_some_iff.mp hf
    exact hParent q (by simp_all; tauto) g hg

theorem Tabled.operates {t t' : Table} {o : Surgery} (h : Tabled P d t)
    (hStep : Operates P d t o t') :
    Tabled P d t' := by
  obtain ⟨l, hEntries, hSorted, hPerm, hParent⟩ := h
  cases hStep with
  | @link p r s' hp hLive hNew hRun =>
    obtain ⟨f, hf⟩ := Option.isSome_iff_exists.mp hLive
    have hNotIn : p ∉ l := fun h => hNew (hPerm.subset h)
    obtain ⟨s₁, a, b, hLink, rfl, hEdit, hBefore, hAfter⟩ :=
      linkFileToFolder_ok (P := P) hEntries hp hf hNotIn
    obtain ⟨rfl, rfl⟩ := ok_unique hRun hLink
    refine ⟨a ++ p :: b, hEntries.link hp hf hNotIn hEdit,
      (hSorted.insert hBefore hAfter).edits hEdit fun _ _ => rfl,
      List.perm_middle.trans (List.Perm.cons p hPerm), fun q hq g hg => ?_⟩
    rw [hEdit.files] at hg
    obtain ⟨e, he, rfl⟩ := Option.map_eq_some_iff.mp hg
    by_cases hqp : q = p
    · exact if_pos hqp
    · exact (if_neg hqp).trans (hParent q (by simp_all) e he)
  | @unlink p s' hMem hRun =>
    obtain ⟨a, b, rfl⟩ := List.append_of_mem (hPerm.symm.subset hMem)
    obtain ⟨f, hf⟩ : ∃ f, t.state.memory.files p = some f :=
      Chain.live hEntries.2.choose_spec.2.2 (by simp)
    obtain ⟨s₁, hDetach, hEdit⟩ := detach_ok hEntries hf (hParent p (by simp) f hf)
    obtain ⟨_, rfl⟩ := ok_unique hRun hDetach
    exact .taken hEntries hSorted hPerm hParent hEdit
  | @remove p r s' hMem hRun =>
    obtain ⟨a, b, rfl⟩ := List.append_of_mem (hPerm.symm.subset hMem)
    obtain ⟨s₁, hRemove, hEdit⟩ := removeEntry_ok hEntries
    obtain ⟨_, rfl⟩ := ok_unique hRun hRemove
    exact .taken hEntries hSorted hPerm hParent hEdit

theorem tabled_of_reachable {t : Table} (h : Reachable (EmptyTable d) (Operates P d) t) :
    Tabled P d t := by
  refine Reachable.invariant (Tabled P d) (fun t ht => ?_)
    (fun t o t' ht hStep => ht.operates hStep) h
  obtain ⟨hEntries, hNone⟩ := ht
  refine ⟨[], hEntries, List.Pairwise.nil, by rw [hNone], fun q hq => absurd hq List.not_mem_nil⟩

/-- Whatever was linked to an empty directory and taken out again, its list holds
exactly the nodes that are present, each once, in the order of `namecmp`; a search for
a component finds the first child of that name that a full scan would find; and the
next surgery does not fail. -/
theorem directory_is_name_table {t : Table} (h : Reachable (EmptyTable d) (Operates P d) t) :
    ∃ l, Entries t.state.memory d l ∧ l.Nodup ∧ (∀ q, q ∈ l ↔ q ∈ t.present) ∧
      l.Pairwise (fun p q => namecmp P.signedChar (nameOf t.state.memory p) fsNameLength
        (nameOf t.state.memory q) fsNameLength ≤ 0) ∧
      (∀ name, name ≠ [dot] → name ≠ [dot, dot] → findFileInDir P d name t.state =
        .ok ((l.find? fun q =>
          namecmp P.signedChar (nameOf t.state.memory q) fsNameLength name name.length = 0).getD 0,
          t.state)) ∧
      (∀ p f, p ≠ 0 → t.state.memory.files p = some f → p ∉ t.present →
        ∃ s', linkFileToFolder P d p t.state = .ok (0, s')) ∧
      ∀ p ∈ t.present, (∃ s', detach p t.state = .ok ((), s')) ∧
        ∃ s', removeEntry d p t.state = .ok (true, s') := by
  obtain ⟨l, hEntries, hSorted, hPerm, hParent⟩ := tabled_of_reachable h
  refine ⟨l, hEntries, Chain.nodup hEntries.2.choose_spec.2.2, fun q => hPerm.mem_iff, ?_,
    ?_, ?_, ?_⟩
  · refine List.Pairwise.imp (fun {p q} hLe => ?_) hSorted
    exact not_lt.mp fun hGt => absurd hLe (not_le.mpr (namecmp_pos_iff.mp hGt))
  · intro name hDot hDots
    rw [findFileInDir_ok hEntries hSorted hDot hDots, lookupIn]
    simp only [namecmp_eq_zero_iff]
  · intro p f hp hf hNew
    obtain ⟨s', _, _, hRun, _⟩ :=
      linkFileToFolder_ok (P := P) hEntries hp hf fun hMem => hNew (hPerm.subset hMem)
    exact ⟨s', hRun⟩
  · intro p hp
    obtain ⟨a, b, rfl⟩ := List.append_of_mem (hPerm.symm.subset hp)
    obtain ⟨f, hf⟩ : ∃ f, t.state.memory.files p = some f :=
      Chain.live hEntries.2.choose_spec.2.2 (by simp)
    obtain ⟨s₁, hDetach, _⟩ := detach_ok hEntries hf (hParent p (by simp) f hf)
    obtain ⟨s₂, hRemove, _⟩ := removeEntry_ok hEntries
    exact ⟨⟨s₁, hDetach⟩, s₂, hRemove⟩

/-- Two of the static nodes are linked to the root and one is taken out again. -/
theorem directory_is_name_table_statics :
    ∃ t l, Reachable (EmptyTable fsRoot) (Operates (.bump 0) fsRoot) t ∧ t.present = [stdioFolder] ∧
      Entries t.state.memory fsRoot l ∧ ∀ q, q ∈ l ↔ q ∈ t.present := by
  have h₀ : Reachable (EmptyTable fsRoot) (Operates (.bump 0) fsRoot) ⟨bareState, []⟩ :=
    .init ⟨⟨by decide, _, rfl, rfl, rfl⟩, rfl⟩
  obtain ⟨s₁, hLink₁, hLive⟩ : ∃ s₁, linkFileToFolder (.bump 0) fsRoot deviceFolder bareState =
      .ok (0, s₁) ∧
      (s₁.memory.files stdioFolder).isSome := ⟨_, rfl, rfl⟩
  have h₁ := h₀.step (.link (by decide) rfl List.not_mem_nil hLink₁)
  have hNew : stdioFolder ∉ [deviceFolder] := by decide
  have hOld : deviceFolder ∈ [stdioFolder, deviceFolder] := by decide
  obtain ⟨f, hf⟩ := Option.isSome_iff_exists.mp hLive
  obtain ⟨_, _, _, _, _, _, hNext, _⟩ := directory_is_name_table h₁
  obtain ⟨s₂, hLink₂⟩ := hNext stdioFolder f (by decide) hf hNew
  have h₂ := h₁.step (.link (by decide) hLive hNew hLink₂)
  obtain ⟨_, _, _, _, _, _, _, hTake⟩ := directory_is_name_table h₂
  obtain ⟨s₃, hDetach⟩ := (hTake deviceFolder hOld).1
  have h₃ := h₂.step (.unlink hOld hDetach)
  obtain ⟨l, hEntries, _, hMem, _⟩ := directory_is_name_table h₃
  exact ⟨_, l, h₃, rfl, hEntries, hMem⟩

end Runs

end Dandelion.FileSystem
