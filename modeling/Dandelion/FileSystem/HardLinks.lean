import Dandelion.FileSystem.SteadyRuns

/-! # Hard links

`dandelion_link` counts a new link twice, once when the node is put into the list
and once more itself, and `dandelion_stat` reports the count.
-/

namespace Dandelion.FileSystem

open Foundation.Runs Foundation.Triples

section Status

structure DandelionStat where
  stMode : Nat
  hardLinks : Nat
  fileSize : Nat
  blkSize : Nat
  deriving DecidableEq

/-- `__dandelion_stat`, with what it writes to the caller's structure. -/
def statNode (file : Ptr) : M (Int × Option DandelionStat) := do
  let f ← getFileAt file
  let fuel ← steps
  let size ← if f.type = .file then totalSize fuel f.link 0 else pure 0
  pure (0, some ⟨f.mode, f.hardLinks, size, fsChunkSize⟩)

def dandelionFstat (fd : Int) : M (Int × Option DandelionStat) := do
  let o ← getOpenFile fd
  if o.file = 0 then pure (-(eBADF : Int), none) else statNode o.file

def dandelionStat (P : Platform) (name : List UInt8) : M (Int × Option DandelionStat) := do
  let file ← findFile P name
  if file = 0 then pure (-(eNOTDIR : Int), none) else statNode file

end Status

/-- The node `p` behind the path `old` got the path `new` as well: both lead to it, other
paths and children are not affected, and the reported count of links is one more. -/
structure SharesFile (P : Platform) (old new : List UInt8) (p : Ptr) (s s' : State) : Prop where
  atNew : findFile P new s' = .ok (p, s')
  atOld : findFile P old s' = .ok (p, s')
  others : ∀ path q, findFile P path s = .ok (q, s) → q ≠ 0 → findFile P path s' = .ok (q, s')
  children : ∀ d l, Entries s.memory d l →
    ∃ l', Entries s'.memory d l' ∧ ∀ q ∈ l, q ≠ p → l'.count q = 1
  counted : ∃ st st', dandelionStat P old s = .ok ((0, some st), s) ∧
    dandelionStat P old s' = .ok ((0, some st'), s') ∧ st'.hardLinks = st.hardLinks + 1

/-- A regular file, a path that does not exist, and a directory for it. -/
structure LinkRequest (P : Platform) (old new : List UInt8) (p : Ptr) (f : DFile) (s : State) :
    Prop where
  found : findFile P old s = .ok (p, s)
  nonzero : p ≠ 0
  node : s.memory.files p = some f
  regular : f.type = .file
  absent : findFile P new s = .ok (0, s)
  parent : ∃ d, findFilePath P (getDirectories (pathOf new)) s = .ok (d, s) ∧ d ≠ 0 ∧
    isDirectory s.memory d

def linksOf (m : Memory) (p : Ptr) : Option Nat := (m.files p).map (·.hardLinks)

variable {P : Platform} {s s' : State} {d p q r : Ptr} {f : DFile} {old new : List UInt8}

section Effect

theorem ensures_modifyFile_linksOf (p q : Ptr) {g : DFile → DFile}
    (hg : ∀ f, (g f).hardLinks = f.hardLinks) :
    Ensures (modifyFile q g) s fun _ s' => linksOf s'.memory p = linksOf s.memory p := by
  refine (ensures_modifyFile_edits q g).imp fun _ s' hs' => ?_
  obtain ⟨_, _, hEdit⟩ := hs'
  rw [linksOf, linksOf, hEdit.files, Option.map_map]
  congr 1
  funext f
  by_cases hp : p = q <;> simp [editAt, hp, hg]

theorem linkFileToFolder_counts (hd : isDirectory s.memory d) (hf : s.memory.files p = some f) :
    Ensures (linkFileToFolder P d p) s fun _ s' =>
      linksOf s'.memory p = some ((f.hardLinks + 1) % 2 ^ 16) := by
  rw [linkFileToFolder]
  refine ensures_file fun e _ he => ?_
  refine .ite (fun hType => ?_) fun _ => ?_
  · obtain ⟨e', he', hDir⟩ := isDirectory_iff.mp hd
    obtain rfl := Option.mem_unique he he'
    exact absurd hDir hType
  have hCount :
      Ensures (modifyFile p fun f =>
        { f with parent := d, hardLinks := (f.hardLinks + 1) % 2 ^ 16 }) s
      fun _ s' => linksOf s'.memory p = some ((f.hardLinks + 1) % 2 ^ 16) := by
    refine (ensures_modifyFile_edits p _).imp fun _ s' hs' => ?_
    obtain ⟨_, _, hEdit⟩ := hs'
    rw [linksOf, hEdit.file hf, editAt, if_pos rfl, Option.map_some]
  refine hCount.bind fun _ s₂ h₂ => (readsOnly_getFileAt d).seq fun e₂ => ?_
  -- the rest of the code sets two pointers
  have hTwo : ∀ (q r : Ptr) {g g' : DFile → DFile} {s₄ : State},
      (∀ f, (g f).hardLinks = f.hardLinks) →
      (∀ f, (g' f).hardLinks = f.hardLinks) →
        linksOf s₄.memory p = some ((f.hardLinks + 1) % 2 ^ 16) →
      Ensures (do modifyFile q g; modifyFile r g'; pure (0 : Int)) s₄ fun _ s' =>
        linksOf s'.memory p = some ((f.hardLinks + 1) % 2 ^ 16) := by
    intro q r g g' s₄ hg hg' h₄
    refine (ensures_modifyFile_linksOf p q hg).bind fun _ s₅ h₅ => ?_
    refine (ensures_modifyFile_linksOf p r hg').bind fun _ s₆ h₆ => .pure ?_
    exact h₆.trans (h₅.trans h₄)
  refine .ite (fun _ => hTwo _ _ (fun _ => rfl) (fun _ => rfl) h₂) fun _ => ?_
  refine (readsOnly_getFileAt p).seq fun f₃ => ?_
  refine (readsOnly_getFileAt _).seq fun c => ?_
  refine .ite (fun _ => hTwo _ _ (fun _ => rfl) (fun _ => rfl) h₂) fun _ => .after steps_ok ?_
  refine (readsOnly_insertionPoint _ _ _).seq fun current => ?_
  refine (readsOnly_getFileAt current).seq fun c' => ?_
  exact hTwo _ _ (fun _ => rfl) (fun _ => rfl) h₂

theorem createFrom_found {names : List Path} (h : findFrom P d names s = .ok (r, s)) (hr : r ≠ 0) :
    Ensures (createFrom P false d names) s fun q s' => s' = s ∧ (q = 0 ∨ q = r) := by
  induction names generalizing d with
  | nil =>
    obtain rfl : d = r := congrArg Prod.fst (Except.ok.inj h)
    exact .pure ⟨rfl, Or.inr rfl⟩
  | cons c rest ih =>
    have hStep : Ensures (findFrom P d (c :: rest)) s fun r _ => r ≠ 0 →
        ∃ e found, s.memory.files d = some e ∧ d ≠ 0 ∧
        findFileInDir P d c s = .ok (found, s) ∧ found ≠ 0 ∧
          findFrom P found rest s = .ok (r, s) := by
      rw [findFrom]
      refine ensures_file fun e hd he => ?_
      refine .ite (fun _ => .pure fun h => absurd rfl h) fun _ => ?_
      refine (((readsOnly_findFileInDir d c) s).and (Meets.self _ _)).bind fun found s₂ hFound => ?_
      obtain ⟨rfl, hFound⟩ := hFound
      refine .ite (fun _ => .pure fun h => absurd rfl h) fun hne => ?_
      refine (((readsOnly_findFrom found rest) s₂).and (Meets.self _ _)).imp fun r s₃ hRest _ => ?_
      obtain ⟨rfl, hRest⟩ := hRest
      exact ⟨e, found, he, hd, hFound, hne, hRest⟩
    obtain ⟨e, found, he, hd, hFound, hne, hRest⟩ := hStep.result h hr
    rw [createFrom]
    refine .ite (fun _ => .pure ⟨rfl, Or.inl rfl⟩) fun _ => .ite (fun hDot => ?_) fun hDot =>
      .ite (fun hDots => ?_) fun hDots => ?_
    · rw [findFileInDir, if_pos hDot] at hFound
      obtain rfl : d = found := congrArg Prod.fst (Except.ok.inj hFound)
      exact ih hRest
    · rw [findFileInDir, if_neg hDot, if_pos hDots, bind_ok (getFileAt_ok hd he)] at hFound
      obtain rfl : e.parent = found := congrArg Prod.fst (Except.ok.inj hFound)
      refine .ite (fun h => absurd h (by decide)) fun _ => .after (getFileAt_ok hd he) ?_
      exact .ite (fun hZero => absurd hZero hne) fun _ => ih hRest
    · exact .after hFound (.ite (fun _ => ih hRest) fun hZero => absurd hne hZero)

theorem dandelionLink_counts (h : LinkRequest P old new p f s) :
    Ensures (dandelionLink P old new) s fun r s' => r = 0 →
      linksOf s'.memory p = some ((f.hardLinks + 2) % 2 ^ 16) := by
  obtain ⟨d, hParent, hd, hDir⟩ := h.parent
  rw [dandelionLink]
  refine .after h.found (.ite (fun hZero => absurd hZero h.nonzero) fun _ =>
    .after (getFileAt_ok h.nonzero h.node) ?_)
  refine .ite (fun _ => .pure fun hZero => absurd hZero (by decide)) fun _ => ?_
  refine .ite (fun _ => .pure fun hZero => absurd hZero (by decide)) fun _ => .after h.absent ?_
  refine .ite (fun hne => absurd rfl hne) fun _ =>
    (ensures_pathFromString new).bind fun path s₁ hPath => ?_
  obtain ⟨rfl, rfl, _⟩ := hPath
  cases getFile (pathOf new) with
  | none => trivial
  | some name =>
    have hCreate : Ensures (createDirectories P fsRoot (getDirectories (pathOf new)) false) s₁
        fun q s' =>
        s' = s₁ ∧ (q = 0 ∨ q = d) := by
      rw [createDirectories]
      refine (readsOnly_getFileAt fsRoot).seq fun e => ?_
      refine .ite (fun _ => .pure ⟨rfl, Or.inl rfl⟩) fun _ => createFrom_found hParent hd
    refine hCreate.bind fun newDir s₂ h₂ => ?_
    obtain ⟨rfl, hNew⟩ := h₂
    refine .ite (fun _ => .pure fun hZero => absurd hZero (by decide)) fun hne => ?_
    obtain rfl := hNew.resolve_left hne
    refine (linkFileToFolder_counts hDir h.node).bind fun _ s₃ h₃ => ?_
    refine Meets.bind (ensures_modifyFile_edits p _) fun _ s₄ h₄ => .pure fun _ => ?_
    obtain ⟨_, _, hEdit⟩ := h₄
    obtain ⟨f₃, hf₃, hLinks⟩ := Option.map_eq_some_iff.mp h₃
    rw [linksOf, hEdit.file hf₃, editAt, if_pos rfl, Option.map_some, hLinks]
    show some (((f.hardLinks + 1) % 2 ^ 16 + 1) % 2 ^ 16) = _
    rw [Nat.mod_add_mod]

end Effect

section Law

theorem dandelionStat_links {st : DandelionStat} (hFound : findFile P old s = .ok (p, s))
    (hp : p ≠ 0) (h : dandelionStat P old s = .ok ((0, some st), s)) :
    linksOf s.memory p = some st.hardLinks := by
  have hAll : Ensures (dandelionStat P old) s fun r _ =>
      ∀ t ∈ r.2, linksOf s.memory p = some t.hardLinks := by
    rw [dandelionStat]
    refine .after hFound (.ite (fun hZero => absurd hZero hp) fun _ => ?_)
    rw [statNode]
    refine ensures_file fun f _ hf => ?_
    have hDone : ∀ {size : Nat} {s₂ : State},
        Ensures (pure ((0 : Int), some (⟨f.mode, f.hardLinks, size, fsChunkSize⟩ :
        DandelionStat)) : M (Int × Option DandelionStat)) s₂ fun r _ =>
          ∀ t ∈ r.2, linksOf s.memory p = some t.hardLinks := by
      intro size s₂
      refine .pure fun t ht => ?_
      obtain rfl := Option.mem_some.mp ht
      rw [linksOf, hf, Option.map_some]
    exact .after steps_ok (.ite (fun _ => .after_any fun size s₂ => hDone) fun _ =>
      .after_any fun size s₂ => hDone)
  exact hAll.result h st rfl

/-- Whenever `dandelion_link` reports success for a regular file and an absent path in an
existing directory, in whatever state, the count of links has grown by two. -/
theorem link_never_shares (h : LinkRequest P old new p f s)
    (hRun : dandelionLink P old new s = .ok (0, s')) :
    linksOf s'.memory p = some ((f.hardLinks + 2) % 2 ^ 16) ∧ ¬ SharesFile P old new p s s' := by
  have hCount := (dandelionLink_counts h).result hRun rfl
  refine ⟨hCount, fun hShares => ?_⟩
  obtain ⟨st, st', hBefore, hAfter, hGrown⟩ := hShares.counted
  have hOld := dandelionStat_links h.found h.nonzero hBefore
  have hNew := dandelionStat_links hShares.atOld h.nonzero hAfter
  rw [linksOf, h.node, Option.map_some, Option.some.injEq] at hOld
  rw [hCount, Option.some.injEq, hGrown, ← hOld] at hNew
  omega

def linkTest (P : Platform) (old new : List UInt8) (s : State) : Bool :=
  match findFile P old s, findFile P new s, findFilePath P (getDirectories (pathOf new)) s,
    dandelionLink P old new s with
  | .ok r, .ok r', .ok r'', .ok l =>
    (s.memory.files r.1).any (fun f => f.type = .file) && r.1 != 0 && r'.1 == 0 &&
    r''.1 != 0 && isDirectory s.memory r''.1 && l.1 == 0 && match findFile P new l.2 with
      | .ok n => n.1 == 0
      | .error _ => false
  | _, _, _, _ => false

theorem of_linkTest (h : linkTest P old new s = true) :
    ∃ p f s', LinkRequest P old new p f s ∧ dandelionLink P old new s = .ok (0, s') ∧
      findFile P new s' = .ok (0, s') := by
  unfold linkTest at h
  split at h
  · rename_i r r' r'' l hOld hNew hParent hLink
    obtain ⟨p, s₁⟩ := r
    obtain ⟨q, s₂⟩ := r'
    obtain ⟨d, s₃⟩ := r''
    obtain ⟨e, s'⟩ := l
    obtain rfl : s₁ = s := (readsOnly_findFile old s).result hOld
    obtain rfl : s₂ = s₁ := (readsOnly_findFile new s₁).result hNew
    obtain rfl : s₃ = s₂ := (readsOnly_findFrom fsRoot _ s₂).result hParent
    simp only [Bool.and_eq_true, Option.any_eq_true, decide_eq_true_eq, bne_iff_ne, beq_iff_eq] at h
    obtain ⟨⟨⟨⟨⟨⟨⟨f, hf, hType⟩, hp⟩, rfl⟩, hd⟩, hDir⟩, rfl⟩, hAfter⟩ := h
    refine ⟨p, f, s', ⟨hOld, hp, hf, hType, hNew, d, hParent, hd, hDir⟩, hLink, ?_⟩
    split at hAfter
    · rename_i n hFind
      obtain ⟨n, s₄⟩ := n
      obtain rfl : s₄ = s' := (readsOnly_findFile new s').result hFind
      obtain rfl : n = 0 := beq_iff_eq.mp hAfter
      exact hFind
    · cases hAfter
  · cases h

def stdioB : List UInt8 := stdioName ++ [slash, 98]

theorem link_never_shares_first :
    ∃ x p f s', Reachable (Started (.bump 0)) (Completes (.bump 0)) x ∧
    LinkRequest (.bump 0) [97] stdioB p f x.state ∧
      dandelionLink (.bump 0) [97] stdioB x.state = .ok (0, s') ∧
    linksOf s'.memory p = some ((f.hardLinks + 2) % 2 ^ 16) := by
  obtain ⟨x, hx, hTest⟩ := exists_of_bareRun
    (P := .bump 0) [.openFile [97] (oWRONLY ||| oCREAT) sIRWXU]
    (fun x => linkTest (.bump 0) [97] stdioB x.state) (by decide +kernel)
  obtain ⟨p, f, s', hRequest, hRun, _⟩ := of_linkTest hTest
  exact ⟨x, p, f, s', hx, hRequest, hRun, (link_never_shares hRequest hRun).1⟩

/-- After `a` was linked as `stdio/b` that is not found, since the node keeps the name `a`. -/
theorem link_shares_fails : ∃ x p f s', Reachable (Started (.bump 0)) (Completes (.bump 0)) x ∧
    LinkRequest (.bump 0) [97] stdioB p f x.state ∧
      dandelionLink (.bump 0) [97] stdioB x.state = .ok (0, s') ∧
    findFile (.bump 0) stdioB s' = .ok (0, s') ∧ ¬ SharesFile (.bump 0)
    [97] stdioB p x.state s' := by
  obtain ⟨x, hx, hTest⟩ := exists_of_bareRun
    (P := .bump 0) [.openFile [97] (oWRONLY ||| oCREAT) sIRWXU]
    (fun x => linkTest (.bump 0) [97] stdioB x.state) (by decide +kernel)
  obtain ⟨p, f, s', hRequest, hRun, hAbsent⟩ := of_linkTest hTest
  refine ⟨x, p, f, s', hx, hRequest, hRun, hAbsent, fun hShares => hRequest.nonzero ?_⟩
  exact (ok_unique hShares.atNew hAbsent).1

end Law

end Dandelion.FileSystem
