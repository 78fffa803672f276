import Mathlib.Data.Finset.Card
import Dandelion.FileSystem.Growth

/-! # Where a creation walk ends

`create_directories` enters what exists and makes what does not. Where it ends and
which directories it makes is known before it starts. Going below a file takes its
chunks for nodes.
-/

namespace Dandelion.FileSystem

open Foundation.Triples

/-- A place on the way of a creation walk: a node that was there, and the names of new
directories below it, the last one first. -/
structure Spot where
  node : Ptr
  below : List Path
  deriving DecidableEq

def Spot.isDirectory (m : Memory) (x : Spot) : Bool :=
  !x.below.isEmpty || FileSystem.isDirectory m x.node

def Spot.child (x : Spot) (c : Path) : Spot := ⟨x.node, trim c c.length :: x.below⟩

/-- `..` of the root is the root itself. -/
def Spot.up (m : Memory) (x : Spot) : Spot :=
  match x.below with
  | [] => ⟨if parentOf m x.node = 0 then x.node else parentOf m x.node, []⟩
  | _ :: below => ⟨x.node, below⟩

/-- What a component does to the walk: it leads to what is there, or to a directory that was not
there when the walk began, or the walk ends, at a component that is too long or at a file. -/
inductive Turn where
  | on (x : Spot)
  | new (x : Spot)
  | cut
  | stop

def Spot.turn (m : Memory) (L : Ptr → List Ptr) (x : Spot) (c : Path) : Turn :=
  if c.length > fsNameLength then .cut
  else if c = [dot] then .on x
  else if c = [dot, dot] then .on (x.up m)
  else if x.isDirectory m then
    if x.below = [] ∧ lookupIn m c (L x.node) ≠ 0 then .on ⟨lookupIn m c (L x.node), []⟩
    else .new (x.child c)
  else .stop

/-- The end of a creation walk: a place, a component that is too long, a name below a file
without content, or a search among the chunks of a file. -/
inductive Destination where
  | place (x : Spot)
  | cut
  | wall
  | astray

def destination (m : Memory) (L : Ptr → List Ptr) : Spot → List Path → Destination
  | x, [] => .place x
  | x, c :: rest =>
    match x.turn m L c with
    | .on y => destination m L y rest
    | .new y => destination m L y rest
    | .cut => .cut
    | .stop => if (m.files x.node).all fun f => f.link = 0 then .wall else .astray

/-- The directories that the walk makes, or enters after it has made them. -/
def newPlaces (m : Memory) (L : Ptr → List Ptr) : Spot → List Path → Finset Spot
  | _, [] => ∅
  | x, c :: rest =>
    match x.turn m L c with
    | .on y => newPlaces m L y rest
    | .new y => insert y (newPlaces m L y rest)
    | .cut => ∅
    | .stop => ∅

structure Extends (P : Platform) (s : State) (L : Ptr → List Ptr) (s' : State)
    (L' : Ptr → List Ptr) : Prop where
  listing : Listing P s'.memory L'
  old : ∀ q e, s.memory.files q = some e → ∃ e', s'.memory.files q = some e' ∧
    e'.name = e.name ∧ e'.type = e.type ∧ e'.parent = e.parent ∧
    (e.type ≠ .directory → e'.link = e.link)
  new : ∀ d q, q ∈ L' d → q ∈ L d ∨ s.memory.files q = none ∧ isDirectory s'.memory q = true
  finds : ∀ d x, lookupIn s.memory x (L d) ≠ 0 →
    lookupIn s'.memory x (L' d) = lookupIn s.memory x (L d)
  table : s'.openFiles = s.openFiles

/-- The node that is at a place in a later state. -/
inductive Stands (s s' : State) (L' : Ptr → List Ptr) : Ptr → Spot → Prop
  | here {p : Ptr} {e : DFile} : s.memory.files p = some e → Stands s s' L' p ⟨p, []⟩
  | under {d r p : Ptr} {names : List Path} {c : Path} : Stands s s' L' d ⟨p, names⟩ →
      s.memory.files r = none → isDirectory s'.memory r = true →
      lookupIn s'.memory c (L' d) = r → Stands s s' L' r ⟨p, trim c c.length :: names⟩

/-- The state in the middle of a walk that has come to these new directories: they are there,
and nothing else is new. -/
structure Walked (P : Platform) (s : State) (L : Ptr → List Ptr) (V : Finset Spot) (s₁ : State)
    (L₁ : Ptr → List Ptr) : Prop where
  grows : Extends P s L s₁ L₁
  made : ∀ x, x ∈ V ↔ x.below ≠ [] ∧ ∃ r, Stands s s₁ L₁ r x
  requests : s₁.requests = s.requests + V.card
  answered : ∀ i < V.card, ∃ m g, P.answer m (s.requests + i) sizeofFile 8 = some g
  leaves : Leaves s.memory → Leaves s₁.memory
  start : V = ∅ → s₁ = s

structure PlainName (c : Path) : Prop where
  short : c.length ≤ fsNameLength
  notDot : c ≠ [dot]
  notDots : c ≠ [dot, dot]

variable {P : Platform} {s s' s₁ s₂ s₃ : State} {m : Memory} {L L₁ L₂ L₃ : Ptr → List Ptr}
  {d n p q r : Ptr} {a b : List Ptr} {e f : DFile} {c : Path} {names rest : List Path}
  {x y : Spot} {V : Finset Spot} {preventUp : Bool}

section Turns

theorem turn_plain (h : PlainName c) : x.turn m L c =
    if x.isDirectory m then
      if x.below = [] ∧ lookupIn m c (L x.node) ≠ 0 then .on ⟨lookupIn m c (L x.node), []⟩
      else .new (x.child c)
    else .stop := by
  rw [Spot.turn, if_neg (Nat.not_lt.mpr h.short), if_neg h.notDot, if_neg h.notDots]

theorem name_cases (c : Path) : c.length > fsNameLength ∨ c = [dot] ∨ c = [dot, dot] ∨
    PlainName c := by
  by_cases hLong : c.length > fsNameLength
  · exact Or.inl hLong
  by_cases hDot : c = [dot]
  · exact Or.inr (Or.inl hDot)
  by_cases hDots : c = [dot, dot]
  · exact Or.inr (Or.inr (Or.inl hDots))
  · exact Or.inr (Or.inr (Or.inr ⟨Nat.not_lt.mp hLong, hDot, hDots⟩))

theorem turn_long (h : c.length > fsNameLength) : x.turn m L c = .cut := if_pos h

theorem turn_dot : x.turn m L [dot] = .on x := rfl

theorem turn_dots : x.turn m L [dot, dot] = .on (x.up m) := rfl

end Turns

section Growing

theorem Extends.refl (h : Listing P s.memory L) : Extends P s L s L :=
  ⟨h, fun _ e he => ⟨e, he, rfl, rfl, rfl, fun _ => rfl⟩, fun _ _ hq => Or.inl hq,
    fun _ _ _ => rfl, rfl⟩

theorem Extends.isDirectory_iff (h : Extends P s L s' L₁) (he : s.memory.files q = some e) :
    isDirectory s'.memory q = isDirectory s.memory q := by
  obtain ⟨e', he', -, hType, -⟩ := h.old q e he
  rw [isDirectory_of he', isDirectory_of he, hType]

theorem Extends.parentOf_eq (h : Extends P s L s' L₁) (he : s.memory.files q = some e) :
    parentOf s'.memory q = parentOf s.memory q := by
  obtain ⟨e', he', -, -, hParent, -⟩ := h.old q e he
  rw [parentOf_of he', parentOf_of he, hParent]

theorem Extends.fresh (h : Extends P s L s' L₁) (hq : s'.memory.files q = none) :
    s.memory.files q = none := by
  cases he : s.memory.files q with
  | none => rfl
  | some e =>
    obtain ⟨e', he', -⟩ := h.old q e he
    rw [hq] at he'
    cases he'

theorem Extends.found_new (h : Extends P s L s' L₁) (hListing : Listing P s.memory L)
    (hNone : lookupIn s.memory c (L d) = 0) (hFound : lookupIn s'.memory c (L₁ d) ≠ 0) :
    s.memory.files (lookupIn s'.memory c (L₁ d)) = none ∧
      isDirectory s'.memory (lookupIn s'.memory c (L₁ d)) = true := by
  obtain ⟨hMem, hName⟩ := lookupIn_mem hFound
  rcases h.new d _ hMem with hOld | hNew
  · obtain ⟨e, he, -⟩ := hListing.live hOld
    obtain ⟨e', he', hSame, -⟩ := h.old _ e he
    refine absurd ?_ ((lookupIn_eq_zero (hListing.zero_unlisted d)).mp hNone _ hOld)
    rw [← hName, nameOf, nameOf, he, he', Option.map_some, Option.map_some, hSame]
  · exact hNew

theorem Extends.grown (h : Extends P s L s₁ L₁)
    (hGrown : Grown P s₁ L₁ d n a b f s₂ L₂) (hd : isDirectory s₁.memory d = true)
    (hType : f.type = .directory) (hName : trim f.name fsNameLength = trim c c.length)
    (hNew : lookupIn s₁.memory c (L₁ d) = 0) (hTable : s₂.openFiles = s₁.openFiles) :
    Extends P s L s₂ L₂ where
  listing := hGrown.listing
  old q e he := by
    obtain ⟨e₁, he₁, h₁, h₂, h₃, h₄⟩ := h.old q e he
    obtain ⟨hq, he₂⟩ := hGrown.old he₁
    refine ⟨_, he₂, h₁, h₂, (if_neg hq).trans h₃, fun hNot => (if_neg ?_).trans (h₄ hNot)⟩
    rintro ⟨rfl, -⟩
    rw [h.isDirectory_iff he, isDirectory_of he, decide_eq_true_eq] at hd
    exact hNot hd
  new c q hq := by
    rcases hGrown.mem_cases hq with hOld | rfl
    · rcases h.new c q hOld with hOld | ⟨hNone, hDir⟩
      · exact Or.inl hOld
      · exact Or.inr ⟨hNone, hGrown.isDirectory_old hDir⟩
    · exact Or.inr ⟨h.fresh hGrown.fresh,
        FileSystem.isDirectory_iff.mpr ⟨f, hGrown.node, hType⟩⟩
  finds c x hFound := by
    have hSame := h.finds c x hFound
    rw [← hSame]
    exact hGrown.lookup_old h.listing hName hNew (hSame ▸ hFound)
  table := hTable.trans h.table

theorem lookupIn_new (hListing : Listing P s.memory L) (hFresh : s.memory.files r = none) :
    lookupIn s.memory c (L r) = 0 := by
  rw [hListing.empty r fun f hf => by rw [hFresh] at hf; cases hf]
  rfl

end Growing

section Places

theorem Stands.live (h : Stands s s₁ L₁ r x) (hGrows : Extends P s L s₁ L₁) :
    ∃ f, s₁.memory.files r = some f := by
  cases h with
  | here he =>
    obtain ⟨e', he', -⟩ := hGrows.old _ _ he
    exact ⟨e', he'⟩
  | under _ _ hDir _ =>
    obtain ⟨f, hf, -⟩ := FileSystem.isDirectory_iff.mp hDir
    exact ⟨f, hf⟩

theorem Stands.isDirectory_eq (h : Stands s s₁ L₁ r x) (hGrows : Extends P s L s₁ L₁) :
    isDirectory s₁.memory r = x.isDirectory s.memory := by
  cases h with
  | here he => exact hGrows.isDirectory_iff he
  | under _ _ hDir _ => exact hDir

/-- The parent of a new directory is at the place above it. -/
theorem Stands.parent {t : Path} (h : Stands s s₁ L₁ r ⟨p, t :: names⟩)
    (hGrows : Extends P s L s₁ L₁) :
    r ∈ L₁ (parentOf s₁.memory r) ∧ Stands s s₁ L₁ (parentOf s₁.memory r) ⟨p, names⟩ ∧
      trim (nameOf s₁.memory r) fsNameLength = t := by
  obtain ⟨f, hf⟩ := h.live hGrows
  cases h with
  | under hAt _ _ hFound =>
    subst hFound
    obtain ⟨hMem, hName⟩ := lookupIn_mem (hGrows.listing.ne_zero hf)
    obtain ⟨g, hg, rfl⟩ := hGrows.listing.live hMem
    rw [parentOf_of hg]
    exact ⟨hMem, hAt, hName⟩

theorem Stands.unique (h : Stands s s₁ L₁ r x) (h' : Stands s s₁ L₁ q x) : q = r := by
  induction h generalizing q with
  | here _ =>
    cases h' with
    | here _ => rfl
  | @under d r p names c _ _ _ hFound ih =>
    generalize ht : trim c c.length = t at h'
    cases h' with
    | under hAt' _ _ hFound' =>
      obtain rfl := ih hAt'
      rw [← hFound, ← hFound', lookupIn, lookupIn, ht]

theorem Stands.inj (h : Stands s s₁ L₁ r x) (hGrows : Extends P s L s₁ L₁)
    (h' : Stands s s₁ L₁ r y) : y = x := by
  induction h generalizing y with
  | here he =>
    cases h' with
    | here _ => rfl
    | under _ hNone _ _ =>
      rw [he] at hNone
      cases hNone
  | @under d r p names c hAt hNone hDir hFound ih =>
    cases h' with
    | here he =>
      rw [he] at hNone
      cases hNone
    | under hAt' hNone' hDir' hFound' =>
      obtain ⟨-, hUp, hName⟩ := (Stands.under hAt hNone hDir hFound).parent hGrows
      obtain ⟨-, hUp', hName'⟩ := (Stands.under hAt' hNone' hDir' hFound').parent hGrows
      obtain rfl := hAt.unique (hUp : Stands s s₁ L₁ _ _)
      have hSame := ih hUp'
      rw [← hName, ← hName']
      simpa using hSame

theorem Stands.child (h : Stands s s₁ L₁ r x) (hGrows : Extends P s L s₁ L₁)
    (hListing : Listing P s.memory L) (hNone : lookupIn s.memory c (L r) = 0)
    (hFound : lookupIn s₁.memory c (L₁ r) ≠ 0) :
    Stands s s₁ L₁ (lookupIn s₁.memory c (L₁ r)) (x.child c) := by
  obtain ⟨hFresh, hDir⟩ := hGrows.found_new hListing hNone hFound
  exact .under h hFresh hDir rfl

variable (hGrown : Grown P s₁ L₁ d n a b f s₂ L₂) (hGrows : Extends P s L s₁ L₁)
  (hName : trim f.name fsNameLength = trim c c.length) (hNew : lookupIn s₁.memory c (L₁ d) = 0)

include hGrown hGrows hName hNew

theorem Stands.grown (h : Stands s s₁ L₁ r x) : Stands s s₂ L₂ r x := by
  induction h with
  | here he => exact .here he
  | under hAt hNone hDir hFound ih =>
    obtain ⟨g, hg, -⟩ := isDirectory_iff.mp hDir
    refine .under ih hNone (hGrown.isDirectory_old hDir) ?_
    rw [hGrown.lookup_old hGrows.listing hName hNew (hFound ▸ hGrows.listing.ne_zero hg), hFound]

/-- What is at a place after a directory was made was there before or is the new directory. -/
theorem Stands.of_grown (hAt : Stands s s₁ L₁ d y) (h : Stands s s₂ L₂ r x) :
    Stands s s₁ L₁ r x ∨ r = n ∧ x = y.child c := by
  induction h with
  | here he => exact Or.inl (.here he)
  | @under d' r p names c' _ hNone hDir hFound ih =>
    obtain ⟨g, hg, -⟩ := isDirectory_iff.mp hDir
    have hne : r ≠ 0 := hGrown.listing.ne_zero hg
    obtain ⟨hMem, hSame⟩ := lookupIn_mem (hFound ▸ hne : lookupIn s₂.memory c' (L₂ d') ≠ 0)
    rw [hFound] at hMem hSame
    have hOther : d' ≠ n := by
      rintro rfl
      obtain ⟨e, he⟩ := hAt.live hGrows
      rw [hGrown.lists_new hGrows.listing he] at hMem
      exact absurd hMem List.not_mem_nil
    have hOld : Stands s s₁ L₁ d' ⟨p, names⟩ := ih.resolve_right fun h => hOther h.1
    by_cases hn : r = n
    · -- the new directory, by its name
      subst hn
      obtain rfl := hGrown.listing.same_parent hMem hGrown.mem_new
      obtain rfl := hAt.inj hGrows hOld
      rw [nameOf, hGrown.node, Option.map_some, Option.getD_some, hName] at hSame
      exact Or.inr ⟨rfl, by rw [Spot.child, hSame]⟩
    · left
      have hMem₁ : r ∈ L₁ d' := (hGrown.mem_cases hMem).resolve_right hn
      obtain ⟨e, he, -⟩ := hGrows.listing.live hMem₁
      refine .under hOld hNone ?_ ?_
      · rw [isDirectory_of he]
        rw [isDirectory_of (hGrown.old he).2] at hDir
        exact hDir
      · have hThere : lookupIn s₁.memory c' (L₁ d') ≠ 0 := by
          intro hZero
          refine (lookupIn_eq_zero (hGrows.listing.zero_unlisted d')).mp hZero r hMem₁ ?_
          rw [← hGrown.nameOf_eq he, hSame]
        rw [← hFound, hGrown.lookup_old hGrows.listing hName hNew hThere]

end Places

section Steps

theorem Walked.init (h : Listing P s.memory L) : Walked P s L ∅ s L where
  grows := .refl h
  made x := by
    refine iff_of_false (Finset.notMem_empty x) ?_
    rintro ⟨hne, r, hStands⟩
    cases hStands with
    | here _ => exact hne rfl
    | under _ hNone hDir _ =>
      rw [isDirectory, hNone] at hDir
      cases hDir
  requests := rfl
  answered i hi := absurd hi (Nat.not_lt_zero i)
  leaves := id
  start _ := rfl

theorem Stands.found (h : Stands s s₁ L₁ r (x.child c)) (hd : Stands s s₁ L₁ d x) :
    lookupIn s₁.memory c (L₁ d) = r := by
  rw [Spot.child] at h
  generalize ht : trim c c.length = t at h
  cases h with
  | under hUp _ _ hFound =>
    obtain rfl := hd.unique hUp
    rw [← hFound, lookupIn, lookupIn, ht]

theorem Walked.mem_child (h : Walked P s L V s₁ L₁) (hListing : Listing P s.memory L)
    (hStands : Stands s s₁ L₁ r x) (hNone : lookupIn s.memory c (L r) = 0) :
    x.child c ∈ V ↔ lookupIn s₁.memory c (L₁ r) ≠ 0 := by
  rw [h.made]
  constructor
  · rintro ⟨-, q, hq⟩
    obtain ⟨f, hf⟩ := hq.live h.grows
    rw [hq.found hStands]
    exact h.grows.listing.ne_zero hf
  · exact fun hFound => ⟨List.cons_ne_nil _ _, _, hStands.child h.grows hListing hNone hFound⟩

theorem Walked.make {g : Grant} (h : Walked P s L V s₁ L₁) (hStands : Stands s s₁ L₁ d x)
    (hGrown : Grown P s₁ L₁ d n a b f s₂ L₂) (hDir : isDirectory s₁.memory d = true)
    (hType : f.type = .directory) (hName : trim f.name fsNameLength = trim c c.length)
    (hNew : lookupIn s₁.memory c (L₁ d) = 0) (hTable : s₂.openFiles = s₁.openFiles)
    (hFree : x.child c ∉ V) (hAnswer : P.answer s₁.memory s₁.requests sizeofFile 8 = some g)
    (hRequests : s₂.requests = s₁.requests + 1) (hLeaves : Leaves s₁.memory → Leaves s₂.memory) :
    Walked P s L (insert (x.child c) V) s₂ L₂ ∧ Stands s s₂ L₂ n (x.child c) := by
  have hThere : Stands s s₂ L₂ n (x.child c) :=
    .under (hStands.grown hGrown h.grows hName hNew) (h.grows.fresh hGrown.fresh)
      (isDirectory_iff.mpr ⟨f, hGrown.node, hType⟩) (hGrown.lookup_new h.grows.listing hName hNew)
  refine ⟨⟨h.grows.grown hGrown hDir hType hName hNew hTable, fun y => ?_, ?_, fun i hi => ?_,
    hLeaves ∘ h.leaves, fun hNone => absurd hNone (Finset.insert_ne_empty _ _)⟩, hThere⟩
  · rw [Finset.mem_insert, h.made]
    constructor
    · rintro (rfl | ⟨hne, r, hr⟩)
      · exact ⟨List.cons_ne_nil _ _, n, hThere⟩
      · exact ⟨hne, r, hr.grown hGrown h.grows hName hNew⟩
    · rintro ⟨hne, r, hr⟩
      rcases Stands.of_grown hGrown h.grows hName hNew hStands hr with hOld | ⟨-, rfl⟩
      · exact Or.inr ⟨hne, r, hOld⟩
      · exact Or.inl rfl
  · rw [hRequests, h.requests, Finset.card_insert_of_notMem hFree]
    rfl
  · rw [Finset.card_insert_of_notMem hFree] at hi
    rcases Nat.lt_succ_iff_lt_or_eq.mp hi with hLt | rfl
    · exact h.answered i hLt
    · exact ⟨_, g, h.requests ▸ hAnswer⟩

/-- The body of the loop of `create_directories`, with the search as a parameter. -/
def walkStep (P : Platform) (find : Ptr → Path → M Ptr) (preventUp : Bool) (next : Ptr → M Ptr)
    (directory : Ptr) (c : Path) : M Ptr :=
  if c.length > fsNameLength then pure 0
  else if c = [dot] then next directory
  else if c = [dot, dot] then
    if preventUp then pure 0
    else do
      let d ← getFileAt directory
      if d.parent = 0 then next directory else next d.parent
  else do
    let candidate ← find directory c
    if candidate ≠ 0 then next candidate
    else do
      let newDir ← allocFile P
      modifyFile newDir fun f => f.nameDirectory c
      let error ← linkFileToFolder P directory newDir
      if error < 0 then do
        dandelionFree newDir
        pure 0
      else next newDir

theorem createFrom_cons : createFrom P preventUp r (c :: rest) =
    walkStep P (findFileInDir P) preventUp (fun q => createFrom P preventUp q rest) r c := by
  rw [createFrom]
  rfl

variable {find : Ptr → Path → M Ptr} {next : Ptr → M Ptr} {post : Ptr → State → Prop}
  {fault : Fault → Prop}

/-- Below a directory: a name that was not there leads to a new directory. -/
theorem Walked.enter (h : Walked P s L V s₁ L₁) (hListing : Listing P s.memory L)
    (hRooted : Rooted L₁ r) (hStands : Stands s s₁ L₁ r x) (hDir : isDirectory s₁.memory r = true)
    (hc : PlainName c) (hNone : lookupIn s.memory c (L r) = 0)
    (hFind : find r c s₁ = findFileInDir P r c s₁)
    (hRefused : x.child c ∉ V → P.answer s₁.memory s₁.requests sizeofFile 8 = none →
      ∀ e, fault e)
    (hNext : ∀ s₂ L₂ q, Walked P s L (insert (x.child c) V) s₂ L₂ → Rooted L₂ q →
      Stands s s₂ L₂ q (x.child c) → Meets (next q) s₂ post fault) :
    Meets (walkStep P find preventUp next r c) s₁ post fault := by
  obtain ⟨f, hf, hType⟩ := isDirectory_iff.mp hDir
  have hSearch := findFileInDir_ok (h.grows.listing.entries r f hf hType)
    (h.grows.listing.sorted r) hc.notDot hc.notDots
  have hMem := h.mem_child hListing hStands hNone
  rw [walkStep, if_neg (Nat.not_lt.mpr hc.short), if_neg hc.notDot, if_neg hc.notDots]
  refine .after (hFind.trans hSearch) (.ite (fun hFound => ?_) fun hMissing => ?_)
  · refine hNext s₁ L₁ _ ?_ (hRooted.child (lookupIn_mem hFound).1)
      (hStands.child h.grows hListing hNone hFound)
    rwa [Finset.insert_eq_of_mem (hMem.mpr hFound)]
  · have hFree : x.child c ∉ V := fun hIn => hMissing (hMem.mp hIn)
    rw [not_not] at hMissing
    refine meets_newDirectory (fun hg => hRefused hFree hg _) fun g s₂ hg hAdds => ?_
    obtain ⟨s₃, L₃, a, b, hLink, hLinks⟩ := hAdds.link h.grows.listing hf hType fun _ => rfl
    obtain ⟨hWalked, hThere⟩ := h.make hStands (Grown.of_links hAdds hLinks) hDir rfl
      (trim_nameDirectory g.bytes hc.short) hMissing
      (hLinks.edits.openFiles.trans hAdds.openFiles) hFree hg
      (hLinks.edits.requests.trans hAdds.requests) fun hLeaves =>
        hLinks.leaves (hAdds.old hf) hType (hAdds.leaves hLeaves fun hNot => absurd rfl hNot)
    refine .after hLink (.ite (fun h => absurd h (by decide)) fun _ => ?_)
    exact hNext s₃ L₃ g.ptr hWalked (hLinks.rooted hRooted) hThere

theorem Walked.up (h : Walked P s L V s₁ L₁) (hListing : Listing P s.memory L)
    (hRooted : Rooted L₁ r) (hStands : Stands s s₁ L₁ r x) (hf : s₁.memory.files r = some f) :
    Rooted L₁ (if f.parent = 0 then r else f.parent) ∧
      Stands s s₁ L₁ (if f.parent = 0 then r else f.parent) (x.up s.memory) := by
  have hParent := hRooted.parent h.grows.listing
  cases hStands with
  | @here _ e he =>
    have hSame := h.grows.parentOf_eq he
    rw [Spot.up, ← hSame]
    rw [parentOf_of hf] at hParent ⊢
    by_cases hZero : f.parent = 0
    · rw [if_pos hZero]
      exact ⟨hRooted, .here he⟩
    · rw [if_neg hZero]
      rcases hParent with ⟨-, hNull⟩ | ⟨hMem, hRooted'⟩
      · exact absurd hNull hZero
      · rcases h.grows.new _ _ hMem with hOld | ⟨hFresh, -⟩
        · obtain ⟨g, hg, -⟩ := hListing.directory hOld
          exact ⟨hRooted', .here hg⟩
        · rw [he] at hFresh
          cases hFresh
  | under hUp hNone hDir hFound =>
    obtain ⟨-, hUp, -⟩ := (Stands.under hUp hNone hDir hFound).parent h.grows
    rw [parentOf_of hf] at hParent hUp
    obtain ⟨g, hg⟩ := hUp.live h.grows
    have hne := h.grows.listing.ne_zero hg
    rw [if_neg hne]
    exact ⟨(hParent.resolve_left fun hRoot => hne hRoot.2).2, hUp⟩

/-- One component of a creation walk. -/
theorem Walked.step (h : Walked P s L V s₁ L₁) (hListing : Listing P s.memory L)
    (hRooted : Rooted L₁ r) (hStands : Stands s s₁ L₁ r x)
    (hFind : isDirectory s₁.memory r = true → find r c s₁ = findFileInDir P r c s₁)
    (hCut : x.turn s.memory L c = .cut → post 0 s₁)
    (hUp : preventUp = true → c = [dot, dot] → post 0 s₁)
    (hOn : ∀ q y, x.turn s.memory L c = .on y → (c = [dot, dot] → preventUp = false) →
      Rooted L₁ q → Stands s s₁ L₁ q y → Meets (next q) s₁ post fault)
    (hRefused : ∀ y, x.turn s.memory L c = .new y → y ∉ V →
      P.answer s₁.memory s₁.requests sizeofFile 8 = none → ∀ e, fault e)
    (hNew : ∀ s₂ L₂ q y, x.turn s.memory L c = .new y → Walked P s L (insert y V) s₂ L₂ →
      Rooted L₂ q → Stands s s₂ L₂ q y → Meets (next q) s₂ post fault)
    (hStop : ∀ e, x.turn s.memory L c = .stop → PlainName c → x = ⟨r, []⟩ →
      s.memory.files r = some e → e.type ≠ .directory →
      Meets (walkStep P find preventUp next r c) s₁ post fault) :
    Meets (walkStep P find preventUp next r c) s₁ post fault := by
  rcases name_cases c with hLong | rfl | rfl | hc
  · rw [walkStep, if_pos hLong]
    exact .pure (hCut (turn_long hLong))
  · exact hOn r x rfl (fun h => by cases h) hRooted hStands
  · obtain ⟨f, hf⟩ := hRooted.live h.grows.listing
    refine (.ite (fun hPrevent => .pure (hUp hPrevent rfl)) fun hPrevent => ?_ :
      Meets (if preventUp = true then _ else _) s₁ post fault)
    refine .after (getFileAt_ok (h.grows.listing.ne_zero hf) hf) ?_
    rw [← apply_ite next]
    obtain ⟨hRooted', hStands'⟩ := h.up hListing hRooted hStands hf
    exact hOn _ _ rfl (fun _ => Bool.eq_false_iff.mpr hPrevent) hRooted' hStands'
  have hTurn := turn_plain (m := s.memory) (L := L) (x := x) hc
  by_cases hDir : x.isDirectory s.memory = true
  · have hDir₁ := (hStands.isDirectory_eq h.grows).trans hDir
    rw [if_pos hDir] at hTurn
    by_cases hOld : x.below = [] ∧ lookupIn s.memory c (L x.node) ≠ 0
    · -- the name was there
      rw [if_pos hOld] at hTurn
      obtain ⟨hBelow, hFound⟩ := hOld
      cases hStands with
      | under _ _ _ _ => exact absurd hBelow (List.cons_ne_nil _ _)
      | @here _ e he =>
        have hFinds := h.grows.finds r c hFound
        obtain ⟨g, hg, -⟩ := hListing.live (lookupIn_mem hFound).1
        obtain ⟨f, hf, hType⟩ := isDirectory_iff.mp hDir₁
        have hSearch := findFileInDir_ok (h.grows.listing.entries r f hf hType)
          (h.grows.listing.sorted r) hc.notDot hc.notDots
        rw [hFinds] at hSearch
        rw [walkStep, if_neg (Nat.not_lt.mpr hc.short), if_neg hc.notDot, if_neg hc.notDots]
        refine .after ((hFind hDir₁).trans hSearch) ?_
        rw [if_pos hFound]
        refine hOn _ _ hTurn (fun h => absurd h hc.notDots) (hRooted.child ?_) (.here hg)
        rw [← hFinds]
        exact (lookupIn_mem (hFinds ▸ hFound)).1
    · rw [if_neg hOld] at hTurn
      refine h.enter hListing hRooted hStands hDir₁ hc ?_ (hFind hDir₁) (hRefused _ hTurn)
        fun s₂ L₂ q => hNew s₂ L₂ q _ hTurn
      cases hStands with
      | here _ => exact not_not.mp fun hne => hOld ⟨rfl, hne⟩
      | under _ hFresh _ _ => exact lookupIn_new hListing hFresh
  · rw [if_neg hDir] at hTurn
    cases hStands with
    | under _ _ _ _ => exact absurd rfl hDir
    | @here _ e he =>
      refine hStop e hTurn hc rfl he fun hType => hDir ?_
      exact isDirectory_iff.mpr ⟨e, he, hType⟩

end Steps

end Dandelion.FileSystem
