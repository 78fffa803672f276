import Dandelion.FileSystem.HardLinks
import Dandelion.FileSystem.SoundRuns
import Dandelion.FileSystem.Truncation
import Dandelion.FileSystem.WriteLaw

/-! # The law of truncation

A truncation should give the file the given length, whatever its chunks are. The
code dereferences a null pointer for an empty file and leaves a reference to chunks
it has released where the cut is not in the last chunk.
-/

namespace Dandelion.FileSystem

open Foundation.Words Foundation.Runs Foundation.Triples

structure Truncated (P : Platform) (s s' : State) (file : Ptr) (c : List UInt8) (n : Nat) :
    Prop where
  becomes : ∃ f, s'.memory.files file = some f ∧ content s'.memory f.link = some (padded c n)
  stat : ∀ name, findFile P name s = .ok (file, s) →
    ∃ st, dandelionStat P name s' = .ok ((0, some st), s') ∧ st.fileSize = n
  fstat : ∀ fd < fsMaxFiles, (s.openFiles fd).file = file →
    ∃ st, dandelionFstat fd s' = .ok ((0, some st), s') ∧ st.fileSize = n
  unvisited : ∀ q, s.memory.chunks q ≠ none → s'.memory.chunks q = none →
    ∀ fd, (s'.openFiles fd).file = file → (s'.openFiles fd).currentChunk ≠ q

def Truncates (P : Platform) (s : State) (file : Ptr) (c : List UInt8) (n : Nat)
    (call : M Int) : Prop :=
  ∃ s', call s = .ok (0, s') ∧ Truncated P s s' file c n

/-- The length is reached in the last chunk, or the block for the gap holds zeros. -/
def CanTruncate (P : Platform) (s : State) (p : Ptr) (n : Nat) : Prop :=
  ∃ l, pieces s.memory p = some l ∧ l ≠ [] ∧
    if n ≤ (flat l).length then l.dropLast = [] ∨ (flat l.dropLast).length < n
    else ZeroGap P s (n - (flat l).length)

variable {P : Platform} {s s' : State} {file p : Ptr} {f : DFile} {c : List UInt8}
  {l : List Piece} {n fuel total : Nat}

section Sizes

theorem totalSize_ok (h : Stored s.memory p l) (hWord : total + (flat l).length < 2 ^ 64)
    (hFuel : l.length < fuel) :
    totalSize fuel p total s = .ok (total + (flat l).length, s) := by
  induction l generalizing p fuel total with
  | nil =>
    obtain ⟨fuel, rfl⟩ := Nat.exists_eq_add_one.mpr hFuel
    rw [totalSize, if_pos (show p = 0 from h)]
    rfl
  | cons x l ih =>
    obtain ⟨fuel, rfl⟩ := Nat.exists_eq_add_one.mpr (Nat.zero_lt_of_lt hFuel)
    have hBytes := h.bytes_length (x := x) List.mem_cons_self
    obtain ⟨rfl, hne, hChunk, -, hRest⟩ := h
    rw [flat_cons, List.length_append, hBytes] at hWord
    rw [totalSize, if_neg hne, bind_ok (getChunkAt_ok hne hChunk), add64_of_lt (by omega),
      ih hRest (by omega) (Nat.lt_of_succ_lt_succ hFuel), flat_cons, List.length_append, hBytes,
      Nat.add_assoc]

theorem statNode_ok (hne : file ≠ 0) (hf : s.memory.files file = some f) (hType : f.type = .file)
    (hl : Stored s.memory f.link l) (hWord : (flat l).length < 2 ^ 64) :
    statNode file s = .ok ((0, some ⟨f.mode, f.hardLinks, (flat l).length, fsChunkSize⟩), s) := by
  rw [statNode, bind_ok (getFileAt_ok hne hf), bind_ok steps_ok, if_pos hType,
    bind_ok (totalSize_ok hl (by omega) (Nat.lt_succ_of_le hl.length_le)), Nat.zero_add]
  rfl

end Sizes

section Law

theorem padded_of_le (h : n ≤ c.length) : padded c n = c.take n := by
  rw [padded, Nat.sub_eq_zero_of_le h, List.replicate_zero, List.append_nil]

theorem padded_of_ge (h : c.length ≤ n) : padded c n = c ++ List.replicate (n - c.length) 0 := by
  rw [padded, List.take_of_length_le h]

/-- What the first action answers, the second one answers in the other state. -/
abbrev Repeats {α : Type} (s s' : State) (k k' : M α) : Prop :=
  Ensures k s fun a s₁ => s₁ = s ∧ k' s' = .ok (a, s')

theorem Repeats.bind {α β : Type} {k k' : M α} {g g' : α → M β} (h : Repeats s s' k k')
    (hg : ∀ a, Repeats s s' (g a) (g' a)) : Repeats s s' (k >>= g) (k' >>= g') := by
  refine Meets.bind h fun a s₁ hAnswer => ?_
  obtain ⟨rfl, hRun⟩ := hAnswer
  exact (hg a).imp fun _ _ hDone => ⟨hDone.1, by rw [bind_ok hRun, hDone.2]⟩

theorem Repeats.ite {α : Type} {q : Prop} [Decidable q] {k k' g g' : M α} (h : Repeats s s' k k')
    (hg : Repeats s s' g g') : Repeats s s' (if q then k else g) (if q then k' else g') := by
  split <;> assumption

theorem Repeats.pure {α : Type} (a : α) : Repeats s s' (pure a) (pure a) := ⟨rfl, rfl⟩

section Finding

variable (hFiles : s'.memory.files = s.memory.files)

include hFiles

theorem repeats_getFileAt (p : Ptr) : Repeats s s' (getFileAt p) (getFileAt p) := by
  refine (ensures_getFileAt p).imp fun f s₁ hRead => ?_
  obtain ⟨rfl, hp, hf⟩ := hRead
  exact ⟨rfl, getFileAt_ok hp (by rw [hFiles, hf])⟩

theorem repeats_scanChildren {name : Path} {fuel' : Nat} (hFuel : fuel ≤ fuel') :
    Repeats s s' (scanChildren P name fuel p) (scanChildren P name fuel' p) := by
  induction fuel generalizing p fuel' with
  | zero => exact trivial
  | succ fuel ih =>
    obtain ⟨fuel', rfl⟩ := Nat.exists_eq_add_one.mpr (Nat.zero_lt_of_lt hFuel)
    rw [scanChildren, scanChildren]
    exact .ite (.pure 0) ((repeats_getFileAt hFiles p).bind fun c =>
      .ite (.pure p) (.ite (.pure 0) (ih (Nat.le_of_succ_le_succ hFuel))))

variable (hLimit : s.memory.limit ≤ s'.memory.limit)

include hLimit

theorem repeats_findFrom (path : List Path) :
    Repeats s s' (findFrom P p path) (findFrom P p path) := by
  induction path generalizing p with
  | nil => exact .pure p
  | cons name path ih =>
    rw [findFrom]
    refine (repeats_getFileAt hFiles p).bind fun d => .ite (.pure 0) (Repeats.bind ?_ fun q =>
      .ite (.pure 0) ih)
    rw [findFileInDir]
    refine .ite (.pure p) (.ite ((repeats_getFileAt hFiles p).bind fun d => .pure d.parent) ?_)
    refine (repeats_getFileAt hFiles p).bind fun d => ?_
    exact repeats_scanChildren hFiles (Nat.succ_le_succ hLimit)

/-- A path leads to the same node where the nodes are the same. -/
theorem findFile_of_files {name : List UInt8} (h : findFile P name s = .ok (file, s)) :
    findFile P name s' = .ok (file, s') := by
  have hFound : Repeats s s' (findFile P name) (findFile P name) := by
    refine Repeats.bind ?_ fun path => repeats_findFrom hFiles hLimit _
    rw [pathFromString]
    split
    · exact trivial
    · exact .pure _
  exact (hFound.result h).2

end Finding

theorem truncated_of_stored (hne : file ≠ 0) (hf : s.memory.files file = some f)
    (hType : f.type = .file) (hFiles : s'.memory.files = s.memory.files)
    (hLimit : s.memory.limit ≤ s'.memory.limit) (hTable : s'.openFiles = s.openFiles)
    (hAlive : ∀ q, s.memory.chunks q ≠ none → s'.memory.chunks q ≠ none)
    (hl : Stored s'.memory f.link l) (hFlat : flat l = padded c n) (hWord : n < 2 ^ 63) :
    Truncated P s s' file c n := by
  have hf' : s'.memory.files file = some f := by rw [hFiles, hf]
  have hLength : (flat l).length = n := by rw [hFlat, padded_length]
  have hStat := statNode_ok hne hf' hType hl (by omega)
  set st : DandelionStat := ⟨f.mode, f.hardLinks, (flat l).length, fsChunkSize⟩
  refine ⟨⟨f, hf', by rw [hl.content_eq, hFlat]⟩, fun name hName => ⟨st, ?_, hLength⟩,
    fun fd hfd hFile => ⟨st, ?_, hLength⟩, fun q hq hGone => absurd hGone (hAlive q hq)⟩
  · rw [dandelionStat, bind_ok (findFile_of_files hFiles hLimit hName), if_neg hne, hStat]
  · have hEntry : (s'.openFiles (fd : Int).toNat).file = file := by rw [hTable]; exact hFile
    rw [dandelionFstat, bind_ok (getOpenFile_ok ⟨by omega, by omega⟩), hEntry, if_neg hne, hStat]

theorem truncateNode_from (hne : file ≠ 0) (hf : s.memory.files file = some f)
    (hType : f.type = .file) :
    truncateNode P file n s = truncateFrom P (s.memory.limit + 1) n f.link s := by
  rw [truncateNode, if_neg (by omega), bind_ok (getFileAt_ok hne hf), if_neg (not_not.mpr hType),
    bind_ok steps_ok]
  rfl

theorem truncateFrom_inside {a : List Piece} {x : Piece} (hne : file ≠ 0)
    (hf : s.memory.files file = some f) (hType : f.type = .file)
    (hl : Filed s.memory f.link (a ++ [x])) (hInside : n ≤ (flat (a ++ [x])).length)
    (hWord : n < 2 ^ 63) (hFuel : (a ++ [x]).length < fuel) :
    Truncates P s file (flat (a ++ [x])) n (truncateFrom P fuel n f.link) ↔
      a = [] ∨ (flat a).length < n := by
  constructor
  · rintro ⟨s', hRun, hLaw⟩
    obtain ⟨b, y, t, hSplit, hBefore, hAt⟩ := cut_split (by simp) hInside
    cases t with
    | nil =>
      obtain ⟨rfl, -⟩ := List.append_inj' hSplit rfl
      exact hBefore
    | cons z t =>
      rw [hSplit] at hl hFuel
      rw [hl.stored.bytes_length (by simp)] at hAt
      have hLength : b.length < fuel := by
        rw [List.length_append, List.length_cons] at hFuel
        omega
      obtain ⟨hBroken, hFiles⟩ := (truncateFrom_breaks (P := P) hl hBefore hAt hLength).result hRun
      obtain ⟨f', hf', hContent⟩ := hLaw.becomes
      obtain rfl : f = f' := Option.mem_unique hf (hFiles _ _ hf')
      obtain ⟨k, hk, -⟩ := Option.map_eq_some_iff.mp hContent
      exact absurd (pieces_eq_some.mp hk) (hBroken k)
  · intro hBefore
    have hFlat : flat (a ++ [x]) = flat a ++ x.bytes := by
      rw [flat_append, flat_cons, flat_nil, List.append_nil]
    have hUsed := hl.stored.bytes_length (x := x) (by simp)
    have hAt : n ≤ (flat a).length + x.chunk.used := by
      rw [hFlat, List.length_append] at hInside
      omega
    rw [List.length_append, List.length_singleton] at hFuel
    refine ⟨_, truncateFrom_last hl hBefore hAt (by omega), ?_⟩
    have hFiled :=
      cut_filed (s.memory.setChunk x.ptr (x.cut (n - (flat a).length)).chunk) hl (by omega) rfl rfl
    refine truncated_of_stored hne hf hType rfl (Nat.le_max_left _ _) rfl (fun q hq => ?_)
      hFiled.stored ?_ hWord
    · show Function.update s.memory.chunks x.ptr _ q ≠ none
      by_cases hAtLast : q = x.ptr
      · rw [hAtLast, Function.update_self]
        exact Option.some_ne_none _
      · rwa [Function.update_of_ne hAtLast]
    · have hShort : (flat a).length ≤ n := by
        rcases hBefore with rfl | hLt
        · exact Nat.zero_le _
        · exact Nat.le_of_lt hLt
      rw [padded_of_le hInside, hFlat, List.take_append, List.take_of_length_le hShort, flat_append,
        flat_cons, flat_nil, List.append_nil]
      rfl

theorem truncateFrom_outside {a : List Piece} {x : Piece} (hGrants : P.Grants) (hne : file ≠ 0)
    (hf : s.memory.files file = some f) (hType : f.type = .file)
    (hl : Filed s.memory f.link (a ++ [x])) (hOutside : (flat (a ++ [x])).length < n)
    (hWord : n < 2 ^ 63) (hFuel : (a ++ [x]).length < fuel) :
    Truncates P s file (flat (a ++ [x])) n (truncateFrom P fuel n f.link) ↔
      ZeroGap P s (n - (flat (a ++ [x])).length) := by
  rw [List.length_append, List.length_singleton] at hFuel
  have hLength : a.length < fuel := by omega
  obtain ⟨g, ptr, s₁, s₂, s₃, hRun, hGap⟩ := truncateFrom_gap hGrants hl hOutside hWord hLength
  set k := n - (flat (a ++ [x])).length with hk
  have hFlat :
      flat (a ++ [x.linked ptr, .fresh ptr g.ptr (chunkSize k) ((List.range k).map g.bytes)]) =
      flat (a ++ [x]) ++ (List.range k).map g.bytes := by
    simp only [flat_append, flat_cons, flat_nil, List.append_nil, List.append_assoc, Piece.linked,
      Piece.fresh]
  constructor
  · rintro ⟨s', hRun', hLaw⟩ g' hAnswer i hi
    obtain rfl : g = g' := Option.mem_unique hGap.answer hAnswer
    obtain rfl : s₃ = s' := (ok_unique hRun hRun').2
    obtain ⟨f', hf', hContent⟩ := hLaw.becomes
    rw [hGap.files, hf] at hf'
    obtain rfl := Option.some.inj hf'
    rw [hGap.filed.stored.content_eq, hFlat, padded_of_ge (Nat.le_of_lt hOutside),
      Option.some.injEq, ← hk] at hContent
    have hZero := congrArg (fun b : List UInt8 => b[i]?) (List.append_cancel_left hContent)
    simpa [hi] using hZero
  · intro hZero
    refine ⟨s₃, hRun, truncated_of_stored hne hf hType hGap.files hGap.limit hGap.table hGap.alive
      hGap.filed.stored ?_ hWord⟩
    rw [hFlat, padded_of_ge (Nat.le_of_lt hOutside), ← hk]
    congr 1
    refine List.eq_replicate_iff.mpr ⟨by simp, fun b hb => ?_⟩
    obtain ⟨i, hi, rfl⟩ := List.mem_map.mp hb
    exact hZero g hGap.answer i (List.mem_range.mp hi)

theorem truncateNode_iff (hGrants : P.Grants) (hne : file ≠ 0) (hf : s.memory.files file = some f)
    (hType : f.type = .file) (hl : Filed s.memory f.link l) (hWord : n < 2 ^ 63) :
    Truncates P s file (flat l) n (truncateNode P file n) ↔ CanTruncate P s f.link n := by
  have hPieces := pieces_eq_some.mpr hl.stored
  have hLimit := hl.stored.length_le
  rw [Truncates, truncateNode_from hne hf hType]
  rcases List.eq_nil_or_concat l with rfl | ⟨a, x, rfl⟩
  · -- an empty file has no chunk to look at
    have hZero : f.link = 0 := hl.stored
    constructor
    · rintro ⟨s', hRun, -⟩
      rw [hZero, truncateFrom, bind_error (show getChunkAt 0 s = .error .null from rfl)] at hRun
      cases hRun
    · rintro ⟨k, hk, hNonempty, -⟩
      rw [hPieces] at hk
      exact absurd (Option.some.inj hk).symm hNonempty
  rw [List.concat_eq_append] at *
  have hCan : CanTruncate P s f.link n ↔ if n ≤ (flat (a ++ [x])).length then a = [] ∨
      (flat a).length < n
      else ZeroGap P s (n - (flat (a ++ [x])).length) := by
    constructor
    · rintro ⟨k, hk, -, h⟩
      rw [hPieces] at hk
      obtain rfl := Option.some.inj hk
      rwa [List.dropLast_concat] at h
    · intro h
      refine ⟨_, hPieces, by simp, ?_⟩
      rwa [List.dropLast_concat]
  rw [hCan]
  have hFuel : (a ++ [x]).length < s.memory.limit + 1 := Nat.lt_succ_of_le hLimit
  by_cases hInside : n ≤ (flat (a ++ [x])).length
  · rw [if_pos hInside]
    exact truncateFrom_inside hne hf hType hl hInside hWord hFuel
  · rw [if_neg hInside]
    exact truncateFrom_outside hGrants hne hf hType hl (Nat.lt_of_not_le hInside) hWord hFuel

/-- The law holds exactly where the length is reached in the last chunk or the gap is zero;
`dandelion_ftruncate` needs the bit of `O_WRONLY` as well. -/
theorem truncate_iff {x : Session} (hGrants : P.Grants) (hx : Reachable (Started P) (Stays P) x)
    (hWords : x.state.memory.Words) (hne : file ≠ 0) (hf : x.state.memory.files file = some f)
    (hType : f.type = .file) (hc : content x.state.memory f.link = some c) (hn : n < 2 ^ 63) :
    (∀ name, findFile P name x.state = .ok (file, x.state) →
      (Truncates P x.state file c n (dandelionTruncate P name n) ↔
        CanTruncate P x.state f.link n)) ∧
    ∀ fd < fsMaxFiles, (x.state.openFiles fd).file = file →
      (Truncates P x.state file c n (dandelionFtruncate P fd n) ↔
        hasBit (x.state.openFiles fd).openFlags oWRONLY = true ∧
          CanTruncate P x.state f.link n) := by
  obtain ⟨l, hl, -, rfl⟩ := (sound_of_stays hx).filed_of_content hWords hc
  have hNode := truncateNode_iff hGrants hne hf hType hl hn
  refine ⟨fun name hName => ?_, fun fd hfd hFile => ?_⟩
  · have hCall : dandelionTruncate P name n x.state = truncateNode P file n x.state := by
      rw [dandelionTruncate, bind_ok hName, if_neg hne]
    rw [← hNode, Truncates, Truncates, hCall]
  · have hCall : dandelionFtruncate P fd n x.state =
        if ¬ hasBit (x.state.openFiles fd).openFlags oWRONLY then
        .ok (-(eBADF : Int), x.state) else truncateNode P file n x.state := by
      rw [dandelionFtruncate, bind_ok (getOpenFile_ok ⟨by omega, by omega⟩), Int.toNat_natCast,
        hFile, if_neg hne]
      split <;> rfl
    rw [← hNode, Truncates, Truncates, hCall]
    by_cases hBit : hasBit (x.state.openFiles fd).openFlags oWRONLY = true
    · rw [if_neg (not_not.mpr hBit)]
      exact ⟨fun h => ⟨hBit, h⟩, fun h => h.2⟩
    · rw [if_pos hBit]
      constructor
      · rintro ⟨s', hRun, -⟩
        have hResult : (-(eBADF : Int)) = 0 := congrArg Prod.fst (Except.ok.inj hRun)
        exact absurd hResult (by decide)
      · rintro ⟨h, -⟩
        exact absurd h hBit

def leadsTo (P : Platform) (s : State) (name : List UInt8) (p : Ptr) : Bool :=
  match findFile P name s with
  | .ok r => decide (r.1 = p)
  | .error _ => false

theorem found_of_leadsTo {name : List UInt8} (h : leadsTo P s name p = true) :
    findFile P name s = .ok (p, s) := by
  rw [leadsTo] at h
  cases hRun : findFile P name s with
  | error e =>
    rw [hRun] at h
    cases h
  | ok r =>
    rw [hRun] at h
    obtain ⟨q, s'⟩ := r
    obtain rfl : s' = s := (readsOnly_findFile name s).result hRun
    obtain rfl : q = p := of_decide_eq_true h
    rfl

theorem truncate_iff_inside : ∃ x, Reachable (Started (.bump 0)) (Stays (.bump 0)) x ∧
    Truncates (.bump 0) x.state (x.state.openFiles 3).file [1, 2] 1
      (dandelionFtruncate (.bump 0) 3 (1 : Nat)) := by
  obtain ⟨x, hx, hTest⟩ := exists_of_boundedRun (P := .bump 0)
    [.openFile [97] (oWRONLY ||| oCREAT) sIRWXU, .write 3 [1, 2] 0 moveOffset]
    (fun x => opened x.state 3 [1, 2] && x.state.memory.wordsBelow &&
      hasBit (x.state.openFiles 3).openFlags oWRONLY && decide ((x.state.openFiles 3).file ≠ 0) &&
      (x.state.memory.files (x.state.openFiles 3).file).any fun f : DFile =>
        (pieces x.state.memory f.link).any fun l : List Piece => decide (l.length = 1))
          (by decide +kernel)
  simp only [Bool.and_eq_true, opened_iff, Option.any_eq_true, decide_eq_true_eq] at hTest
  obtain ⟨⟨⟨⟨⟨f, hf, hType, hc⟩, hWords⟩, hBit⟩, hne⟩, f', hf', l, hl, hOne⟩ := hTest
  obtain rfl : f = f' := Option.mem_unique hf hf'
  have hStays := stays_of_advances hx
  have hLaw := truncate_iff (n := 1) (grants_bump 0) hStays (words_of_below hWords) hne hf hType hc
    (by decide)
  refine ⟨x, hStays, (hLaw.2 3 (by unfold fsMaxFiles; decide) rfl).mpr ⟨hBit, l, hl, ?_, ?_⟩⟩
  · rintro rfl
    cases hOne
  · rw [content, hl, Option.map_some, Option.some.injEq] at hc
    obtain ⟨z, rfl⟩ := List.length_eq_one_iff.mp hOne
    rw [hc, if_pos (by decide)]
    exact Or.inl rfl

theorem Truncates.leaves {call : M Int} {fd : Nat}
    (h : Truncates P s (s.openFiles fd).file c n call) :
    leaves fd (s.openFiles fd).file call s = some (padded c n) := by
  obtain ⟨s', hRun, hLaw⟩ := h
  obtain ⟨f, hf, hContent⟩ := hLaw.becomes
  simp only [FileSystem.leaves, hRun, hf, if_true, Option.bind_some, hContent]

theorem exists_not_truncates (calls : List Call) (c : List UInt8) (n : Nat)
    (h : endsIn
      (fun x => opened x.state 3 c && leadsTo (.bump 0) x.state [97] (x.state.openFiles 3).file &&
        decide (leaves 3 (x.state.openFiles 3).file (dandelionTruncate (.bump 0) [97] n) x.state =
          none))
      (bareRunIf (.bump 0) (fun _ c => decide c.Bounded) calls) = true) :
    ∃ x, Reachable (Started (.bump 0)) (Stays (.bump 0)) x ∧ opened x.state 3 c = true ∧
      findFile (.bump 0) [97] x.state = .ok ((x.state.openFiles 3).file, x.state) ∧
      ¬ Truncates (.bump 0) x.state (x.state.openFiles 3).file c n
        (dandelionTruncate (.bump 0) [97] n) := by
  obtain ⟨x, hx, hTest⟩ := exists_of_boundedRun calls _ h
  rw [Bool.and_eq_true, Bool.and_eq_true, decide_eq_true_eq] at hTest
  obtain ⟨⟨hOpened, hLeads⟩, hNone⟩ := hTest
  refine ⟨x, stays_of_advances hx, hOpened, found_of_leadsTo hLeads, fun hLaw => ?_⟩
  rw [hLaw.leaves] at hNone
  cases hNone

/-- An empty file cannot be cut to nothing, and two chunks cannot be cut in the first one. -/
theorem truncate_fails :
    (∃ x, Reachable (Started (.bump 0)) (Stays (.bump 0)) x ∧ opened x.state 3 [] = true ∧
      findFile (.bump 0) [97] x.state = .ok ((x.state.openFiles 3).file, x.state) ∧
      ¬ Truncates (.bump 0) x.state (x.state.openFiles 3).file [] 0
        (dandelionTruncate (.bump 0) [97] (0 : Nat))) ∧
    ∃ x, Reachable (Started (.bump 0)) (Stays (.bump 0)) x ∧
      opened x.state 3 [1, 2, 0, 0, 0] = true ∧
      findFile (.bump 0) [97] x.state = .ok ((x.state.openFiles 3).file, x.state) ∧
      ¬ Truncates (.bump 0) x.state (x.state.openFiles 3).file [1, 2, 0, 0, 0] 1
        (dandelionTruncate (.bump 0) [97] (1 : Nat)) :=
  ⟨exists_not_truncates [.openFile [97] (oWRONLY ||| oCREAT) sIRWXU] [] 0 (by decide +kernel),
    exists_not_truncates twoChunks [1, 2, 0, 0, 0] 1 (by decide +kernel)⟩

end Law

end Dandelion.FileSystem
