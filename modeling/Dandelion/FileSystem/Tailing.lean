import Dandelion.FileSystem.Capture
import Dandelion.FileSystem.Readers

/-! # Following a file that is written

Any number of readers may follow the files that are captured. Each reader keeps a
chunk and an offset in it. The lists of chunks only grow at their end, so a reader
gets what was written behind the bytes it has, in order and as much as it takes,
whatever is written, created or read in between.
-/

namespace Dandelion.FileSystem

open Foundation.Runs Foundation.Triples

/-- A descriptor that reads the file of a writer and has read these bytes so far. -/
structure Follows (s : State) (r w : Nat) (got : List UInt8) : Prop where
  range : r < fsMaxFiles
  file : (s.openFiles r).file = (s.openFiles w).file
  access : hasBit (s.openFiles r).openFlags oWRONLY = false
  stands : ∀ f l, s.memory.files (s.openFiles r).file = some f → Filed s.memory f.link l →
    StandsAt (s.openFiles r) l got

/-- The sizes with which `dandelion_read` keeps to the buffer: all that is unread fits, or the chunk
where the reader stands has more left. -/
def HasRoom (s : State) (r : Nat) (got : List UInt8) (len : Nat) : Prop :=
  ∃ f l, s.memory.files (s.openFiles r).file = some f ∧ pieces s.memory f.link = some l ∧
    Within l got.length len

/-- The strings written, and for each reader the descriptor of the writer and the bytes read. -/
structure Tailed where
  state : State
  written : Written
  seen : Nat → Option (Nat × List UInt8)

inductive Activity
  | record (q : Recording)
  | follow (name : Path) (flags mode : Nat)
  | get (fd len : Nat) (offset : Int)

inductive Tails (P : Platform) (uses : Nat → Bool) : Tailed → Activity → Tailed → Prop
  | record {x : Tailed} {q : Recording} {y : Captured} : Records P uses ⟨x.state, x.written⟩ q y →
      Tails P uses x (.record q) ⟨y.state, y.written, x.seen⟩
  | follow {x : Tailed} {name : Path} {flags mode w fd : Nat} {s' : State} : x.written w ≠ none →
      findFile P name x.state = .ok ((x.state.openFiles w).file, x.state) →
        hasBit flags oWRONLY = false →
      hasBit flags oTRUNC = false → dandelionOpen P name flags mode x.state = .ok ((fd : Int), s') →
      Tails P uses x (.follow name flags mode)
        ⟨s', x.written, Function.update x.seen fd (some (w, []))⟩
  | get {x : Tailed} {fd len w : Nat} {offset n : Int} {got : List UInt8} {stores : Stores}
      {s' : State} :
      x.seen fd = some (w, got) → HasRoom x.state fd got len → len < 2 ^ 31 →
      dandelionRead P fd len offset moveOffset x.state = .ok ((n, stores), s') →
      Tails P uses x (.get fd len offset)
        ⟨s', x.written, Function.update x.seen fd (some (w, got ++ storedBytes n stores))⟩

def StartsTailing (P : Platform) (x : Tailed) : Prop :=
  StartsRecording P ⟨x.state, x.written⟩ ∧ x.seen = fun _ => none

structure Tailing (uses : Nat → Bool) (x : Tailed) : Prop where
  captures : Captures uses x.written x.state
  readers : ∀ r w got, x.seen r = some (w, got) → x.written r = none ∧ x.written w ≠ none ∧
    Follows x.state r w got

variable {P : Platform} {s s' : State} {uses : Nat → Bool} {written : Written}
  {c got bytes : List UInt8} {fd r w len : Nat} {f : DFile} {offset n : Int} {flags : Nat}
  {x : Tailed}

section Frames

theorem other_of_update {o : OpenFile} {i : Nat} (hVacant : (s.openFiles fd).file = 0)
    (hTable : s'.openFiles = Function.update s.openFiles fd o) (hi : (s.openFiles i).file ≠ 0) :
    i ≠ fd ∧ s'.openFiles i = s.openFiles i := by
  have hne : i ≠ fd := by
    rintro rfl
    exact hi hVacant
  exact ⟨hne, by rw [hTable, Function.update_of_ne hne]⟩

theorem Captures.writer (h : Captures uses written s) (hw : written w ≠ none) :
    ∃ c, written w = some c ∧ HoldsString uses s w c := by
  obtain ⟨c, hc⟩ := Option.ne_none_iff_exists'.mp hw
  exact ⟨c, hc, h.holds w c hc⟩

theorem Captures.frame (h : Captures uses written s) (hKeeps : Keeps s.memory s'.memory)
    (hTable : ∀ i, written i ≠ none → s'.openFiles i = s.openFiles i) :
    Captures uses written s' := by
  refine ⟨hKeeps.orderly h.orderly, fun i c hc => ?_, fun i j hi hj hne => ?_⟩
  · obtain ⟨f, l, hf, hl, hDense, hFlat, hLast⟩ := h.holds i c hc
    have hEntry := hTable i (by rw [hc]; simp)
    obtain ⟨f', hf', hLink⟩ := hf.keep hEntry hKeeps
    exact ⟨f', l, hf', hLink ▸ hKeeps.filed hl, hDense, hFlat, by rw [hEntry]; exact hLast⟩
  · rw [hTable i hi, hTable j hj]
    exact h.apart i j hi hj hne

theorem Follows.frame (h : Follows s r w got) (hWriter : HoldsString uses s w c)
    (hKeeps : Keeps s.memory s'.memory) (hr : s'.openFiles r = s.openFiles r)
    (hw : s'.openFiles w = s.openFiles w) : Follows s' r w got := by
  refine ⟨h.range, by rw [hr, hw, h.file], by rw [hr]; exact h.access, fun f' l' hf' hl' => ?_⟩
  obtain ⟨f, l, hf, hl, -⟩ := hWriter
  have hNode : s.memory.files (s.openFiles r).file = some f := by rw [h.file, hf.node]
  obtain ⟨e, he, -, hLink⟩ := hKeeps.old _ f hNode
  rw [hr] at hf' ⊢
  obtain rfl := Option.mem_unique hf' he
  rw [hLink hf.regular] at hl'
  rw [hl'.unique (hKeeps.filed hl)]
  exact h.stands f l hNode hl

theorem Follows.opened (h : Follows s r w got) (hWriter : HoldsString uses s w c) :
    (s.openFiles r).file ≠ 0 := by
  obtain ⟨f, l, hf, -⟩ := hWriter
  rw [h.file]
  exact hf.opened

theorem Opens.follows (h : Opens s s' fd (s.openFiles w).file f flags)
    (hWriter : HoldsString uses s w c) (hf : s.memory.files (s.openFiles w).file = some f)
    (hAccess : hasBit flags oWRONLY = false) : Follows s' fd w [] := by
  obtain ⟨e, l, he, hl, -⟩ := hWriter
  obtain rfl := Option.mem_unique hf he.node
  have hEntry : s'.openFiles fd =
      ⟨(s.openFiles w).file, f.link, 0, (flags &&& oACCMODE) ||| (flags &&& oAPPEND)⟩ := by
    rw [h.openFiles, if_pos he.regular]
    exact Function.update_self _ _ _
  have hw : s'.openFiles w = s.openFiles w := (other_of_update h.vacant h.openFiles he.opened).2
  have hBit : flags &&& oWRONLY = 0 := by simpa [hasBit] using hAccess
  refine ⟨Int.ofNat_lt.mp h.result.2, by rw [hEntry, hw], ?_, fun f' l' hf' hl' => ?_⟩
  · rw [hEntry, hasBit]
    show (((flags &&& oACCMODE ||| flags &&& oAPPEND) &&& oWRONLY) != 0) = false
    rw [Nat.and_or_distrib_right, Nat.and_assoc, Nat.and_assoc,
      show oACCMODE &&& oWRONLY = oWRONLY by decide, hBit, show oAPPEND &&& oWRONLY = 0 by decide,
      Nat.and_zero]
    rfl
  · rw [hEntry] at hf' ⊢
    obtain ⟨e', he', -, hLink⟩ := h.keeps.old _ f hf
    obtain rfl := Option.mem_unique hf' he'
    rw [hLink he.regular] at hl'
    exact .start _ hl'

/-- What is written to the file of a reader goes behind the place where it stands, and what is
written to another file does not touch it. -/
theorem Follows.put (h : Follows s r w got) (hCaptures : Captures uses written s)
    (hGrants : P.Grants)
    (hc : written fd = some c) (hPuts : Puts uses c bytes fd offset)
    (hRun : writeAs P uses fd bytes offset s = .ok (n, s')) (hr : written r = none)
    (hw : written w ≠ none) : Follows s' r w got := by
  obtain ⟨hne, hLen, hOffset⟩ := hPuts
  obtain ⟨f, l, hf, hl, hDense, rfl, hLast⟩ := hCaptures.holds fd c hc
  obtain ⟨l', link, current, inside, t, hOk, hTable, hFiles, hl', hChanges, hExtended, -⟩ :=
    dandelionWrite_grows hGrants hf hl hDense hne hLen hOffset hLast
  obtain rfl : s' = t := (ok_unique hRun hOk).2
  have hrd : r ≠ fd := by
    rintro rfl
    rw [hr] at hc
    cases hc
  have hEntry : s'.openFiles r = s.openFiles r := by
    rw [hTable]
    exact Function.update_of_ne hrd _ _
  have hFile : (s'.openFiles w).file = (s.openFiles w).file := by
    rw [hTable]
    by_cases hwd : w = fd
    · subst hwd
      rw [Int.toNat_natCast, Function.update_self]
    · rw [Int.toNat_natCast, Function.update_of_ne hwd]
  refine ⟨h.range, by rw [hEntry, hFile, h.file], by rw [hEntry]; exact h.access,
    fun f' k' hf' hk' => ?_⟩
  rw [hEntry] at hf' ⊢
  rw [hFiles, h.file] at hf'
  obtain ⟨-, -, e, k, he, hk, -⟩ := hCaptures.writer hw
  have hStands := h.stands e k (by rw [h.file, he.node]) hk
  by_cases hwd : w = fd
  · subst hwd
    rw [Function.update_self] at hf'
    obtain rfl := Option.some.inj hf'
    obtain rfl := Option.mem_unique hf.node he.node
    obtain rfl := hl.unique hk
    rw [hk'.unique hl']
    exact hStands.extended hExtended
  · have hApart := hCaptures.apart w fd hw (by rw [hc]; simp) hwd
    rw [Function.update_of_ne hApart, he.node] at hf'
    obtain rfl := Option.some.inj hf'
    have hClear :=
      hCaptures.orderly.clear _ _ e f k l hApart he.node hf.node he.regular hf.regular hk hl
    rw [hk'.unique (hChanges.frame hk hClear).1]
    exact hStands

end Frames

section Law

theorem Follows.readable (h : Follows s r w got) (hWriter : HoldsString uses s w c) :
    ∃ f l, ReadableAt s r (s.openFiles r) f ∧ Filed s.memory f.link l ∧ flat l = c ∧
      StandsAt (s.openFiles r) l got := by
  have hOpened := h.opened hWriter
  obtain ⟨f, l, hf, hl, -, hFlat, -⟩ := hWriter
  have hNode : s.memory.files (s.openFiles r).file = some f := by rw [h.file, hf.node]
  have hStands := h.stands f l hNode hl
  refine ⟨f, l, ⟨⟨Int.natCast_nonneg _, Int.ofNat_lt.mpr h.range⟩, rfl, hOpened, h.access, hNode,
    hf.regular, ?_⟩, hl, hFlat,
    hStands⟩
  rcases hStands with ⟨-, hZero, -⟩ | ⟨a, z, b, rfl, -, hOffset, -⟩
  · rw [hZero]
    decide
  · have hz : z ∈ a ++ z :: b := by simp
    obtain ⟨block, hHolds⟩ := hl.holds z hz
    rw [hl.stored.bytes_length hz] at hOffset
    exact Nat.lt_of_le_of_lt (hOffset.trans hHolds.used) hHolds.word

theorem Tailing.record {q : Recording} {y : Captured} (h : Tailing uses x) (hGrants : P.Grants)
    (hStep : Records P uses ⟨x.state, x.written⟩ q y) :
    Tailing uses ⟨y.state, y.written, x.seen⟩ := by
  cases hStep with
  | @create name flags mode fd s' hAbsent _ _ hAppend hTrunc _ hOpen =>
    obtain ⟨p, hOpens⟩ := dandelionOpen_creates hAbsent hTrunc hOpen (Int.natCast_nonneg _)
    refine ⟨h.captures.opens hOpens hAppend, fun r w got hSeen => ?_⟩
    obtain ⟨hr, hw, hFollows⟩ := h.readers r w got hSeen
    obtain ⟨c, -, hWriter⟩ := h.captures.writer hw
    have hr' := other_of_update hOpens.vacant hOpens.openFiles (hFollows.opened hWriter)
    have hw' : w ≠ fd ∧ s'.openFiles w = x.state.openFiles w :=
      other_of_update hOpens.vacant hOpens.openFiles (hFollows.file ▸ hFollows.opened hWriter)
    refine ⟨?_, ?_, hFollows.frame hWriter hOpens.keeps hr'.2 hw'.2⟩
    · exact (Function.update_of_ne hr'.1 _ _).trans hr
    · show Function.update x.written fd (some []) w ≠ none
      rwa [Function.update_of_ne hw'.1]
  | @put fd bytes c offset n s' hc hPuts hRun =>
    obtain ⟨t, hOk, hAfter⟩ := h.captures.put hGrants hc hPuts
    obtain rfl : s' = t := (ok_unique hRun hOk).2
    refine ⟨hAfter, fun r w got hSeen => ?_⟩
    obtain ⟨hr, hw, hFollows⟩ := h.readers r w got hSeen
    have hrd : r ≠ fd := by
      rintro rfl
      rw [show x.written r = some c from hc] at hr
      cases hr
    refine ⟨(Function.update_of_ne hrd _ _).trans hr, ?_,
      hFollows.put h.captures hGrants hc hPuts hRun hr hw⟩
    show Function.update x.written fd (some (c ++ bytes)) w ≠ none
    by_cases hwd : w = fd
    · rw [hwd, Function.update_self]
      simp
    · rwa [Function.update_of_ne hwd]

theorem Tailing.with_reader (h : Tailing uses x) (hKeeps : Keeps x.state.memory s'.memory)
    (hNone : x.written fd = none) (hw : x.written w ≠ none)
    (hWriters : ∀ i, x.written i ≠ none → s'.openFiles i = x.state.openFiles i)
    (hFollows : Follows s' fd w got)
    (hOther : ∀ r, r ≠ fd → (x.state.openFiles r).file ≠ 0 → s'.openFiles r = x.state.openFiles r) :
    Tailing uses ⟨s', x.written, Function.update x.seen fd (some (w, got))⟩ := by
  refine ⟨h.captures.frame hKeeps hWriters, fun r v got' hSeen => ?_⟩
  change Function.update x.seen fd (some (w, got)) r = some (v, got') at hSeen
  by_cases hr : r = fd
  · subst hr
    rw [Function.update_self] at hSeen
    obtain ⟨rfl, rfl⟩ := Prod.mk.inj (Option.some.inj hSeen)
    exact ⟨hNone, hw, hFollows⟩
  · rw [Function.update_of_ne hr] at hSeen
    obtain ⟨hNone', hv, hFollows'⟩ := h.readers r v got' hSeen
    obtain ⟨d, -, hWriter⟩ := h.captures.writer hv
    exact ⟨hNone', hv, hFollows'.frame hWriter hKeeps (hOther r hr (hFollows'.opened hWriter))
      (hWriters v hv)⟩

theorem Tailing.follow {name : Path} {mode : Nat} (h : Tailing uses x) (hw : x.written w ≠ none)
    (hFind : findFile P name x.state = .ok ((x.state.openFiles w).file, x.state))
    (hAccess : hasBit flags oWRONLY = false) (hTrunc : hasBit flags oTRUNC = false)
    (hOpen : dandelionOpen P name flags mode x.state = .ok ((fd : Int), s')) :
    Tailing uses ⟨s', x.written, Function.update x.seen fd (some (w, []))⟩ := by
  obtain ⟨c, -, hWriter⟩ := h.captures.writer hw
  obtain ⟨f, -, hf, -⟩ := id hWriter
  have hOpens : Opens x.state s' fd (x.state.openFiles w).file f flags := by
    rw [dandelionOpen, bind_ok hFind] at hOpen
    split at hOpen
    · obtain ⟨hEq, -⟩ := Prod.mk.inj (Except.ok.inj hOpen)
      exact absurd hEq (by simp [eEXIST])
    · rw [if_neg hf.opened] at hOpen
      exact (ensures_openDescriptor hTrunc hf.node).result hOpen (Int.natCast_nonneg _)
  have hWriters : ∀ i, x.written i ≠ none → i ≠ fd ∧ s'.openFiles i = x.state.openFiles i := by
    intro i hi
    obtain ⟨-, -, e, -, he, -⟩ := h.captures.writer hi
    exact other_of_update hOpens.vacant hOpens.openFiles he.opened
  have hNone : x.written fd = none := by
    by_contra hNot
    exact (hWriters fd hNot).1 rfl
  refine h.with_reader hOpens.keeps hNone hw (fun i hi => (hWriters i hi).2)
    (hOpens.follows hWriter hf.node hAccess)
    fun r _ hr => ?_
  exact (other_of_update hOpens.vacant hOpens.openFiles hr).2

theorem Tailing.hasRoom (fd len : Nat) (h : Tailing uses x) (hSeen : x.seen fd = some (w, got))
    (hc : x.written w = some c) (hFits : c.length - got.length ≤ len) :
    HasRoom x.state fd got len := by
  obtain ⟨-, -, hFollows⟩ := h.readers fd w got hSeen
  obtain ⟨f, l, hReadable, hl, rfl, -⟩ := hFollows.readable (h.captures.holds w c hc)
  exact ⟨f, l, hReadable.node, pieces_eq_some.mpr hl.stored, Or.inl hFits⟩

theorem Tailing.read (fd len : Nat) (h : Tailing uses x) (hSeen : x.seen fd = some (w, got))
    (hc : x.written w = some c) (hRoom : HasRoom x.state fd got len) (hLen : len < 2 ^ 31)
    (offset : Int) :
    ∃ s', dandelionRead P fd len offset moveOffset x.state =
        .ok (((min len (c.length - got.length) : Nat),
          Stores.empty.put 0 ((c.drop got.length).take len)), s') ∧
      got <+: c ∧
        Tailing uses ⟨s', x.written,
          Function.update x.seen fd (some (w, c.take (got.length + len)))⟩ := by
  obtain ⟨hr, hw, hFollows⟩ := h.readers fd w got hSeen
  obtain ⟨f, l, hReadable, hl, rfl, hStands⟩ := hFollows.readable (h.captures.holds w c hc)
  obtain ⟨e, k, he, hk, hWithin⟩ := hRoom
  obtain rfl := Option.mem_unique hReadable.node he
  obtain rfl := Option.mem_unique (pieces_eq_some.mpr hl.stored) hk
  obtain ⟨o', hRun, hFile, hFlags, hEnd⟩ :=
    dandelionRead_good (P := P) offset hReadable hl hStands hLen hWithin
  refine ⟨_, hRun, hStands.isPrefix, ?_⟩
  have hOther : ∀ i, i ≠ fd → Function.update x.state.openFiles fd o' i = x.state.openFiles i :=
    fun i hi => Function.update_of_ne hi _ _
  have hWriters : ∀ i, x.written i ≠ none → i ≠ fd := by
    rintro i hi rfl
    exact hi hr
  refine h.with_reader (Keeps.refl _) hr hw (fun i hi => hOther i (hWriters i hi)) ?_ fun r hne _ =>
    hOther r hne
  refine ⟨hFollows.range, ?_, ?_, fun f' l' hf' hl' => ?_⟩
  · show (Function.update x.state.openFiles fd o' fd).file =
      (Function.update x.state.openFiles fd o' w).file
    rw [Function.update_self, hOther w (hWriters w hw), hFile, hFollows.file]
  · show hasBit (Function.update x.state.openFiles fd o' fd).openFlags oWRONLY = false
    rw [Function.update_self, hFlags]
    exact hFollows.access
  · change x.state.memory.files (Function.update x.state.openFiles fd o' fd).file = some f' at hf'
    show StandsAt (Function.update x.state.openFiles fd o' fd) l' _
    rw [Function.update_self] at hf' ⊢
    rw [hFile, hReadable.node] at hf'
    obtain rfl := Option.some.inj hf'
    rw [Filed.unique hl' hl]
    exact hEnd

theorem tailing_of_reachable (hGrants : P.Grants)
    (h : Reachable (StartsTailing P) (Tails P uses) x) : Tailing uses x := by
  refine h.invariant (Tailing uses) (fun x hStart => ?_) fun x q y hTailing hStep => ?_
  · obtain ⟨hRecording, hSeen⟩ := hStart
    refine ⟨captures_of_reachable (x := ⟨x.state, x.written⟩) hGrants (.init hRecording),
      fun r w got hr => ?_⟩
    rw [hSeen] at hr
    cases hr
  · cases hStep with
    | record hRecord => exact hTailing.record hGrants hRecord
    | follow hw hFind hAccess hTrunc hOpen => exact hTailing.follow hw hFind hAccess hTrunc hOpen
    | @get fd len w offset n got stores s' hSeen hRoom hLen hRun =>
      obtain ⟨-, hw, -⟩ := hTailing.readers fd w got hSeen
      obtain ⟨c, hc⟩ := Option.ne_none_iff_exists'.mp hw
      obtain ⟨t, hOk, hPrefix, hAfter⟩ := hTailing.read (P := P) fd len hSeen hc hRoom hLen offset
      obtain ⟨hResult, rfl⟩ := ok_unique hRun hOk
      obtain ⟨rfl, rfl⟩ := Prod.mk.inj hResult
      rw [List.take_add, ← List.prefix_iff_eq_take.mp hPrefix] at hAfter
      rwa [← length_take_drop, storedBytes_put]

/-- In every run, a reader has read a beginning of what was written to its file. A read that keeps
to its buffer returns what follows, as much as it asks for, stores these bytes and no others, and
leaves the content as it is. -/
theorem readers_follow (hGrants : P.Grants) (h : Reachable (StartsTailing P) (Tails P uses) x)
    (hSeen : x.seen r = some (w, got)) :
    ∃ c, x.written w = some c ∧ contentOf x.state w = some c ∧ got <+: c ∧
      (∀ len, c.length - got.length ≤ len → HasRoom x.state r got len) ∧
      ∀ len offset, HasRoom x.state r got len → len < 2 ^ 31 →
        ∃ s', dandelionRead P r len offset moveOffset x.state =
            .ok (((min len (c.length - got.length) : Nat),
              Stores.empty.put 0 ((c.drop got.length).take len)), s') ∧
          contentOf s' w = some c := by
  have hTailing := tailing_of_reachable hGrants h
  obtain ⟨-, hw, hFollows⟩ := hTailing.readers r w got hSeen
  obtain ⟨c, hc, hWriter⟩ := hTailing.captures.writer hw
  obtain ⟨f, l, -, -, rfl, hStands⟩ := hFollows.readable hWriter
  refine ⟨_, hc, hWriter.contentOf_eq, hStands.isPrefix, fun len => hTailing.hasRoom r len hSeen hc,
    fun len offset hRoom hLen => ?_⟩
  obtain ⟨s', hRun, -, hAfter⟩ := hTailing.read (P := P) r len hSeen hc hRoom hLen offset
  exact ⟨s', hRun, (hAfter.captures.holds w _ hc).contentOf_eq⟩

/-- The standard output is followed while it is written. -/
theorem readers_follow_stdout :
    ∃ x, Reachable (StartsTailing (.bump 0)) (Tails (.bump 0) fun _ => false) x ∧
    x.seen 3 = some (1, [1, 2]) ∧ ∃ s', dandelionRead (.bump 0) 3 9 0 moveOffset x.state =
      .ok ((1, Stores.empty.put 0 [7]), s') := by
  have hGrants := grants_bump 0
  have hChecks : passes (fsInitialize (.bump 0) [] [] bareState) (fun r => r.1.1 = 0 ∧
      (passes (findFile (.bump 0) (stdioName ++ slash :: stdoutName) r.2) fun b =>
        b.1 = (r.2.openFiles 1).file) = true ∧
      passes (dandelionOpen (.bump 0) (stdioName ++ slash :: stdoutName) oRDONLY 0 r.2)
        (fun b => b.1 = 3) = true) =
      true := by decide +kernel
  obtain ⟨⟨⟨code, a⟩, s⟩, hInit, hTest⟩ := exists_of_passes hChecks
  obtain ⟨hCode, hFound, hOpened⟩ := of_decide_eq_true hTest
  obtain rfl : code = 0 := hCode
  obtain ⟨⟨found, s'⟩, hFind, hFile⟩ := exists_of_passes hFound
  obtain ⟨⟨fd, s₁⟩, hOpen, hThree⟩ := exists_of_passes hOpened
  obtain rfl : found = (s.openFiles 1).file := of_decide_eq_true hFile
  obtain rfl : fd = 3 := of_decide_eq_true hThree
  obtain rfl : s' = s := (readsOnly_findFile _ s).result hFind
  have h₀ : Reachable (StartsTailing (.bump 0)) (Tails (.bump 0) fun _ => false)
    ⟨s', fun i => if i ∈ [1, 2] then some [] else none, fun _ => none⟩ :=
    .init ⟨⟨⟨[], bareState, a, boots_bareState, hInit⟩, rfl⟩, rfl⟩
  have h₁ := h₀.step
    (.follow (w := 1) (Option.some_ne_none []) hFind (show hasBit oRDONLY oWRONLY = false by decide)
    (show hasBit oRDONLY oTRUNC = false by decide) hOpen)
  have hPuts : Puts (fun _ => false) [] [1, 2] 1 0 := ⟨by decide, by decide, fun h => by cases h⟩
  obtain ⟨s₂, hRun, -⟩ := (tailing_of_reachable hGrants h₁).captures.put hGrants rfl hPuts
  have h₂ := h₁.step (.record (.put rfl hPuts hRun))
  have hTailing := tailing_of_reachable hGrants h₂
  have hRoom := hTailing.hasRoom 3 9 rfl rfl (show 2 - 0 ≤ 9 by decide)
  obtain ⟨s₃, hRead, -⟩ := hTailing.read (P := .bump 0) 3 9 rfl rfl hRoom (by decide) 0
  have h₃ := h₂.step (.get rfl hRoom (by decide) hRead)
  have hPuts' : Puts (fun _ => false) [1, 2] [7] 1 0 := ⟨by decide, by decide, fun h => by cases h⟩
  obtain ⟨s₄, hRun', -⟩ := (tailing_of_reachable hGrants h₃).captures.put hGrants rfl hPuts'
  have h₄ := h₃.step (.record (.put rfl hPuts' hRun'))
  obtain ⟨c, hc, -, -, hAll, hRest⟩ := readers_follow (r := 3) (w := 1) hGrants h₄ rfl
  obtain rfl : [1, 2, 7] = c := Option.some.inj hc
  obtain ⟨s', hLast, -⟩ := hRest 9 0 (hAll 9 (by decide)) (by decide)
  exact ⟨_, h₄, rfl, s', hLast⟩

end Law

end Dandelion.FileSystem
