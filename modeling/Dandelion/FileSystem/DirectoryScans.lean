import Dandelion.FileSystem.StreamFronts

/-! # Scans of a directory that changes

A scan reads a directory stream to its end while entries of the directory are
made and removed. What was returned stays the front of the list in every scan in
which removals and new entries stay behind it, and then nothing is left out.
-/

namespace Dandelion.FileSystem

open Foundation.Runs Foundation.Triples

/-- A directory stream, the entries that were there when it was opened and those it has returned. -/
structure Scan where
  state : State
  dir : Ptr
  child : Nat
  present : List Ptr
  returned : List Ptr

inductive ScanCall where
  | readdir
  | unlink (name : List UInt8)
  | rmdir (name : List UInt8)
  | openFile (name : List UInt8) (flags mode : Nat)
  | mkdir (name : List UInt8) (mode : Nat)

def target (P : Platform) (s : State) (names : List Path) : Ptr :=
  match findFrom P fsRoot names s with
  | .ok r => r.1
  | .error _ => 0

def lastOf (name : List UInt8) : Path := (components (pathOf name)).getLastD []

def namesEntry (P : Platform) (s : State) (d : Ptr) (name : List UInt8) : Bool :=
  components (pathOf name) ≠ [] && lastOf name ≠ [dot] && lastOf name ≠ [dot, dot] &&
    target P s (components (pathOf name)).dropLast = d

namespace Scan

variable (P : Platform) (x : Scan)

/-- The call concerns an entry of the directory that is scanned. -/
def admits : ScanCall → Bool
  | .readdir => true
  | .unlink name | .rmdir name | .openFile name _ _ | .mkdir name _ =>
    namesEntry P x.state x.dir name

/-- The entry at the offset of what was read is what the stream returned. -/
def record (child : Nat) (entry : Option Dirent) (s : State) : Scan :=
  { x with
    state := s
    child := child
    returned := x.returned ++
      (entry.bind fun e => (entriesAt x.state.memory x.dir)[e.dOff]?).toList }

def perform : ScanCall → Except Fault Scan
  | .readdir => do
    let ((_, child, entry), s) ← dandelionReaddir x.dir x.child x.state
    pure (x.record child entry s)
  | .unlink name => do
    let (_, s) ← dandelionUnlink P name x.state
    pure { x with state := s }
  | .rmdir name => do
    let (_, s) ← dandelionRmdir P name x.state
    pure { x with state := s }
  | .openFile name flags mode => do
    let (_, s) ← dandelionOpen P name flags mode x.state
    pure { x with state := s }
  | .mkdir name mode => do
    let (_, s) ← dandelionMkdir P name mode x.state
    pure { x with state := s }

/-- The entries in front of the position of the stream. -/
def front : List Ptr := (entriesAt x.state.memory x.dir).take x.child

def createsBehind (name : List UInt8) : Bool :=
  (pathOf name).getLast? ≠ some slash &&
    (target P x.state (components (pathOf name)) ≠ 0 ||
      x.front.all fun q => ¬ nameKey P.signedChar (lastOf name) (lastOf name).length <
        keyOf P x.state.memory q)

/-- The call neither removes nor makes an entry in front of the position of the stream. -/
def behind : ScanCall → Bool
  | .readdir => true
  | .unlink name | .rmdir name => target P x.state (components (pathOf name)) ∉ x.front
  | .openFile name _ _ | .mkdir name _ => x.createsBehind P name

def ended : Bool :=
  match dandelionReaddir x.dir x.child x.state with
  | .ok r => r.1.2.2.isNone
  | .error _ => false

/-- What was there from the opening of the stream to its end was returned once. -/
def Complete : Prop :=
  x.ended = true → ∀ p ∈ x.present, p ∈ entriesAt x.state.memory x.dir → x.returned.count p = 1

end Scan

def ScanStarts (P : Platform) (x : Scan) : Prop :=
  x.child = 0 ∧ x.returned = [] ∧ x.present = entriesAt x.state.memory x.dir ∧
    ∃ y name, Reachable (Started P) (Proceeds P) y ∧
      dandelionOpendir P name y.state = .ok ((0, x.dir), x.state)

def Scans (P : Platform) (x : Scan) (c : ScanCall) (y : Scan) : Prop :=
  x.admits P c = true ∧ x.perform P c = .ok y

def ScansBehind (P : Platform) (x : Scan) (c : ScanCall) (y : Scan) : Prop :=
  x.behind P c = true ∧ Scans P x c y

variable {P : Platform} {s s' : State} {L : Ptr → List Ptr} {x y : Scan} {d p : Ptr}
  {name : List UInt8} {c : ScanCall} {front : List Ptr}

section Steps

theorem target_ok {names : List Path} {r : Ptr} (h : findFrom P fsRoot names s = .ok (r, s')) :
    target P s names = r := by
  rw [target, h]

theorem findFrom_target (h : Listing P s.memory L) (names : List Path) :
    findFrom P fsRoot names s = .ok (target P s names, s) := by
  rw [target, findFrom_ok h .root names]

theorem target_of_findFile (h : findFile P name s = .ok (p, s')) :
    target P s (components (pathOf name)) = p := by
  have hAll : Ensures (findFile P name) s fun r _ => target P s (components (pathOf name)) = r := by
    rw [findFile]
    refine (ensures_pathFromString name).bind fun path s₁ hRead => ?_
    obtain ⟨rfl, rfl, -⟩ := hRead
    exact (Meets.self _ _).imp fun _ _ hRun => target_ok hRun
  exact hAll.result h

theorem components_split (h : components (pathOf name) ≠ []) :
    components (pathOf name) = (components (pathOf name)).dropLast ++ [lastOf name] := by
  rw [lastOf, List.getLastD_eq_getLast?, List.getLast?_eq_getLast_of_ne_nil h, Option.getD_some,
    List.dropLast_append_getLast h]

theorem namesEntry_iff : namesEntry P s d name = true ↔ components (pathOf name) ≠ [] ∧
    lastOf name ≠ [dot] ∧
    lastOf name ≠ [dot, dot] ∧ target P s (components (pathOf name)).dropLast = d := by
  simp only [namesEntry, Bool.and_eq_true, decide_eq_true_eq, and_assoc]

theorem entry_of_namesEntry (h : Listing P s.memory L) (hd : isDirectory s.memory d = true)
    (hName : namesEntry P s d name = true) (hFound : findFile P name s = .ok (p, s)) :
    p = 0 ∨ p ∈ entriesAt s.memory d := by
  obtain ⟨hne, hDot, hDots, hDir⟩ := namesEntry_iff.mp hName
  have hShort := (ensures_findFile_short (P := P) (s := s) name).result hFound
  rw [findFile_entry h hd hShort (components_split hne) (hDir ▸ findFrom_target h _), stepTo,
    if_neg hDot, if_neg hDots] at hFound
  obtain rfl : lookupIn s.memory (lastOf name) (L d) = p := congrArg Prod.fst (Except.ok.inj hFound)
  rw [entriesAt_eq h hd]
  exact or_iff_not_imp_left.mpr fun hSome => (lookupIn_mem hSome).1

theorem endsPlain_of_namesEntry (hName : namesEntry P s d name = true)
    (hShort : (pathOf name).length < fsPathLength) (hEnd : (pathOf name).getLast? ≠ some slash) :
    EndsPlain (pathOf name) (components (pathOf name)).dropLast (lastOf name) := by
  obtain ⟨hne, -, -, -⟩ := namesEntry_iff.mp hName
  have hPath : pathOf name ≠ [] := fun h => hne (by rw [h]; rfl)
  rcases ends_cases hPath hShort with ⟨dirs, last, h⟩ | ⟨file, h⟩
  · obtain ⟨hDirs, hLast⟩ := List.append_inj' ((components_split hne).symm.trans h.components) rfl
    rw [hDirs, (List.cons.inj hLast).1]
    exact h
  · exact absurd h.ends hEnd

end Steps

section Invariant

/-- What was returned is the front of the list, up to the position of the stream. -/
def Scan.Follows (P : Platform) (x : Scan) : Prop :=
  x.returned.length = x.child ∧ Fronts P x.dir x.returned x.state

theorem Scan.Follows.front_eq (h : x.Follows P) : x.front = x.returned := by
  obtain ⟨hLength, L, hSteady, hd, hFront⟩ := h
  rw [Scan.front, entriesAt_eq hSteady.listing hd, ← hLength]
  exact (List.prefix_iff_eq_take.mp hFront).symm

theorem follows_of_starts (hP : P.Linkable) (h : ScanStarts P x) : x.Follows P := by
  obtain ⟨hChild, hReturned, -, y, name, hy, hOpen⟩ := h
  obtain ⟨L, hSteady⟩ := steady_of_reachable hP hy
  have hAll : Ensures (dandelionOpendir P name) y.state fun r s => r.1 = 0 → Fronts P r.2 [] s := by
    rw [dandelionOpendir]
    refine (readsOnly_findFile name).seq fun current => ?_
    refine .ite (fun _ => .pure fun h => absurd h (by decide)) fun _ =>
      ensures_file fun f _ hf => ?_
    refine .ite (fun _ => .pure fun h => absurd h (by decide)) fun hType => ?_
    have hd := isDirectory_iff.mpr ⟨f, hf, not_not.mp hType⟩
    exact Meets.bind ((hSteady.recount current _).and
      (modifyFile_directory hd current (by intro _; rfl))) fun _ s₃ h₃ =>
      .pure fun _ => ⟨L, h₃.1, h₃.2, List.nil_prefix⟩
  refine ⟨by rw [hReturned, hChild]; rfl, ?_⟩
  rw [hReturned]
  exact hAll.result hOpen rfl

theorem Scan.Follows.read (h : x.Follows P) (hRun : x.perform P .readdir = .ok y) :
    y.Follows P := by
  obtain ⟨hLength, L, hSteady, hd, hFront⟩ := h
  cases hAt : (L x.dir)[x.child]? with
  | none =>
    obtain ⟨r, hEnd⟩ := dandelionReaddir_end hSteady.listing hd (List.getElem?_eq_none_iff.mp hAt)
    rw [Scan.perform, hEnd] at hRun
    obtain rfl := Except.ok.inj hRun
    refine ⟨?_, L, hSteady, hd, ?_⟩
    · simpa [Scan.record] using hLength
    · simpa [Scan.record] using hFront
  | some p =>
    obtain ⟨f, hf, -⟩ := hSteady.listing.live (List.mem_of_getElem? hAt)
    rw [Scan.perform, dandelionReaddir_entry hSteady.listing hd hAt hf] at hRun
    obtain rfl := Except.ok.inj hRun
    have hNew : (x.record (x.child + 1) (some ⟨x.child, 0, if f.type = .file then dtREG else dtDIR,
        f.name.take (min 256 fsNameLength - 1)⟩) x.state).returned = x.returned ++ [p] := by
      rw [Scan.record, Option.bind_some, entriesAt_eq hSteady.listing hd, hAt]
      rfl
    refine ⟨?_, L, hSteady, hd, ?_⟩
    · rw [hNew, List.length_append, hLength]
      rfl
    · rw [hNew, List.prefix_iff_eq_take.mp hFront, hLength]
      have hNext : (L x.dir).take (x.child + 1) = (L x.dir).take x.child ++ [p] := by
        rw [List.take_add_one, hAt]
        rfl
      exact hNext ▸ List.take_prefix _ _

theorem Scan.Follows.step (hP : P.Linkable) (h : x.Follows P) (hStep : ScansBehind P x c y) :
    y.Follows P := by
  obtain ⟨hBehind, hAdmits, hRun⟩ := hStep
  obtain ⟨hLength, hFronts⟩ := id h
  obtain ⟨L, hSteady, hd, -⟩ := id hFronts
  -- the calls that only change the state
  have hCall : ∀ {call : M Int}, Ensures call x.state (fun _ s => Fronts P x.dir x.returned s) →
      (do let (_, s) ← call x.state; pure { x with state := s } : Except Fault Scan) = .ok y →
        y.Follows P := by
    intro call hEnsures hRun
    cases hResult : call x.state with
    | error e =>
      rw [hResult] at hRun
      cases hRun
    | ok r =>
      rw [hResult] at hRun
      obtain rfl := Except.ok.inj hRun
      exact ⟨hLength, hEnsures.result hResult⟩
  have hRemoved : ∀ {name : List UInt8}, namesEntry P x.state x.dir name = true →
      target P x.state (components (pathOf name)) ∉ x.front →
        ∀ p, findFile P name x.state = .ok (p, x.state) →
        p = 0 ∨ p ∈ entriesAt x.state.memory x.dir ∧ p ∉ x.returned := by
    intro name hName hNot p hFound
    rw [target_of_findFile hFound, h.front_eq] at hNot
    exact (entry_of_namesEntry hSteady.listing hd hName hFound).imp_right fun hMem => ⟨hMem, hNot⟩
  have hMade : ∀ {name : List UInt8}, namesEntry P x.state x.dir name = true →
      x.createsBehind P name = true →
      ((pathOf name).length < fsPathLength →
        EndsPlain (pathOf name) (components (pathOf name)).dropLast (lastOf name)) ∧
      findFrom P fsRoot (components (pathOf name)).dropLast x.state = .ok (x.dir, x.state) ∧
      (findFile P name x.state = .ok (0, x.state) → ∀ q ∈ x.returned,
        ¬ nameKey P.signedChar (lastOf name) (lastOf name).length < keyOf P x.state.memory q) := by
    intro name hName hCreates
    obtain ⟨-, -, -, hDir⟩ := namesEntry_iff.mp hName
    rw [Scan.createsBehind, Bool.and_eq_true, Bool.or_eq_true, decide_eq_true_eq, decide_eq_true_eq,
      List.all_eq_true] at hCreates
    refine ⟨fun hShort => endsPlain_of_namesEntry hName hShort hCreates.1, ?_,
      fun hFound q hq => ?_⟩
    · rw [findFrom_target hSteady.listing, hDir]
    · have hAll := hCreates.2.resolve_left (not_not.mpr (target_of_findFile hFound))
      exact of_decide_eq_true (hAll q (h.front_eq ▸ hq))
  cases c with
  | readdir => exact h.read hRun
  | unlink name =>
    exact hCall (hFronts.unlink name (hRemoved hAdmits (of_decide_eq_true hBehind))) hRun
  | rmdir name =>
    exact hCall (hFronts.rmdir name (hRemoved hAdmits (of_decide_eq_true hBehind))) hRun
  | openFile name flags mode =>
    obtain ⟨hPath, hDir, hKey⟩ := hMade hAdmits hBehind
    exact hCall (hFronts.open hPath hDir flags mode hKey) hRun
  | mkdir name mode =>
    obtain ⟨hPath, hDir, hKey⟩ := hMade hAdmits hBehind
    exact hCall (hFronts.mkdir hP hPath hDir mode hKey) hRun

end Invariant

section Replay

def Scan.replay (P : Platform) (t : Scan → ScanCall → Bool) :
    Scan → List ScanCall → Except Fault Scan
  | x, [] => .ok x
  | x, c :: rest => do
    let y ← x.perform P c
    if t x c then replay P t y rest else .error .diverge

def scanOf (P : Platform) (name : List UInt8) (t : Scan → ScanCall → Bool) (calls : List ScanCall)
    (y : Session) :
    Except Fault Scan := do
  let ((r, dir), s) ← dandelionOpendir P name y.state
  if r = 0 then Scan.replay P t ⟨s, dir, 0, entriesAt s.memory dir, []⟩ calls else .error .diverge

variable {step : Scan → ScanCall → Scan → Prop} {t : Scan → ScanCall → Bool}

theorem reachable_of_scanReplay {calls : List ScanCall}
    (hStep : ∀ x c y, t x c = true → x.perform P c = .ok y → step x c y)
    (hx : Reachable (ScanStarts P) step x) (h : Scan.replay P t x calls = .ok y) :
    Reachable (ScanStarts P) step y := by
  induction calls generalizing x with
  | nil =>
    obtain rfl := Except.ok.inj h
    exact hx
  | cons c rest ih =>
    rw [Scan.replay] at h
    cases hRun : x.perform P c with
    | error e =>
      rw [hRun] at h
      cases h
    | ok z =>
      rw [hRun] at h
      change (if t x c = true then Scan.replay P t z rest else .error .diverge) = .ok y at h
      split at h
      · rename_i hTest
        exact ih (.step hx (hStep x c z hTest hRun)) h
      · cases h

theorem reachable_of_scanOf {calls : List ScanCall} {z : Session}
    (hStep : ∀ x c y, t x c = true → x.perform P c = .ok y → step x c y)
    (hz : Reachable (Started P) (Proceeds P) z) (h : scanOf P name t calls z = .ok y) :
    Reachable (ScanStarts P) step y := by
  rw [scanOf] at h
  cases hOpen : dandelionOpendir P name z.state with
  | error e =>
    rw [hOpen] at h
    cases h
  | ok r =>
    obtain ⟨⟨r, dir⟩, s⟩ := r
    rw [hOpen] at h
    change (if r = 0 then Scan.replay P t ⟨s, dir, 0, entriesAt s.memory dir, []⟩ calls
      else .error .diverge) = .ok y at h
    split at h
    · rename_i hZero
      subst hZero
      exact reachable_of_scanReplay hStep (.init ⟨rfl, rfl, rfl, z, name, hz, hOpen⟩) h
    · cases h

theorem exists_of_scan (step : Scan → ScanCall → Scan → Prop) (t : Scan → ScanCall → Bool)
    (name : List UInt8) (calls : List ScanCall) (u : Scan → Bool) (files : List Call)
    (hStep : ∀ x c y, t x c = true → x.perform P c = .ok y → step x c y)
    (h : endsIn (fun z => passes (scanOf P name t calls z) u) (bareRun P files) = true) :
    ∃ y, Reachable (ScanStarts P) step y ∧ u y = true := by
  obtain ⟨z, hz, hScan⟩ := exists_of_bareRun files _ h
  obtain ⟨y, hRun, hTest⟩ := exists_of_passes hScan
  exact ⟨y, reachable_of_scanOf hStep (proceeds_of_completes hz) hRun, hTest⟩

end Replay

section Law

/-- A scan whose removals and new entries all stay behind the position of the stream
returns once whatever is there from its opening to its end. -/
theorem scan_complete_behind (hP : P.Linkable) (h : Reachable (ScanStarts P) (ScansBehind P) x) :
    x.Complete := by
  have hFollows : x.Follows P :=
    h.invariant (Scan.Follows P) (fun _ hStart => follows_of_starts hP hStart)
      fun _ _ _ hInv hStep => hInv.step hP hStep
  obtain ⟨hLength, L, hSteady, hd, hFront⟩ := hFollows
  intro hEnded p _ hp
  rw [Scan.ended] at hEnded
  split at hEnded
  · rename_i r hRun
    obtain ⟨⟨result, next, entry⟩, s'⟩ := r
    obtain rfl : entry = none := Option.isNone_iff_eq_none.mp hEnded
    have hEnd := dandelionReaddir_none hSteady.listing hd hRun
    have hAll : x.returned = L x.dir := hFront.eq_of_length_le (hLength ▸ hEnd)
    rw [entriesAt_eq hSteady.listing hd] at hp
    rw [hAll]
    exact List.count_eq_one_of_mem (hSteady.listing.nodup x.dir) hp
  · cases hEnded

def twoFiles : List Call :=
  [.openFile [97] (oWRONLY ||| oCREAT) sIRWXU, .openFile [98] (oWRONLY ||| oCREAT) sIRWXU]

/-- A scan that reads `a`, removes `b`, makes `c` and reads on. -/
theorem scan_complete_removal : ∃ x, Reachable (ScanStarts (.bump 0)) (ScansBehind (.bump 0)) x ∧
    x.ended = true ∧
    x.returned.length = 4 ∧ x.Complete := by
  obtain ⟨x, hx, hTest⟩ := exists_of_scan (P := .bump 0) (ScansBehind (.bump 0))
    (fun x c => x.behind (.bump 0) c && x.admits (.bump 0) c) [slash] [.readdir, .unlink [98],
      .openFile [99] (oWRONLY ||| oCREAT) sIRWXU, .readdir, .readdir, .readdir]
    (fun x => x.ended && x.returned.length == 4) twoFiles
    (fun x c y hTest hRun => by
      rw [Bool.and_eq_true] at hTest
      exact ⟨hTest.1, hTest.2, hRun⟩) (by decide +kernel)
  rw [Bool.and_eq_true, beq_iff_eq] at hTest
  exact ⟨x, hx, hTest.1, hTest.2, scan_complete_behind linkable_bump hx⟩

/-- A scan that removes what it has just read, as a recursive removal does, misses the next
entry. -/
theorem scan_complete_fails : ∃ x, Reachable (ScanStarts (.bump 0)) (Scans (.bump 0)) x ∧
    ¬ x.Complete := by
  obtain ⟨x, hx, hTest⟩ := exists_of_scan (P := .bump 0) (Scans (.bump 0))
    (fun x c => x.admits (.bump 0) c)
    [slash] [.readdir, .unlink [97], .readdir, .readdir]
    (fun x => x.ended && x.present.any fun p =>
      decide (p ∈ entriesAt x.state.memory x.dir) && x.returned.count p == 0)
    twoFiles (fun x c y hTest hRun => ⟨hTest, hRun⟩) (by decide +kernel)
  rw [Bool.and_eq_true, List.any_eq_true] at hTest
  obtain ⟨hEnded, p, hPresent, hBoth⟩ := hTest
  rw [Bool.and_eq_true, decide_eq_true_eq, beq_iff_eq] at hBoth
  refine ⟨x, hx, fun hComplete => ?_⟩
  have hOnce := hComplete hEnded p hPresent hBoth.1
  rw [hBoth.2] at hOnce
  cases hOnce

end Law

end Dandelion.FileSystem
