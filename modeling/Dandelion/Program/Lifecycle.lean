import Dandelion.FileSystem.Refusals
import Dandelion.Program.Startup
import Dandelion.Program.Shutdown

/-! # From files to the flat output

The files that a program leaves below the directories of its output sets are what
the platform finds in the flat output, set by set, with their paths and contents. The
exit code is the value of `main`, or `errno` if the program calls `_exit`. Where the
file system is refused memory, files may be missing, but none is changed.
-/

namespace Dandelion.Program

open Foundation.Components Foundation.Triples
open Runtime.IoSets
  (IoBuffer SystemData Described Serves Encodes addedTo outputPart dandelionInit dandelionExit
  dandelionInit_serves)
open FileSystem (Path Memory Folder Names Emits Output exported exportedFrom slash eNOMEM)

/-- The identifier and the data of a buffer are the path and the content of a file. -/
structure Carries (m : Memory) (x : IoBuffer) (file : Path × List UInt8) : Prop where
  ident : m.load x.ident 0 x.identLen = some file.1
  data : m.load x.data 0 x.dataLen = some file.2

variable {H : Host} {d : SystemData} {outs : Nat → List IoBuffer} {f : FileSystem.State}
  {t : Runtime.IoSets.State} {F : Nat → Folder} {k i n : Nat}

section Sets

/-- The files of an output set with their paths below its directory. -/
def Host.outputFiles (H : Host) (d : SystemData) (F : Nat → Folder) (i : Nat) :
    List (Path × List UInt8) :=
  (exported (H.outputPath d i) (F i)).spelled [slash] []

theorem exportedFrom_before (h : i < k) :
    (exportedFrom k (setsFrom H d F k n)).filter (fun file => file.1 = i) = [] := by
  induction n generalizing k with
  | zero => rfl
  | succ n ih =>
    rw [setsFrom, List.range'_succ, List.map_cons, exportedFrom, List.filter_append,
      List.filter_map]
    have hRest := ih (Nat.lt_succ_of_lt h)
    rw [setsFrom] at hRest
    rw [hRest, List.append_nil, List.map_eq_nil_iff, List.filter_eq_nil_iff]
    intro file _
    simp only [Function.comp_apply, decide_eq_true_eq]
    omega

theorem exportedFrom_set (hi : k ≤ i) (hn : i < k + n) :
    ((exportedFrom k (setsFrom H d F k n)).filter fun file => file.1 = i).map Prod.snd =
    H.outputFiles d F i := by
  induction n generalizing k with
  | zero => omega
  | succ n ih =>
    rw [setsFrom, List.range'_succ, List.map_cons, exportedFrom, List.filter_append,
      List.map_append, List.filter_map, List.map_map]
    rcases Nat.lt_or_eq_of_le hi with hLt | rfl
    · have hRest := ih hLt (by omega)
      rw [setsFrom] at hRest
      rw [hRest, List.filter_eq_nil_iff.mpr, List.map_nil, List.nil_append]
      intro file _
      simp only [Function.comp_apply, decide_eq_true_eq]
      omega
    · have hRest := exportedFrom_before (H := H) (d := d) (F := F) (n := n) (Nat.lt_succ_self k)
      rw [setsFrom] at hRest
      rw [hRest, List.map_nil, List.append_nil, List.filter_eq_self.mpr fun file _ => by simp]
      exact List.map_id _

theorem carries_of_emits {m : Memory} {l : List Output} {files : List (Nat × Path × List UInt8)}
    (h : List.Forall₂ (Emits m) l files) (i : Nat) :
    List.Forall₂ (Carries m) (addedTo i (callsOf l))
      ((files.filter fun file => file.1 = i).map Prod.snd) := by
  induction h with
  | nil => exact .nil
  | @cons out file l files hOut _ ih =>
    rw [show callsOf (out :: l) = (out.set, bufferOf out) :: callsOf l from rfl]
    by_cases hi : out.set = i
    · subst hi
      rw [Runtime.IoSets.addedTo_self, List.filter_cons_of_pos (by simp [hOut.set]), List.map_cons]
      exact .cons ⟨hOut.ident, hOut.data⟩ ih
    · rw [Runtime.IoSets.addedTo_of_ne hi, List.filter_cons_of_neg (by simpa [← hOut.set] using hi)]
      exact ih

end Sets

section Delivery

def Ending.code : Ending → Int
  | .returns code => code
  | .exits _ errno => errno

/-- The process has ended with this code, and what a set of the flat output holds of its files is
accepted. -/
def Delivers (accepts : List (Path × List UInt8) → List (Path × List UInt8) → Prop) (n : Nat)
    (code : Int) (files : Nat → List (Path × List UInt8)) (halt : Outcome) : Prop :=
  ∃ f t, halt = .ended f t ∧ t.sysdata.exitCode = codeWord code ∧
    t.sysdata.outputSets.length = n + 1 ∧
    ∀ i < n, ∃ bufs got, outputPart t i = bufs.map some ∧ List.Forall₂ (Carries f.memory) bufs got ∧
      accepts got (files i)

/-- A part of the files, and all of them if memory is granted. -/
def Kept (full : Prop) (got files : List (Path × List UInt8)) : Prop :=
  got.Sublist files ∧ (full → got = files)

variable {full : Prop} {m start : Memory} {new : List Output}

theorem delivers_of_handed {code : Int} (hCode : t.sysdata.exitCode = codeWord code)
    (hEncodes : Encodes t n fun i => [] ++ addedTo i (callsOf new))
    (hNew : Handed full m start f.memory (exportedFrom 0 (setsFrom H d F 0 n)) new) :
    Delivers (Kept full) n code (H.outputFiles d F) (.ended f t) := by
  obtain ⟨-, got, hGot, hAll, hExported⟩ := hNew
  have hEmits : List.Forall₂ (Emits f.memory) new got :=
    hExported.imp fun out file hOut => ⟨hOut.set, hOut.ident, hOut.data⟩
  refine ⟨f, t, rfl, hCode, hEncodes.infos,
    fun i hi => ⟨_, _, hEncodes.part hi, carries_of_emits hEmits i, ?_⟩⟩
  have hSet := exportedFrom_set (H := H) (d := d) (F := F) (Nat.zero_le i)
    (Nat.lt_of_lt_of_eq hi (Nat.zero_add n).symm)
  refine ⟨?_, fun hFull => ?_⟩
  · simpa only [← hSet] using (hGot.filter _).map _
  · rw [hAll hFull, hSet]

end Delivery

section Program

/-- The program starts on a description of the platform, `main` runs to its end, and it leaves these
entries in the directories of the output sets. -/
structure Finishes (H : Host) (main : FileSystem.Arguments → FileSystem.M Ending)
    (f : FileSystem.State)
    (s : Runtime.IoSets.State) (ending : Ending) (F : Nat → Folder) : Prop where
  described : Described s
  run : ∃ a f₁ f₂,
    FileSystem.fsInitialize H.files (H.inputSets s.sysdata) (H.outputPaths s.sysdata) f =
      .ok ((0, a), f₁) ∧
    main a f₁ = .ok (ending, f₂) ∧
    ∀ i < s.sysdata.outputSetsLen, Names H.files f₂.memory (H.outputPath s.sysdata i) (F i)

variable {s : Runtime.IoSets.State} {f₁ f₂ : FileSystem.State}
  {main : FileSystem.Arguments → FileSystem.M Ending} {a : FileSystem.Arguments} {ending : Ending}

/-- After `main` the process terminates the file system and exits, however `main` ends. -/
theorem dandelionEntry_ends {t : Runtime.IoSets.State}
    (hBegin : dandelionInit H.sets s = .ok ((), t)) (hServes : Serves s.sysdata outs t)
    (hInit : FileSystem.fsInitialize H.files (H.inputSets s.sysdata) (H.outputPaths s.sysdata) f =
      .ok ((0, a), f₁))
    (hMain : main a f₁ = .ok (ending, f₂)) : dandelionEntry H main (f, s) =
      (fsTerminate H >>= fun _ => endWith (dandelionExit H.sets (codeWord ending.code)) : Run Unit)
        (f₂, t) := by
  have hFiles : fsInitialize H (f, t) = .ok ((0, a), f₁, t) :=
    (fsInitialize_mirrors hServes f).trans (onFirst_ok hInit)
  rw [dandelionEntry, bind_ok (onSecond_ok hBegin), initialization, bind_assoc, bind_ok hFiles,
    if_neg (not_not.mpr rfl), bind_assoc, bind_ok (onFirst_ok hMain)]
  cases ending with
  | returns code => rw [bind_assoc]; rfl
  | exits status errno =>
    change (exit H status errno >>= _) (f₂, t) = _
    rw [exit, bind_assoc]
    simp only [endWith_bind]
    rfl

theorem Finishes.delivers (h : Finishes H main f s ending F) :
    ∃ halt, dandelionEntry H main (f, s) = .error halt ∧ (Starves s halt ∨
      ∃ code, (code = ending.code ∨ ¬ H.files.Grants ∧ code = eNOMEM) ∧
        Delivers (Kept H.files.Grants) s.sysdata.outputSetsLen code
          (H.outputFiles s.sysdata F) halt) := by
  obtain ⟨hDesc, a, f₁, f₂, hInit, hMain, hSets⟩ := h
  have hStart := dandelionInit_serves (P := H.sets) hDesc
  cases hBegin : dandelionInit H.sets s with
  | error e => exact ⟨_, bind_error (onSecond_error hBegin), Or.inl ⟨e, rfl, hStart.failure hBegin⟩⟩
  | ok r =>
    obtain ⟨⟨⟩, t⟩ := r
    obtain ⟨hServes, hRefused⟩ := hStart.result hBegin
    rw [dandelionEntry_ends hBegin hServes hInit hMain]
    have hHands :
        Hands H.files.Grants s.sysdata f₂.memory f₂.memory (fun _ => True) (fsTerminate H) f₂
        (exportedFrom 0 (setsFrom H s.sysdata F 0 s.sysdata.outputSetsLen)) :=
      .answered (fun t outs h => h.outputCount)
        (terminateSets_hands hSets (.refl _) (Nat.zero_add _))
    have hTerminate := hHands t _ hServes
    cases hEnd : fsTerminate H (f₂, t) with
    | error halt =>
      refine ⟨halt, bind_error hEnd, ?_⟩
      rcases hTerminate.failure hEnd with ⟨e, rfl, hMore⟩ | ⟨hShort, f₃, t₃, new, rfl, hCode,
          hNew, hEncodes⟩
      · exact Or.inl ⟨e, rfl, by rwa [hRefused] at hMore⟩
      · exact Or.inr ⟨eNOMEM, Or.inr ⟨hShort, rfl⟩, delivers_of_handed hCode hEncodes hNew⟩
    | ok r =>
      obtain ⟨⟨⟩, f₃, t₃⟩ := r
      obtain ⟨hRefused₃, -, new, hNew, hServes₃⟩ := hTerminate.result hEnd
      have hExit := hServes₃.exit (P := H.sets) (codeWord ending.code)
      cases hRun : dandelionExit H.sets (codeWord ending.code) t₃ with
      | error e =>
        refine ⟨.second e, (bind_ok hEnd).trans (by rw [endWith, hRun]), Or.inl ⟨e, rfl, ?_⟩⟩
        have hMore := hExit.failure hRun
        rwa [hRefused₃, hRefused] at hMore
      | ok r =>
        obtain ⟨⟨⟩, t₄⟩ := r
        obtain ⟨hCode, hEncodes⟩ := hExit.result hRun
        exact ⟨.ended f₃ t₄, (bind_ok hEnd).trans (by rw [endWith, hRun]),
          Or.inr ⟨ending.code, Or.inl rfl, delivers_of_handed hCode hEncodes hNew⟩⟩

/-- Whatever `main` does to the file system, the platform gets the files below the directories of
the output sets, and the exit code, unless the runtime is refused memory. -/
theorem files_delivered (h : Finishes H main f s ending F) (hGrants : H.files.Grants) :
    ∃ halt, dandelionEntry H main (f, s) = .error halt ∧ (Starves s halt ∨
      Delivers (· = ·) s.sysdata.outputSetsLen ending.code (H.outputFiles s.sysdata F) halt) := by
  obtain ⟨halt, hHalt, hStarves | ⟨code, hCode, f', t, hEnded, hExit, hInfos, hParts⟩⟩ := h.delivers
  · exact ⟨halt, hHalt, Or.inl hStarves⟩
  · obtain rfl := hCode.resolve_right fun hShort => hShort.1 hGrants
    refine ⟨halt, hHalt, Or.inr ⟨f', t, hEnded, hExit, hInfos, fun i hi => ?_⟩⟩
    obtain ⟨bufs, got, hBufs, hCarries, -, hAll⟩ := hParts i hi
    exact ⟨bufs, got, hBufs, hCarries, hAll hGrants⟩

def calling (P : FileSystem.Platform) (calls : List FileSystem.Call) (ending : Ending) :
    FileSystem.Arguments → FileSystem.M Ending := fun _ s =>
  match FileSystem.replay P ⟨s, []⟩ calls with
  | .ok x => .ok (ending, x.state)
  | .error e => .error e

/-- No inputs, and one output set with the name `out`. -/
def outHost (P : FileSystem.Platform) : Host where
  files := P
  sets := .stacked
  text p := ([111, 117, 116][p]?).getD 0

def outState : Runtime.IoSets.State where
  sysdata :=
    { exitCode := 256
      inputSetsLen := 0
      inputSets := [⟨0, 0, 0⟩]
      outputSetsLen := 1
      outputSets := [⟨0, 3, 0⟩, ⟨0, 0, 0⟩]
      inputBufs := []
      outputBufs := 0 }
  rtdata := ⟨0, 0⟩
  memory := ⟨fun _ => none, fun _ => none, 4096⟩
  refused := 0

/-- A check of what a program leaves in the directory `out`. -/
theorem finishes_of_calls {P : FileSystem.Platform} (hP : P.Linkable) (calls : List FileSystem.Call)
    (ending : Ending) (F : Folder)
    (h : passes (FileSystem.fsInitialize P [] [[111, 117, 116]] FileSystem.bareState)
      (fun r => decide (r.1.1 = 0) &&
      passes (FileSystem.replay P ⟨r.2, []⟩ calls) fun x =>
        FileSystem.offers x.state.memory [111, 117, 116] F) = true) :
    Finishes (outHost P) (calling P calls ending) FileSystem.bareState outState ending
      fun _ => F := by
  obtain ⟨⟨⟨code, a⟩, f₁⟩, hInit, hTest⟩ := exists_of_passes h
  rw [Bool.and_eq_true, decide_eq_true_eq] at hTest
  obtain ⟨hCode, hReplay⟩ := hTest
  obtain rfl : code = 0 := hCode
  obtain ⟨x, hRun, hOffers⟩ := exists_of_passes hReplay
  have hReachable := FileSystem.reachable_of_replay
    (.init ⟨rfl, [], [[111, 117, 116]], FileSystem.bareState, a, FileSystem.boots_bareState, hInit⟩)
      hRun
  obtain ⟨L, hSteady⟩ :=
    FileSystem.steady_of_reachable hP (FileSystem.proceeds_of_completes hReachable)
  refine ⟨⟨rfl, rfl, by decide, by decide, by decide, by decide⟩, a, f₁, x.state,
    hInit, by rw [calling, hRun], fun i hi => ?_⟩
  obtain rfl : i = 0 := Nat.lt_one_iff.mp hi
  exact hSteady.listing.names hOffers

def ends {α : Type} : Except Outcome α → Bool
  | .error (.ended _ _) => true
  | _ => false

theorem not_starves {α : Type} {halt : Outcome} {x : Except Outcome α} (hHalt : x = .error halt)
    (hEnds : ends x = true) :
    ¬ Starves s halt := by
  rintro ⟨e, rfl, -⟩
  rw [hHalt] at hEnds
  cases hEnds

def writesOut : List FileSystem.Call :=
  [.openFile [111, 117, 116, slash, 97] (FileSystem.oWRONLY ||| FileSystem.oCREAT)
    FileSystem.sIRWXU,
    .write 3 [1, 2] 0 FileSystem.moveOffset]

/-- The program calls `_exit` with status 0 while `errno` is 9. -/
theorem files_delivered_exit :
    ∃ f t, dandelionEntry (outHost (.bump 0)) (calling (.bump 0) writesOut (.exits 0 9))
      (FileSystem.bareState, outState) = .error (.ended f t) ∧ t.sysdata.exitCode = 9 ∧
    ∃ bufs, outputPart t 0 = bufs.map some ∧
      List.Forall₂ (Carries f.memory) bufs [([97], [1, 2])] := by
  obtain ⟨halt, hHalt, hOutcome⟩ := files_delivered
    (finishes_of_calls FileSystem.linkable_bump writesOut (.exits 0 9)
    (.leaf [97] [1, 2] .nil) (by decide +kernel)) (FileSystem.grants_bump 0)
  obtain ⟨f, t, rfl, hExit, -, hSets⟩ :=
    hOutcome.resolve_left (not_starves hHalt (by decide +kernel))
  obtain ⟨bufs, _, hBufs, hCarries, rfl⟩ := hSets 0 (by decide)
  exact ⟨f, t, hHalt, hExit, bufs, hBufs, hCarries⟩

/-- Whichever requests of the file system are refused at the end of the program, the platform gets a
part of the files below the directories of the output sets, with their paths and contents. -/
theorem shortage_only_loses (h : Finishes H main f s ending F) :
    ∃ halt, dandelionEntry H main (f, s) = .error halt ∧ (Starves s halt ∨
      ∃ code, (code = ending.code ∨ code = eNOMEM) ∧
        Delivers List.Sublist s.sysdata.outputSetsLen code (H.outputFiles s.sysdata F) halt) := by
  obtain ⟨halt, hHalt, hStarves | ⟨code, hCode, f', t, hEnded, hExit, hInfos, hParts⟩⟩ := h.delivers
  · exact ⟨halt, hHalt, Or.inl hStarves⟩
  · refine ⟨halt, hHalt, Or.inr ⟨code, hCode.imp_right And.right, f', t, hEnded, hExit, hInfos,
      fun i hi => ?_⟩⟩
    obtain ⟨bufs, got, hBufs, hCarries, hPart, -⟩ := hParts i hi
    exact ⟨bufs, got, hBufs, hCarries, hPart⟩

theorem linkable_refusing {P : FileSystem.Platform} (hP : P.Linkable) (refused : Nat → Bool) :
    (P.refusing refused).Linkable := by
  intro m count grant hGrant
  change (if refused count = true then none else P.answer m count FileSystem.sizeofFile 8) =
    some grant at hGrant
  split at hGrant
  · cases hGrant
  · exact hP m count grant hGrant

/-- From the request with number 11 on, memory is refused. -/
def scarce : FileSystem.Platform := .refusing (.bump 0) fun number => decide (11 ≤ number)

def writesTwo : List FileSystem.Call := writesOut ++
  [.openFile [111, 117, 116, slash, 98] (FileSystem.oWRONLY ||| FileSystem.oCREAT)
    FileSystem.sIRWXU]

/-- There is no memory for the name of the second of two files. -/
theorem shortage_only_loses_second :
    ∃ f t, dandelionEntry (outHost scarce) (calling scarce writesTwo (.returns 5))
      (FileSystem.bareState, outState) = .error (.ended f t) ∧
        ∃ bufs got, outputPart t 0 = bufs.map some ∧
    List.Forall₂ (Carries f.memory) bufs got ∧ got.Sublist [([97], [1, 2]), ([98], [])] := by
  obtain ⟨halt, hHalt, hOutcome⟩ := shortage_only_loses
    (finishes_of_calls (linkable_refusing FileSystem.linkable_bump _)
    writesTwo (.returns 5) (.leaf [97] [1, 2] (.leaf [98] [] .nil)) (by decide +kernel) :
      Finishes (outHost scarce) _ _ _ _ _)
  obtain ⟨code, -, f, t, rfl, -, -, hSets⟩ :=
    hOutcome.resolve_left (not_starves hHalt (by decide +kernel))
  exact ⟨f, t, hHalt, hSets 0 (by decide)⟩

end Program

end Dandelion.Program
