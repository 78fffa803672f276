import Dandelion.Foundation.Runs
import Dandelion.FileSystem.Calls
import Dandelion.FileSystem.Boot

/-! # Runs of the file system

A run starts in a state that `fs_initialize` leaves and continues with calls of
the interface. The nodes of the directory streams that the program holds are
part of the state of a run.
-/

namespace Dandelion.FileSystem

open Foundation.Runs

inductive Call where
  | openFile (name : List UInt8) (flags mode : Nat)
  | close (fd : Int)
  | unlink (name : List UInt8)
  | mkdir (name : List UInt8) (mode : Nat)
  | rmdir (name : List UInt8)
  | read (fd : Int) (len : Nat) (offset : Int) (options : Nat)
  | write (fd : Int) (bytes : List UInt8) (offset : Int) (options : Nat)
  | lseek (fd : Int) (offset : Int) (whence : Nat)
  | truncate (name : List UInt8) (length : Int)
  | ftruncate (fd : Int) (length : Int)
  | opendir (name : List UInt8)
  | closedir (dir : Ptr)

/-- A state together with the nodes of the open directory streams. -/
structure Session where
  state : State
  dirs : List Ptr

/-- Perform a call; the result is the list of streams that are then open. -/
def Call.perform (P : Platform) (dirs : List Ptr) : Call → M (List Ptr)
  | .openFile name flags mode => do
    let _ ← dandelionOpen P name flags mode
    pure dirs
  | .close fd => do
    let _ ← dandelionClose fd
    pure dirs
  | .unlink name => do
    let _ ← dandelionUnlink P name
    pure dirs
  | .mkdir name mode => do
    let _ ← dandelionMkdir P name mode
    pure dirs
  | .rmdir name => do
    let _ ← dandelionRmdir P name
    pure dirs
  | .read fd len offset options => do
    let _ ← dandelionRead P fd len offset options
    pure dirs
  | .write fd bytes offset options => do
    let _ ← dandelionWrite P fd bytes offset options
    pure dirs
  | .lseek fd offset whence => do
    let _ ← dandelionLseek P fd offset whence
    pure dirs
  | .truncate name length => do
    let _ ← dandelionTruncate P name length
    pure dirs
  | .ftruncate fd length => do
    let _ ← dandelionFtruncate P fd length
    pure dirs
  | .opendir name => do
    let r ← dandelionOpendir P name
    pure (if r.1 = 0 then r.2 :: dirs else dirs)
  | .closedir dir => do
    let _ ← dandelionClosedir dir
    pure (dirs.erase dir)

/-- The state after `fs_initialize` has returned without an error. -/
def Started (P : Platform) (x : Session) : Prop :=
  x.dirs = [] ∧ ∃ sets outputs s a, Boots sets s ∧
    fsInitialize P sets outputs s = .ok ((0, a), x.state)

def Completes (P : Platform) (x : Session) (c : Call) (y : Session) : Prop :=
  c.perform P x.dirs x.state = .ok (y.dirs, y.state)

def replay (P : Platform) : Session → List Call → Except Fault Session
  | x, [] => .ok x
  | x, c :: rest =>
    match c.perform P x.dirs x.state with
    | .ok r => replay P ⟨r.2, r.1⟩ rest
    | .error e => .error e

theorem reachable_of_replay {P : Platform} {x y : Session} {calls : List Call}
    (hStart : Reachable (Started P) (Completes P) x) (h : replay P x calls = .ok y) :
    Reachable (Started P) (Completes P) y := by
  induction calls generalizing x with
  | nil =>
    obtain rfl : x = y := Except.ok.inj h
    exact hStart
  | cons c rest ih =>
    rw [replay] at h
    split at h
    · rename_i r hPerform
      have hStep : Completes P x c ⟨r.2, r.1⟩ := hPerform
      exact ih (.step hStart hStep) h
    · cases h

def staticMemory : Memory where
  files := staticFiles
  chunks _ := none
  blocks _ := none
  limit := staticEnd
  bounded p hp := by
    have hOther : ∀ q, q < staticEnd → p ≠ q := fun q hq => Nat.ne_of_gt (Nat.lt_of_lt_of_le hq hp)
    refine ⟨?_, rfl, rfl⟩
    rw [staticFiles, if_neg (hOther _ (by decide)), if_neg (hOther _ (by decide)),
      if_neg (hOther _ (by decide)), if_neg (hOther _ (by decide))]

/-- The state before `fs_initialize` when there are no inputs. -/
def bareState : State := ⟨staticMemory, fun _ => ⟨0, 0, 0, 0⟩, 0⟩

theorem boots_bareState : Boots [] bareState where
  files := rfl
  chunks _ := rfl
  blocks _ _ h := by cases h
  items _ h := absurd h List.not_mem_nil
  apart := List.Pairwise.nil
  openFiles _ := rfl

def bareRun (P : Platform) (calls : List Call) : Except Fault Session :=
  match fsInitialize P [] [] bareState with
  | .ok r => if r.1.1 = 0 then replay P ⟨r.2, []⟩ calls else .error .diverge
  | .error e => .error e

theorem reachable_of_bareRun {P : Platform} {calls : List Call} {y : Session}
    (h : bareRun P calls = .ok y) :
    Reachable (Started P) (Completes P) y := by
  unfold bareRun at h
  split at h
  · rename_i r hInit
    split at h
    · rename_i hZero
      obtain ⟨⟨code, a⟩, s⟩ := r
      obtain rfl : code = 0 := hZero
      exact reachable_of_replay (.init ⟨rfl, [], [], bareState, a, boots_bareState, hInit⟩) h
    · cases h
  · cases h

def endsIn (t : Session → Bool) : Except Fault Session → Bool
  | .ok y => t y
  | .error _ => false

theorem exists_of_bareRun {P : Platform} (calls : List Call) (t : Session → Bool)
    (h : endsIn t (bareRun P calls) = true) :
    ∃ y, Reachable (Started P) (Completes P) y ∧ t y = true := by
  cases hRun : bareRun P calls with
  | ok y =>
    rw [hRun] at h
    exact ⟨y, reachable_of_bareRun hRun, h⟩
  | error e =>
    rw [hRun] at h
    cases h

def replayIf (P : Platform) (t : Session → Call → Bool) : Session → List Call → Except Fault Session
  | x, [] => .ok x
  | x, c :: rest =>
    match c.perform P x.dirs x.state with
    | .ok r => if t x c then replayIf P t ⟨r.2, r.1⟩ rest else .error .diverge
    | .error e => .error e

def bareRunIf (P : Platform) (t : Session → Call → Bool) (calls : List Call) :
    Except Fault Session :=
  match fsInitialize P [] [] bareState with
  | .ok r => if r.1.1 = 0 then replayIf P t ⟨r.2, []⟩ calls else .error .diverge
  | .error e => .error e

theorem reachable_of_replayIf {P : Platform} {init : Session → Prop}
    {step : Session → Call → Session → Prop} {t : Session → Call → Bool}
    (hStep : ∀ x c y, Completes P x c y → t x c = true → step x c y) {x y : Session}
    {calls : List Call} (hStart : Reachable init step x) (h : replayIf P t x calls = .ok y) :
    Reachable init step y := by
  induction calls generalizing x with
  | nil =>
    obtain rfl : x = y := Except.ok.inj h
    exact hStart
  | cons c rest ih =>
    rw [replayIf] at h
    split at h
    · rename_i r hPerform
      split at h
      · rename_i hTest
        have hNext : Completes P x c ⟨r.2, r.1⟩ := hPerform
        exact ih (.step hStart (hStep _ _ _ hNext hTest)) h
      · cases h
    · cases h

theorem exists_of_bareRunIf {P : Platform} (init : Session → Prop)
    (step : Session → Call → Session → Prop) (t : Session → Call → Bool) (calls : List Call)
    (u : Session → Bool) (hInit : ∀ s a, fsInitialize P [] [] bareState = .ok ((0, a), s) →
      init ⟨s, []⟩)
    (hStep : ∀ x c y, Completes P x c y → t x c = true → step x c y)
    (h : endsIn u (bareRunIf P t calls) = true) : ∃ y, Reachable init step y ∧ u y = true := by
  cases hRun : bareRunIf P t calls with
  | error e =>
    rw [hRun] at h
    cases h
  | ok y =>
    rw [hRun] at h
    refine ⟨y, ?_, h⟩
    unfold bareRunIf at hRun
    split at hRun
    · rename_i r hBoot
      split at hRun
      · rename_i hZero
        obtain ⟨⟨code, a⟩, s⟩ := r
        obtain rfl : code = 0 := hZero
        exact reachable_of_replayIf hStep (.init (hInit s a hBoot)) hRun
      · cases hRun
    · cases hRun

end Dandelion.FileSystem
