import Dandelion.Foundation.Runs
import Dandelion.NewlibShim.ThreadKeys

/-! # Mutexes of a single thread

A flag of a mutex is on when its bit is cleared, so that the static initialiser, which
has all bits set, is a free mutex. There is one thread, and taking a mutex never
waits. A recursive mutex does not count: however often it was taken, it is given back
at once.
-/

namespace Dandelion.NewlibShim

open Foundation.Runs

def locked : BitVec 32 := 0x01
def recursive : BitVec 32 := 0x02
def destroyed : BitVec 32 := 0x80
def pthreadMutexInitializer : BitVec 32 := 0xffffffff

def ePERM : Nat := 1
def eBUSY : Nat := 16
def eDEADLK : Nat := 45

/-- The attributes, if there are any, are given by their field `recursive`. -/
def pthreadMutexInit (attr : Option Int) : Nat × BitVec 32 :=
  (0, if attr.any (· ≠ 0) then pthreadMutexInitializer &&& ~~~recursive
    else pthreadMutexInitializer)

def pthreadMutexDestroy (mutex : BitVec 32) : Nat × BitVec 32 :=
  if mutex &&& destroyed = 0 then (eINVAL, mutex)
  else if mutex &&& locked = 0 then (eBUSY, mutex)
  else (0, mutex &&& ~~~destroyed)

def pthreadMutexTrylock (mutex : BitVec 32) : Nat × BitVec 32 :=
  if mutex &&& destroyed = 0 then (eINVAL, mutex)
  else if mutex &&& locked = 0 ∧ mutex &&& recursive ≠ 0 then (eDEADLK, mutex)
  else (0, mutex &&& ~~~locked)

def pthreadMutexLock (mutex : BitVec 32) : Nat × BitVec 32 := pthreadMutexTrylock mutex

def pthreadMutexUnlock (mutex : BitVec 32) : Nat × BitVec 32 :=
  if mutex &&& destroyed = 0 then (eINVAL, mutex)
  else if mutex &&& locked ≠ 0 then (ePERM, mutex)
  else (0, mutex ||| locked)

/-- The calls on a mutex. Trying to lock it is the same as locking it. -/
inductive MutexCall where
  | init (attr : Option Int)
  | destroy
  | lock
  | unlock

def MutexCall.run : MutexCall → BitVec 32 → Nat × BitVec 32
  | .init attr, _ => pthreadMutexInit attr
  | .destroy, mutex => pthreadMutexDestroy mutex
  | .lock, mutex => pthreadMutexLock mutex
  | .unlock, mutex => pthreadMutexUnlock mutex

structure Standing where
  gone : Bool
  held : Bool
  reentrant : Bool
  deriving DecidableEq

/-- What a call and its answer say of the mutex afterwards. -/
def Standing.after (x : Standing) : MutexCall → Nat → Standing
  | .init attr, _ => ⟨false, false, attr.any (· ≠ 0)⟩
  | .destroy, 0 => { x with gone := true }
  | .lock, 0 => { x with held := true }
  | .unlock, 0 => { x with held := false }
  | _, _ => x

def Standing.reply (x : Standing) : MutexCall → Nat
  | .init _ => 0
  | .destroy => if x.gone then eINVAL else if x.held then eBUSY else 0
  | .lock => if x.gone then eINVAL else if x.held && !x.reentrant then eDEADLK else 0
  | .unlock => if x.gone then eINVAL else if x.held then 0 else ePERM

/-- The calls so far and their answers, the latest first. -/
structure MutexSession where
  mutex : BitVec 32
  history : List (MutexCall × Nat)

def MutexSession.standing (s : MutexSession) : Standing :=
  s.history.foldr (fun entry x => x.after entry.1 entry.2) ⟨false, false, false⟩

def Initialised (s : MutexSession) : Prop := s = ⟨pthreadMutexInitializer, []⟩

def Calls (s : MutexSession) (call : MutexCall) (s' : MutexSession) : Prop :=
  s' = ⟨(call.run s.mutex).2, (call, (call.run s.mutex).1) :: s.history⟩

def flags (mutex : BitVec 32) : Standing :=
  ⟨mutex &&& destroyed = 0, mutex &&& locked = 0, mutex &&& recursive = 0⟩

theorem flag_iff {mutex flag : BitVec 32} {i : Nat} (hi : i < 32) (h : flag = .twoPow 32 i) :
    mutex &&& flag = 0 ↔ mutex.getLsbD i = false := by
  subst h
  rw [BitVec.and_twoPow]
  cases mutex.getLsbD i with
  | true => simpa using fun hZero => absurd (congrArg (·.getLsbD i) hZero) (by simp [hi])
  | false => simp

theorem flags_eq (mutex : BitVec 32) :
    flags mutex = ⟨!mutex.getLsbD 7, !mutex.getLsbD 0, !mutex.getLsbD 1⟩ := by
  simp only [flags, flag_iff (show 7 < 32 by decide) (show destroyed = .twoPow 32 7 by decide),
    flag_iff (show 0 < 32 by decide) (show locked = .twoPow 32 0 by decide),
    flag_iff (show 1 < 32 by decide) (show recursive = .twoPow 32 1 by decide),
    Bool.decide_eq_false]

theorem run_reply (call : MutexCall) (mutex : BitVec 32) :
    (call.run mutex).1 = (flags mutex).reply call := by
  cases call <;> simp only [MutexCall.run, pthreadMutexInit, pthreadMutexDestroy,
    pthreadMutexTrylock, pthreadMutexLock, pthreadMutexUnlock, Standing.reply, flags] <;> grind

theorem run_flags (call : MutexCall) (mutex : BitVec 32) :
    flags (call.run mutex).2 = (flags mutex).after call (call.run mutex).1 := by
  have hDestroy : flags (mutex &&& ~~~destroyed) = { flags mutex with gone := true } := by
    simp [flags_eq, destroyed]
  have hTake : flags (mutex &&& ~~~locked) = { flags mutex with held := true } := by
    simp [flags_eq, locked]
  have hGive : flags (mutex ||| locked) = { flags mutex with held := false } := by
    simp [flags_eq, locked]
  cases call with
  | init attr =>
    change flags (if attr.any (· ≠ 0) then _ else _) = _
    cases hAttr : attr.any (· ≠ 0) <;> simp only [Standing.after, hAttr] <;> decide
  | destroy =>
    rw [MutexCall.run, pthreadMutexDestroy]
    split
    · rfl
    · split
      · rfl
      · exact hDestroy
  | lock =>
    rw [MutexCall.run, pthreadMutexLock, pthreadMutexTrylock]
    split
    · rfl
    · split
      · rfl
      · exact hTake
  | unlock =>
    rw [MutexCall.run, pthreadMutexUnlock]
    split
    · rfl
    · split
      · rfl
      · exact hGive

/-- In every run on a mutex the next call is answered as the calls so far say. -/
theorem mutex_follows_calls {s : MutexSession} (h : Reachable Initialised Calls s)
    (call : MutexCall) :
    (call.run s.mutex).1 = s.standing.reply call := by
  have hFlags : flags s.mutex = s.standing := by
    refine h.invariant (fun s => flags s.mutex = s.standing) (fun s hStart => ?_)
      fun s call s' hAgrees hStep => ?_
    · subst hStart
      decide
    · subst hStep
      rw [run_flags, hAgrees]
      rfl
  rw [run_reply, hFlags]

/-- A recursive mutex that was taken twice is given back once. -/
theorem mutex_follows_calls_twice : ∃ s, Reachable Initialised Calls s ∧
    s.history.map Prod.snd = [0, 0, 0, 0] ∧ (MutexCall.unlock.run s.mutex).1 = ePERM := by
  have h := (((Reachable.init rfl : Reachable Initialised Calls ⟨pthreadMutexInitializer, []⟩).step
    (i := .init (some 1)) rfl).step (i := .lock) rfl).step (i := .lock) rfl |>.step
      (i := .unlock) rfl
  exact ⟨_, h, by decide, mutex_follows_calls h .unlock⟩

end Dandelion.NewlibShim
