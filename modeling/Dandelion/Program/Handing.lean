import Dandelion.FileSystem.Export
import Dandelion.Program.Process

/-! # Programs that hand on files

A program adds outputs for files, for all of them if memory is granted, and else for
some, in which case it may also end in the middle. The rules here follow what was
added through the actions of a program, up to the end of the process.
-/

namespace Dandelion.Program

open Foundation.Components Foundation.Triples
open Runtime.IoSets (IoBuffer SystemData Serves Encodes addedTo dandelionAddOutput dandelionExit)
open FileSystem (Ptr Path Memory Output Retains Exported eNOMEM)

def bufferOf (out : Output) : IoBuffer := ⟨out.ident, out.identLen, out.data, out.dataLen, 0⟩

def callsOf (l : List Output) : List (Nat × IoBuffer) := l.map fun out => (out.set, bufferOf out)

/-- Outputs for a part of the given files were added, in order, and for all of them if `full`
holds. -/
structure Handed (full : Prop) (m start m' : Memory) (files : List (Nat × Path × List UInt8))
    (new : List Output) :
    Prop where
  retains : Retains start m'
  part : ∃ got, got.Sublist files ∧ (full → got = files) ∧
    List.Forall₂ (fun out file => Exported m start m' file.1 out file.2) new got

variable {full : Prop} {m m₁ m₂ m₃ : Memory} {files files' : List (Nat × Path × List UInt8)}
  {new new' : List Output}

section Parts

theorem Handed.nothing (h : Retains m₁ m₂) (hFiles : full → files = []) :
    Handed full m m₁ m₂ files [] :=
  ⟨h, [], List.nil_sublist _, fun hFull => (hFiles hFull).symm, .nil⟩

theorem Handed.trans (h : Handed full m m₁ m₂ files new) (h' : Handed full m m₂ m₃ files' new') :
    Handed full m m₁ m₃ (files ++ files') (new ++ new') := by
  obtain ⟨hRetains, got, hGot, hAll, hNew⟩ := h
  obtain ⟨hRetains', got', hGot', hAll', hNew'⟩ := h'
  refine ⟨hRetains.trans hRetains', got ++ got', hGot.append hGot', fun hFull => ?_, List.rel_append
    (hNew.imp fun _ _ hOut => hOut.later hRetains') (hNew'.imp fun _ _ hOut =>
      hOut.earlier hRetains)⟩
  rw [hAll hFull, hAll' hFull]

theorem Handed.earlier (h : Handed full m m₂ m₃ files new) (hRetains : Retains m₁ m₂) :
    Handed full m m₁ m₃ files new :=
  (show Handed full m m₁ m₂ [] [] from .nothing hRetains fun _ => rfl).trans h

theorem Handed.drop {p : Ptr} {b : FileSystem.Block} (h : Handed full m m₂ m₃ files new)
    (hRetains : Retains m₁ m₂) (hVacant : m₁.Vacant p) (hNone : m.blocks p = none)
    (hSome : m₂.blocks p = some b) :
    Handed full m m₁ (m₃.drop p) files new := by
  obtain ⟨hRetains', got, hGot, hAll, hNew⟩ := h
  exact ⟨(hRetains.trans hRetains').drop hVacant, got, hGot, hAll,
    hNew.imp fun _ _ hOut => (hOut.drop hNone hSome).earlier hRetains⟩

theorem addedTo_callsOf (i : Nat) (outs : Nat → List IoBuffer) (new new' : List Output) :
    outs i ++ addedTo i (callsOf new) ++ addedTo i (callsOf new') =
      outs i ++ addedTo i (callsOf (new ++ new')) := by
  rw [callsOf, callsOf, callsOf, List.map_append, addedTo, addedTo, addedTo, List.filter_append,
    List.map_append, List.append_assoc]

end Parts

def Starves (t : Runtime.IoSets.State) (halt : Outcome) : Prop :=
  ∃ e : Runtime.IoSets.Fault, halt = .second e ∧ t.refused < e.refused

section Handing

variable (full : Prop) (d : SystemData) (m start : Memory)

/-- The runtime was refused memory, or the process has ended with `ENOMEM` after a part of the
files. -/
def Stops (outs : Nat → List IoBuffer) (t : Runtime.IoSets.State)
    (files : List (Nat × Path × List UInt8)) (halt : Outcome) : Prop :=
  Starves t halt ∨ ¬ full ∧ ∃ f t' new, halt = .ended f t' ∧ t'.sysdata.exitCode = eNOMEM ∧
    Handed full m start f.memory files new ∧ Encodes t' d.outputSetsLen fun i =>
      outs i ++ addedTo i (callsOf new)

/-- From a state on, which has grown out of `start`, the program adds outputs for files. -/
def Hands {α : Type} (good : α → Prop) (x : Run α) (s : FileSystem.State)
    (files : List (Nat × Path × List UInt8)) :
    Prop :=
  ∀ t outs, Serves d outs t →
    Meets x (s, t) (fun a p => p.2.refused = t.refused ∧ (full → good a) ∧ ∃ new,
      Handed full m start p.1.memory files new ∧
        Serves d (fun i => outs i ++ addedTo i (callsOf new)) p.2)
    (Stops full d m start outs t files)

end Handing

variable {H : Host} {d : SystemData} {α β : Type} {good : α → Prop} {good' : β → Prop}
  {s s₁ : FileSystem.State} {start : Memory} {x : Run α} {g : α → Run β}

section Rules

theorem Hands.pure {a : α} (hGood : full → good a) (hStart : Retains start s.memory)
    (hFiles : full → files = []) :
    Hands full d m start good (Pure.pure a) s files := by
  intro t outs hServes
  refine .pure ⟨rfl, hGood, [], .nothing hStart hFiles, ?_⟩
  simpa [callsOf, addedTo] using hServes

theorem Hands.short {a : α} (hShort : ¬ full) (hStart : Retains start s.memory) :
    Hands full d m start good (Pure.pure a) s files :=
  .pure (fun hFull => absurd hFull hShort) hStart fun hFull => absurd hFull hShort

theorem Hands.ite {c : Prop} [Decidable c] {x' : Run α}
    (h : c → Hands full d m start good x s files)
    (h' : ¬ c → Hands full d m start good x' s files) :
    Hands full d m start good (if c then x else x') s files := by
  split
  · exact h ‹_›
  · exact h' ‹_›

theorem Hands.after {z : FileSystem.M α} {a : α} (hz : z s = .ok (a, s₁))
    (hg : Hands full d m start good' (g a) s₁ files) :
    Hands full d m start good' (onFirst z >>= g) s files :=
  fun t outs hServes => .after (onFirst_ok hz) (hg t outs hServes)

theorem Hands.answered {y : Runtime.IoSets.M α} {a : α}
    (hy : ∀ t outs, Serves d outs t → y t = .ok (a, t))
    (hg : Hands full d m start good' (g a) s files) :
    Hands full d m start good' (onSecond y >>= g) s files :=
  fun t outs hServes => .after (onSecond_ok (hy t outs hServes)) (hg t outs hServes)

theorem Hands.bind (hx : Hands full d m start good x s files)
    (hg : ∀ a s₁, (full → good a) → Retains start s₁.memory →
      Hands full d m s₁.memory good' (g a) s₁ files') :
    Hands full d m start good' (x >>= g) s (files ++ files') := by
  intro t outs hServes
  refine ((hx t outs hServes).mono (fun _ _ h => h) fun halt hStops => ?_).bind fun a p hPost => ?_
  · rcases hStops with hStarves | ⟨hShort, f, t', new, rfl, hCode, hNew, hEncodes⟩
    · exact Or.inl hStarves
    · have hNothing : Handed full m f.memory f.memory files' [] :=
        .nothing (.refl _) fun hFull => absurd hFull hShort
      have hPart := hNew.trans hNothing
      rw [List.append_nil] at hPart
      exact Or.inr ⟨hShort, f, t', new, rfl, hCode, hPart, hEncodes⟩
  · obtain ⟨hRefused, hGood, new, hNew, hServes'⟩ := hPost
    refine (hg a p.1 hGood hNew.retains p.2 _ hServes').mono (fun _ q hPost' => ?_)
      fun halt hStops => ?_
    · obtain ⟨hRefused', hGood', new', hNew', hServes''⟩ := hPost'
      simp only [addedTo_callsOf] at hServes''
      exact ⟨hRefused'.trans hRefused, hGood', new ++ new', hNew.trans hNew', hServes''⟩
    · rcases hStops with ⟨e, rfl, hMore⟩ | ⟨hShort, f, t', new', rfl, hCode, hNew', hEncodes⟩
      · exact Or.inl ⟨e, rfl, by rwa [hRefused] at hMore⟩
      · simp only [addedTo_callsOf] at hEncodes
        exact Or.inr ⟨hShort, f, t', new ++ new', rfl, hCode, hNew.trans hNew', hEncodes⟩

theorem Hands.ends (hShort : ¬ full) (hStart : Retains start s.memory) :
    Hands full d m start good (endWith (dandelionExit H.sets eNOMEM) : Run α) s files := by
  intro t outs hServes
  have hExit := hServes.exit (P := H.sets) eNOMEM
  cases hRun : dandelionExit H.sets eNOMEM t with
  | error e => exact .of_error (by rw [endWith, hRun]) (Or.inl ⟨e, rfl, hExit.failure hRun⟩)
  | ok r =>
    obtain ⟨⟨⟩, t'⟩ := r
    obtain ⟨hCode, hEncodes⟩ := hExit.result hRun
    refine .of_error (by rw [endWith, hRun]) (Or.inr ⟨hShort, s, t', [], rfl, hCode,
      .nothing hStart fun hFull => absurd hFull hShort, ?_⟩)
    simpa [callsOf, addedTo] using hEncodes

theorem Hands.emit (out : Output) {file : Nat × Path × List UInt8} {a : α} (hGood : full → good a)
    (hStart : Retains start s.memory) (hOut : Exported m start s.memory file.1 out file.2) :
    Hands full d m start good
      (onSecond (dandelionAddOutput H.sets out.set (bufferOf out)) >>= fun _ => Pure.pure a) s
        [file] := by
  intro t outs hServes
  have hAdd := hServes.addOutput (P := H.sets) out.set (bufferOf out)
  cases hRun : dandelionAddOutput H.sets out.set (bufferOf out) t with
  | error e =>
    exact .of_error (bind_error (onSecond_error hRun)) (Or.inl ⟨e, rfl, hAdd.failure hRun⟩)
  | ok r =>
    obtain ⟨hServes', hRefused⟩ := hAdd.result hRun
    exact .of_ok (bind_ok (onSecond_ok hRun)) ⟨hRefused, hGood, [out],
      ⟨hStart, [file], .refl _, fun _ => rfl, .cons hOut .nil⟩, hServes'⟩

end Rules

end Dandelion.Program
