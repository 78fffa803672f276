import Dandelion.FileSystem.CopyChecks
import Dandelion.FileSystem.ReadLaw
import Dandelion.FileSystem.SoundStart
import Dandelion.FileSystem.SteadyRuns

/-! # Memory stays sound along runs

Offsets and lengths are of type `int64_t`, and strings are shorter than what an
`int` counts. Whatever else a program does, memory is sound then, and a file that
has content has it in chunks in good order.
-/

namespace Dandelion.FileSystem

open Foundation.Runs

def Call.Bounded : Call → Prop
  | .write _ bytes offset _ => bytes.length < 2 ^ 31 ∧ offset < 2 ^ 63
  | .lseek _ offset _ => offset < 2 ^ 63
  | .truncate _ length => length < 2 ^ 63
  | .ftruncate _ length => length < 2 ^ 63
  | _ => True

def Request.Bounded : Request → Prop
  | .call c => c.Bounded
  | .link _ _ => True

def Advances (P : Platform) (x : Session) (q : Request) (y : Session) : Prop :=
  q.Bounded ∧ Proceeds P x q y

/-- The arguments are in the ranges of their types, and a write starts where its first copy stays
inside. -/
def Call.Inside (s : State) : Call → Prop
  | .write fd bytes offset options =>
    bytes.length < 2 ^ 64 ∧ StartsInside s fd bytes.length offset options
  | .lseek _ offset _ => offset < 2 ^ 63
  | .truncate _ length => length < 2 ^ 63
  | .ftruncate _ length => length < 2 ^ 63
  | _ => True

variable {P : Platform} {s : State} {m : Memory} {L : Ptr → List Ptr} {x y : Session} {p : Ptr}
  {l : List Piece}

section Runs

theorem Call.Bounded.inside {c : Call} (h : c.Bounded) (hSound : Sound s.memory) : c.Inside s := by
  cases c with
  | write fd bytes offset options =>
    exact ⟨Nat.lt_trans h.1 (by decide), hSound.startsInside fd options h.1 h.2⟩
  | lseek fd offset whence => exact h
  | truncate name length => exact h
  | ftruncate fd length => exact h
  | _ => trivial

theorem sound_call {c : Call} (hSound : Sound x.state.memory) (hc : c.Inside x.state)
    (hStep : Completes P x c y) :
    Sound y.state.memory := by
  have hDone : ∀ {k : M Int}, Ensures k x.state (fun _ s => Sound s.memory) →
      (do let _ ← k; pure x.dirs : M (List Ptr)) x.state = .ok (y.dirs, y.state) →
        Sound y.state.memory := by
    intro k hk hRun
    have hAll : Ensures (do let _ ← k; pure x.dirs : M (List Ptr)) x.state fun _ s =>
        Sound s.memory :=
      hk.bind fun _ _ h => .pure h
    exact hAll.result hRun
  have hReworks : ∀ {k : M Int} {sized : Prop}, Reworking sized k → sized →
      (do let _ ← k; pure x.dirs : M (List Ptr)) x.state = .ok (y.dirs, y.state) →
        Sound y.state.memory :=
    fun hk hSized => hDone ((hk x.state).imp fun _ _ h => h.sound hSized hSound)
  cases c with
  | write fd bytes offset options => exact hDone (dandelionWrite_agrees hSound hc.1 hc.2).2 hStep
  | lseek fd offset whence => exact hReworks (dandelionLseek_reworks fd offset whence) hc hStep
  | truncate name length => exact hReworks (dandelionTruncate_reworks name length) hc hStep
  | ftruncate fd length => exact hReworks (dandelionFtruncate_reworks fd length) hc hStep
  | _ =>
    exact ((handlingRules.perform handlingReleaseRules.releases x.dirs rfl fun _ =>
      handling_empties) x.state).result hStep hSound |>.1

theorem sound_of_started (h : Started P x) : Sound x.state.memory := by
  obtain ⟨_, sets, outputs, s, a, hBoots, hInit⟩ := h
  exact ((stocked_of_boots hBoots).result hInit rfl).sound

end Runs

section Tests

instance : DecidablePred Call.Bounded := fun c => by
  cases c <;> unfold Call.Bounded <;> infer_instance

theorem exists_of_boundedRun {P : Platform} (calls : List Call) (t : Session → Bool)
    (h : endsIn t (bareRunIf P (fun _ c => decide c.Bounded) calls) = true) :
    ∃ y, Reachable (Started P) (Advances P) y ∧ t y = true := by
  obtain ⟨y, hy, hTest⟩ := exists_of_bareRunIf (Started P)
    (fun x c y => Advances P x (.call c) y) _ calls t
    (fun s a hInit => ⟨rfl, _, _, _, a, boots_bareState, hInit⟩)
    (fun x c y hStep hc => ⟨show c.Bounded from of_decide_eq_true hc, hStep⟩) h
  refine ⟨y, ?_, hTest⟩
  clear hTest
  induction hy with
  | init hs => exact .init hs
  | step _ hNext ih => exact .step ih hNext

/-- A check that a descriptor is open on a regular file of a given content. -/
def opened (s : State) (fd : Nat) (c : List UInt8) : Bool :=
  (s.memory.files (s.openFiles fd).file).any fun f =>
    decide (f.type = .file) && decide (content s.memory f.link = some c)

theorem opened_iff {fd : Nat} {c : List UInt8} : opened s fd c = true ↔
    ∃ f, s.memory.files (s.openFiles fd).file = some f ∧
    f.type = .file ∧ content s.memory f.link = some c := by
  simp only [opened, Option.any_eq_true, Bool.and_eq_true, decide_eq_true_eq]

end Tests

section Content

theorem Sound.holds {c : FileChunk} (h : Sound m) (hWords : m.Words) (hp : p ≠ 0)
    (hc : m.chunks p = some c) : ∃ b, Holds m p c b := by
  obtain ⟨b, hb⟩ := h.holding.data _ _ hc
  obtain ⟨hData, hUsed, hSize⟩ := h.fits _ _ hc
  exact ⟨b, hp, hc, hData, hb, hUsed, hSize b hb, hWords.size _ b hb⟩

theorem Sound.filed (h : Sound m) (hWords : m.Words) (hl : Stored m p l) : Filed m p l := by
  have hHolds : ∀ x ∈ l, ∃ b, Holds m x.ptr x.chunk b := fun x hx =>
    h.holds hWords (hl.chain.ne_zero (List.mem_map.mpr ⟨x, hx, rfl⟩)) (hl.chunk_eq hx)
  refine ⟨hl, hHolds, ?_⟩
  -- chunks at different addresses have different blocks
  have hNodup := hl.chain.nodup
  rw [List.nodup_iff_pairwise_ne, List.pairwise_map] at hNodup ⊢
  exact hNodup.imp_of_mem fun {x y} hx hy hne hEq =>
    hne (h.holding.own _ _ _ _ (hl.chunk_eq hx) (hl.chunk_eq hy) hEq)

theorem Sound.filed_of_content {c : List UInt8} (h : Sound m) (hWords : m.Words)
    (hc : content m p = some c) : ∃ l, Filed m p l ∧ pieces m p = some l ∧ flat l = c := by
  obtain ⟨l, hl, hFlat⟩ := Option.map_eq_some_iff.mp hc
  exact ⟨l, h.filed hWords (pieces_eq_some.mp hl), hl, hFlat⟩

end Content

end Dandelion.FileSystem
