import Dandelion.FileSystem.Run
import Dandelion.FileSystem.Tokenizer

/-! # What `setup_charpparray` makes of a string

Strings whose quotes are closed are split as the grammar says. An open quote
makes the code read behind the data.
-/

namespace Dandelion.FileSystem

open Foundation.Triples Foundation.Words

variable {P : Platform} {s : State} {data : Ptr} {bytes : List UInt8} {args : List (List UInt8)}

section Results

theorem Grammar.length_le (h : Grammar bytes args) : args.length ≤ bytes.length := by
  induction h with
  | left h =>
    rw [h.1, h.2]
    exact Nat.le_refl 0
  | space _ ih => exact Nat.le_succ_of_le ih
  | argument hne _ _ _ ih =>
    have hPositive := sourceOf_ne_nil hne
    rw [List.length_cons, List.length_append]
    omega

def stringState (bytes : List UInt8) : State where
  memory := staticMemory.setBlock staticEnd ⟨bytes.length, fun i => bytes.getD i 0, true⟩
  openFiles _ := ⟨0, 0, 0, 0⟩
  requests := 0

theorem load_stringState (bytes : List UInt8) :
    (stringState bytes).memory.load staticEnd 0 bytes.length = some bytes := by
  have hBlock : (stringState bytes).memory.blocks staticEnd =
      some ⟨bytes.length, fun i => bytes.getD i 0, true⟩ :=
    Function.update_self staticEnd _ staticMemory.blocks
  rw [load_block (by decide) hBlock (by rw [Nat.zero_add]), Option.some.injEq]
  apply List.ext_getElem
  · rw [List.length_map, List.length_range]
  · intro i hi hi'
    simp only [List.getElem_map, List.getElem_range, Nat.zero_add]
    exact List.getD_eq_getElem _ _ hi'

theorem setupCharpparray_meets_grammar (hGrants : P.Grants)
    (hData : s.memory.load data 0 bytes.length = some bytes) (hne : bytes ≠ [])
    (hSmall : bytes.length < 2 ^ 31) (hClosed : closed bytes = true) :
    (∃ args, Grammar bytes args) ∧ ∀ args, Grammar bytes args → toInt32 args.length = args.length ∧
      ∃ array s', setupCharpparray P data bytes.length s = .ok ((args.length, array), s') ∧
        ArgumentArray s' array args := by
  refine ⟨closed_iff_grammar.mp hClosed, fun args h =>
    ⟨?_, setupCharpparray_ok hGrants hData hne h⟩⟩
  have hLength := h.length_le
  exact toInt32_of_small (by omega) (by omega)

/-- The string `a 'b c'""` has the arguments `a` and `b c`. -/
theorem setupCharpparray_meets_grammar_quoted :
    Grammar [97, 32, 39, 98, 32, 99, 39, 34, 34] [[97], [98, 32, 99]] ∧
    ∃ array s', setupCharpparray (Platform.bump 0) staticEnd 9
      (stringState [97, 32, 39, 98, 32, 99, 39, 34, 34]) =
      .ok ((2, array), s') ∧ ArgumentArray s' array [[97], [98, 32, 99]] := by
  have hGrammar : Grammar [97, 32, 39, 98, 32, 99, 39, 34, 34] [[97], [98, 32, 99]] := by
    refine .argument (l := [.plain 97]) (List.cons_ne_nil _ _) ?_ (Or.inr ⟨_, rfl⟩) (.space ?_)
    · simp [Fragment.Proper, quotes, space]
    · refine .argument (l := [.quoted 39 [98, 32, 99], .quoted 34 []]) (List.cons_ne_nil _ _) ?_
        (Or.inl rfl) (.left ⟨rfl, rfl⟩)
      simp [Fragment.Proper, quotes]
  have hMeets := setupCharpparray_meets_grammar (grants_bump 0)
    (load_stringState [97, 32, 39, 98, 32, 99, 39, 34, 34]) (by decide) (by decide) (by decide)
  exact ⟨hGrammar, (hMeets.2 _ hGrammar).2⟩

/-- The block at the pointer is the string and nothing more. -/
def Supplies (s : State) (data : Ptr) (bytes : List UInt8) : Prop :=
  s.memory.load data 0 bytes.length = some bytes ∧
    (bytes ≠ [] → ∀ b, s.memory.blocks data = some b → b.size = bytes.length)

theorem supplies_stringState (bytes : List UInt8) :
    Supplies (stringState bytes) staticEnd bytes := by
  refine ⟨load_stringState bytes, fun _ b hb => ?_⟩
  obtain rfl := Option.mem_unique (Function.update_self staticEnd _ staticMemory.blocks) hb
  rfl

/-- Both passes end and agree: every argument that was counted has its string, ended where it was
counted to end. -/
def TokenizesSafely (P : Platform) (s : State) (data : Ptr) (bytes : List UInt8) : Prop :=
  ∃ args array s', (Grammar bytes args ∨ Ragged bytes args) ∧
    setupCharpparray P data bytes.length s = .ok ((args.length, array), s') ∧
    (bytes ≠ [] → ArgumentArray s' array args)

theorem Supplies.outside (h : Supplies s data bytes) (hne : bytes ≠ []) {s' : State}
    (hs : s'.memory.blocks data = s.memory.blocks data) :
    dataAt data bytes.length s' = .error .bounds := by
  obtain ⟨b, hb⟩ := exists_block_of_load (List.length_pos_iff.mpr hne) h.1
  rw [dataAt, bind_ok (getBlockAt_ok (setupCharpparray_nonempty h.1 hne).1 (hs.trans hb)),
    if_neg (Nat.not_lt.mpr (Nat.le_of_eq (h.2 hne b hb)))]
  rfl

theorem setupCharpparray_empty (P : Platform) (s : State) (data : Ptr) :
    ∃ s', setupCharpparray P data 0 s = .ok ((0, 0), s') := by
  rw [setupCharpparray, if_pos (Or.inr rfl)]
  cases hg : P.answer s.memory s.requests 8 8 with
  | none =>
    have hAlloc : allocBlock P 8 8 s = .ok (0, { s with requests := s.requests + 1 }) := by
      simp only [allocBlock, dandelionAlloc, hg]
    exact ⟨_, bind_ok hAlloc⟩
  | some g => exact ⟨_, bind_ok (dandelionAlloc_ok hg)⟩

theorem tokenizes_safely_iff (hData : Supplies s data bytes) :
    (closed bytes = true → P.Grants → TokenizesSafely P s data bytes) ∧
      (TokenizesSafely P s data bytes → closed bytes = true) := by
  by_cases hne : bytes = []
  · subst hne
    obtain ⟨s', hSetup⟩ := setupCharpparray_empty P s data
    exact ⟨fun _ _ => ⟨[], 0, s', Or.inl (.left ⟨rfl, rfl⟩), hSetup, fun h => absurd rfl h⟩,
      fun _ => rfl⟩
  · constructor
    · intro hClosed hGrants
      obtain ⟨args, h⟩ := closed_iff_grammar.mp hClosed
      obtain ⟨array, s', hSetup, hArray⟩ := setupCharpparray_ok hGrants hData.1 hne h
      exact ⟨args, array, s', Or.inl h, hSetup, fun _ => hArray⟩
    · rintro ⟨args, array, s', hGrammar | hRagged, hSetup, -⟩
      · exact hGrammar.closed
      · exact ((setupCharpparray_ragged hData.1 (fun _ hs => hData.outside hne hs) hne
          hRagged).result hSetup).elim

theorem tokenizes_safely_plain : (closed [97, 39, 32, 39] = true → (Platform.bump 0).Grants →
      TokenizesSafely (Platform.bump 0) (stringState [97, 39, 32, 39]) staticEnd [97, 39, 32, 39]) ∧
    (TokenizesSafely (Platform.bump 0) (stringState [97, 39, 32, 39]) staticEnd [97, 39, 32, 39] →
      closed [97, 39, 32, 39] = true) :=
  tokenizes_safely_iff (supplies_stringState _)

/-- A single quote: the copy reads the byte behind it. -/
theorem tokenizes_safely_fails : Supplies (stringState [39]) staticEnd [39] ∧
    ¬ TokenizesSafely (Platform.bump 0) (stringState [39]) staticEnd [39] := by
  refine ⟨supplies_stringState _, ?_⟩
  rintro ⟨args, array, s', -, hSetup, -⟩
  have hFails :
      (setupCharpparray (Platform.bump 0) staticEnd 1 (stringState [39])).toOption.isSome =
        false := by
    decide +kernel
  rw [show setupCharpparray (Platform.bump 0) staticEnd 1 (stringState [39]) =
    _ from hSetup] at hFails
  cases hFails

end Results

end Dandelion.FileSystem
