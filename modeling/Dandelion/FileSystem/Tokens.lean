import Dandelion.FileSystem.Boot

/-! # The grammar of argument strings

Arguments are separated by spaces outside of quotes. An argument is made of plain
characters and of quoted pieces, whose quotes are dropped. A string whose last
quote is not closed has one more argument that runs to its end.
-/

namespace Dandelion.FileSystem

inductive Fragment where
  | plain (c : UInt8)
  | quoted (quote : UInt8) (text : List UInt8)

def Fragment.source : Fragment → List UInt8
  | .plain c => [c]
  | .quoted quote text => quote :: text ++ [quote]

def Fragment.value : Fragment → List UInt8
  | .plain c => [c]
  | .quoted _ text => text

/-- The characters `'` and `"`. -/
def quotes : List UInt8 := [39, 34]

def Fragment.Proper : Fragment → Prop
  | .plain c => c ≠ space ∧ c ∉ quotes
  | .quoted quote text => quote ∈ quotes ∧ quote ∉ text

def sourceOf (l : List Fragment) : List UInt8 := l.flatMap Fragment.source

def valueOf (l : List Fragment) : List UInt8 := l.flatMap Fragment.value

def Ends (rest : List UInt8) : Prop := rest = [] ∨ ∃ r, rest = space :: r

/-- Arguments and spaces, and what is left at the end. -/
inductive Splits (Left : List UInt8 → List (List UInt8) → Prop) :
    List UInt8 → List (List UInt8) → Prop
  | left {rest : List UInt8} {args : List (List UInt8)} : Left rest args → Splits Left rest args
  | space {rest : List UInt8} {args : List (List UInt8)} : Splits Left rest args →
      Splits Left (space :: rest) args
  | argument {l : List Fragment} {rest : List UInt8} {args : List (List UInt8)} :
      l ≠ [] → (∀ x ∈ l, x.Proper) →
      Ends rest → Splits Left rest args → Splits Left (sourceOf l ++ rest) (valueOf l :: args)

def Grammar : List UInt8 → List (List UInt8) → Prop := Splits fun rest args => rest = [] ∧ args = []

/-- The last argument has a quote that is not closed. -/
def OpenQuote (rest : List UInt8) (args : List (List UInt8)) : Prop :=
  ∃ l quote text, (∀ x ∈ l, Fragment.Proper x) ∧ quote ∈ quotes ∧ quote ∉ text ∧
    rest = sourceOf l ++ quote :: text ∧ args = [valueOf l ++ text]

def Ragged : List UInt8 → List (List UInt8) → Prop := Splits OpenQuote

/-- Every quote is closed by the same character; the quote that is open at the start is given. -/
def closedIn : Option UInt8 → List UInt8 → Bool
  | none, [] => true
  | some _, [] => false
  | none, c :: rest => if c ∈ quotes then closedIn (some c) rest else closedIn none rest
  | some quote, c :: rest => if c = quote then closedIn none rest else closedIn (some quote) rest

def closed (bytes : List UInt8) : Bool := closedIn none bytes

variable {l : List Fragment} {bytes rest text : List UInt8} {args : List (List UInt8)}
  {quote : UInt8}

section Closed

theorem isQuote_iff {c : UInt8} : isQuote c = true ↔ c ∈ quotes := by simp [isQuote, quotes]

theorem isQuote_of_plain {c : UInt8} (h : c ∉ quotes) : ¬ isQuote c = true := mt isQuote_iff.mp h

theorem sourceOf_cons (x : Fragment) (l : List Fragment) :
    sourceOf (x :: l) = x.source ++ sourceOf l := rfl

theorem valueOf_cons (x : Fragment) (l : List Fragment) :
    valueOf (x :: l) = x.value ++ valueOf l := rfl

theorem closedIn_text (h : quote ∉ text) :
    closedIn (some quote) (text ++ rest) = closedIn (some quote) rest := by
  induction text with
  | nil => rfl
  | cons c text ih =>
    rw [List.mem_cons, not_or] at h
    rw [List.cons_append, closedIn, if_neg (Ne.symm h.1), ih h.2]

theorem closedIn_sourceOf (h : ∀ x ∈ l, x.Proper) :
    closedIn none (sourceOf l ++ rest) = closedIn none rest := by
  induction l with
  | nil => rfl
  | cons x l ih =>
    have hRest := ih fun y hy => h y (List.mem_cons_of_mem _ hy)
    have hx := h x List.mem_cons_self
    rw [sourceOf_cons, List.append_assoc]
    cases x with
    | plain c =>
      rw [Fragment.source, List.singleton_append, closedIn, if_neg hx.2, hRest]
    | quoted quote text =>
      rw [Fragment.source, List.cons_append, List.cons_append, closedIn, if_pos hx.1,
        List.append_assoc, closedIn_text hx.2, List.singleton_append, closedIn, if_pos rfl, hRest]

theorem Splits.closed_eq {Left : List UInt8 → List (List UInt8) → Prop} {b : Bool}
    (hLeft : ∀ rest args, Left rest args → closed rest = b) (h : Splits Left bytes args) :
    closed bytes = b := by
  induction h with
  | left h => exact hLeft _ _ h
  | space _ ih =>
    rw [closed, closedIn, if_neg (by decide)]
    exact ih
  | argument _ hProper _ _ ih =>
    rw [closed, closedIn_sourceOf hProper]
    exact ih

theorem Grammar.closed (h : Grammar bytes args) : closed bytes = true := by
  refine h.closed_eq fun rest args hLeft => ?_
  rw [hLeft.1]
  rfl

theorem Ragged.not_closed (h : Ragged bytes args) : FileSystem.closed bytes = false := by
  refine h.closed_eq fun rest args hLeft => ?_
  obtain ⟨l, quote, text, hProper, hQuote, hText, rfl, -⟩ := hLeft
  rw [FileSystem.closed, closedIn_sourceOf hProper, closedIn, if_pos hQuote, ← List.append_nil text,
    closedIn_text hText, closedIn]

end Closed

section Split

theorem quote_split (quote : UInt8) (bytes : List UInt8) :
    (∃ text rest, quote ∉ text ∧ bytes = text ++ quote :: rest) ∨ quote ∉ bytes := by
  by_cases h : quote ∈ bytes
  · obtain ⟨text, rest, hSplit, hNot⟩ := List.eq_append_cons_of_mem h
    exact Or.inl ⟨text, rest, hNot, hSplit⟩
  · exact Or.inr h

theorem fragments_split (bytes : List UInt8) :
    ∃ l rest, (∀ x ∈ l, x.Proper) ∧ bytes = sourceOf l ++ rest ∧
    (Ends rest ∨ ∃ quote text, quote ∈ quotes ∧ quote ∉ text ∧ rest = quote :: text) := by
  induction hLength : bytes.length using Nat.strongRecOn generalizing bytes with
  | ind n ih =>
    cases bytes with
    | nil => exact ⟨[], [], fun _ h => absurd h List.not_mem_nil, rfl, Or.inl (Or.inl rfl)⟩
    | cons c bytes =>
      by_cases hSpace : c = space
      · exact ⟨[], c :: bytes, fun _ h => absurd h List.not_mem_nil, rfl,
          Or.inl (Or.inr ⟨bytes, by rw [hSpace]⟩)⟩
      -- one fragment is split off and the rest is shorter
      have hStep : ∀ x : Fragment, ∀ rest, x.Proper → c :: bytes = x.source ++ rest →
          rest.length < n →
          ∃ l rest, (∀ x ∈ l, x.Proper) ∧ c :: bytes = sourceOf l ++ rest ∧
            (Ends rest ∨ ∃ quote text, quote ∈ quotes ∧ quote ∉ text ∧ rest = quote :: text) := by
        intro x rest hx hSplit hLess
        obtain ⟨l, tail, hProper, rfl, hEnd⟩ := ih rest.length hLess rest rfl
        refine ⟨x :: l, tail, fun y hy => ?_, by rw [hSplit, sourceOf_cons, List.append_assoc],
          hEnd⟩
        rcases List.mem_cons.mp hy with rfl | hy
        · exact hx
        · exact hProper y hy
      by_cases hQuote : c ∈ quotes
      · rcases quote_split c bytes with ⟨text, rest, hText, rfl⟩ | hOpen
        · refine hStep (.quoted c text) rest ⟨hQuote, hText⟩ (by simp [Fragment.source]) ?_
          rw [← hLength]
          simp only [List.length_cons, List.length_append]
          omega
        · exact ⟨[], c :: bytes, fun _ h => absurd h List.not_mem_nil, rfl,
            Or.inr ⟨c, bytes, hQuote, hOpen, rfl⟩⟩
      · exact hStep (.plain c) bytes ⟨hSpace, hQuote⟩ rfl
          (by rw [← hLength]; exact Nat.lt_succ_self _)

theorem sourceOf_ne_nil (h : l ≠ []) : 0 < (sourceOf l).length := by
  cases l with
  | nil => exact absurd rfl h
  | cons x l =>
    rw [sourceOf_cons, List.length_append]
    cases x with
    | plain c => exact Nat.lt_of_lt_of_le Nat.one_pos (Nat.le_add_right 1 _)
    | quoted quote text =>
      rw [Fragment.source]
      simp only [List.length_cons, List.length_append]
      omega

theorem grammar_or_ragged (bytes : List UInt8) :
    (∃ args, Grammar bytes args) ∨ ∃ args, Ragged bytes args := by
  induction hLength : bytes.length using Nat.strongRecOn generalizing bytes with
  | ind n ih =>
    obtain ⟨l, rest, hProper, rfl, hEnd⟩ := fragments_split bytes
    rcases hEnd with hEnd | ⟨quote, text, hQuote, hText, rfl⟩
    · by_cases hEmpty : l = []
      · subst hEmpty
        rcases hEnd with rfl | ⟨r, rfl⟩
        · exact Or.inl ⟨[], .left ⟨rfl, rfl⟩⟩
        · have hLess : r.length < n := by
            rw [← hLength]
            exact Nat.lt_succ_self _
          rcases ih r.length hLess r rfl with ⟨args, h⟩ | ⟨args, h⟩
          · exact Or.inl ⟨args, .space h⟩
          · exact Or.inr ⟨args, .space h⟩
      · have hLess : rest.length < n := by
          rw [← hLength, List.length_append]
          have := sourceOf_ne_nil hEmpty
          omega
        rcases ih rest.length hLess rest rfl with ⟨args, h⟩ | ⟨args, h⟩
        · exact Or.inl ⟨_, .argument hEmpty hProper hEnd h⟩
        · exact Or.inr ⟨_, .argument hEmpty hProper hEnd h⟩
    · exact Or.inr ⟨_, .left ⟨l, quote, text, hProper, hQuote, hText, rfl, rfl⟩⟩

theorem closed_iff_grammar : closed bytes = true ↔ ∃ args, Grammar bytes args := by
  constructor
  · intro h
    rcases grammar_or_ragged bytes with hGrammar | ⟨args, hRagged⟩
    · exact hGrammar
    · rw [hRagged.not_closed] at h
      cases h
  · rintro ⟨args, h⟩
    exact h.closed

end Split

end Dandelion.FileSystem
