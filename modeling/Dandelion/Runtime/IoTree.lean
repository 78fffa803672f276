import Mathlib.Algebra.BigOperators.Group.Finset.Basic
import Dandelion.Runtime.IoSets

/-! # The tree of sets

What a set of the tree holds, and what the loops over cells of an array do.
`dandelion_init` builds the input tree from the flat description.
-/

namespace Dandelion.Runtime.IoSets

open Foundation.Words Foundation.Triples

variable {α : Type} {P : Platform} {s s' : State} {m m' : Memory} {p q : Ptr} {i j k n : Nat}

section Blocks

def Block.fill (b : Block α) (start : Nat) (l : List α) : Block α :=
  { b with cell := fun i => if start ≤ i then l[i - start]?.getD (b.cell i) else b.cell i }

theorem Block.fill_nil (b : Block α) (start : Nat) : b.fill start [] = b := by
  simp [Block.fill]

theorem Block.fill_cons (b : Block α) (start : Nat) (x : α) (l : List α) :
    ({ b with cell := Function.update b.cell start x } : Block α).fill (start + 1) l =
    b.fill start (x :: l) := by
  simp only [Block.fill, Block.mk.injEq, true_and]
  funext i
  rcases Nat.lt_trichotomy i start with hi | rfl | hi
  · rw [if_neg (by omega), if_neg (by omega), Function.update_of_ne (by omega)]
  · rw [if_neg (by omega), if_pos le_rfl, Function.update_self]
    simp
  · rw [if_pos (show start + 1 ≤ i by omega), if_pos (show start ≤ i by omega),
      Function.update_of_ne (by omega), show i - start = i - (start + 1) + 1 by omega,
      List.getElem?_cons_succ]

theorem Block.fill_fill (b : Block α) (start : Nat) (l l' : List α) :
    (b.fill start l).fill (start + l.length) l' = b.fill start (l ++ l') := by
  induction l generalizing b start with
  | nil => rw [fill_nil, List.nil_append, List.length_nil, Nat.add_zero]
  | cons x l ih =>
    rw [List.cons_append, ← fill_cons, ← fill_cons, List.length_cons, ← ih,
      show start + (l.length + 1) = start + 1 + l.length by omega]

theorem Block.fill_cell (b : Block α) (start : Nat) {l : List α} {x : α} (h : l[i]? = some x) :
    (b.fill start l).cell (start + i) = x := by
  simp only [Block.fill]
  rw [if_pos (Nat.le_add_right _ _), Nat.add_sub_cancel_left, h, Option.getD_some]

def Room (m : Memory) (p : Ptr) (n : Nat) : Prop :=
  n ≠ 0 → p ≠ 0 ∧ ∃ b, m.buffers p = some b ∧ sizeofIoBuffer * n ≤ b.size

def Memory.fillAt (m : Memory) (p : Ptr) (start : Nat) (l : List IoBuffer) : Memory :=
  if l = [] then m
  else { m with buffers := Function.update m.buffers p ((m.buffers p).map fun b => b.fill start l) }

theorem fillAt_of_block {b : Block IoBuffer} (h : m.buffers p = some b) (start : Nat)
    (l : List IoBuffer) :
    m.fillAt p start l =
      { m with buffers := Function.update m.buffers p (some (b.fill start l)) } := by
  by_cases hl : l = []
  · subst hl
    rw [Memory.fillAt, if_pos rfl, Block.fill_nil, ← h, Function.update_eq_self]
  · rw [Memory.fillAt, if_neg hl, h, Option.map_some]

theorem fillAt_nil (m : Memory) (p : Ptr) (start : Nat) : m.fillAt p start [] = m := if_pos rfl

theorem fillAt_of_none (h : m.buffers p = none) (start : Nat) (l : List IoBuffer) :
    m.fillAt p start l = m := by
  rw [Memory.fillAt, h, Option.map_none, ← h, Function.update_eq_self]
  exact ite_self m

theorem fillAt_fillAt (m : Memory) (p : Ptr) (start : Nat) (l l' : List IoBuffer) :
    (m.fillAt p start l).fillAt p (start + l.length) l' = m.fillAt p start (l ++ l') := by
  cases hb : m.buffers p with
  | none => rw [fillAt_of_none hb, fillAt_of_none hb, fillAt_of_none hb]
  | some b =>
    rw [fillAt_of_block hb, fillAt_of_block hb,
      fillAt_of_block (b := b.fill start l) (Function.update_self _ _ _), Block.fill_fill,
      Function.update_idem]

theorem fillAt_sets (m : Memory) (p : Ptr) (start : Nat) (l : List IoBuffer) :
    (m.fillAt p start l).sets = m.sets := by
  unfold Memory.fillAt
  split <;> rfl

theorem fillAt_inUse (m : Memory) (p : Ptr) (start : Nat) (l : List IoBuffer) :
    (m.fillAt p start l).inUse = m.inUse := by
  unfold Memory.fillAt
  split <;> rfl

theorem fillAt_of_ne (m : Memory) (start : Nat) (l : List IoBuffer) (hq : q ≠ p) :
    (m.fillAt p start l).buffers q = m.buffers q := by
  unfold Memory.fillAt
  split
  · rfl
  · exact Function.update_of_ne hq _ _

theorem Room.fillAt (h : Room m q n) (p : Ptr) (start : Nat) (l : List IoBuffer) :
    Room (m.fillAt p start l) q n := by
  intro hn
  obtain ⟨hq, b, hb, hSize⟩ := h hn
  by_cases hp : q = p
  · subst hp
    rw [fillAt_of_block hb]
    exact ⟨hq, _, Function.update_self _ _ _, hSize⟩
  · exact ⟨hq, b, by rw [fillAt_of_ne m start l hp, hb], hSize⟩

theorem Room.mono (h : Room m p n) (hk : k ≤ n) : Room m p k := by
  intro hne
  obtain ⟨hp, b, hb, hSize⟩ := h (by omega)
  exact ⟨hp, b, hb, Nat.le_trans (Nat.mul_le_mul_left _ hk) hSize⟩

end Blocks

section Rules

theorem blockAt_ok {table : Memory → Ptr → Option (Block α)} {unit : Nat} {b : Block α} (hp : p ≠ 0)
    (h : table s.memory p = some b) (hFit : unit * (i + 1) ≤ b.size) :
    blockAt table unit p i s = .ok (b, s) := by
  simp only [blockAt, if_neg hp, h, if_pos hFit]

theorem entry_ok {l : List α} {x : α} (h : l[i]? = some x) : entry l i s = .ok (x, s) := by
  simp only [entry, h]
  rfl

theorem getBuffer_ok {b : Block IoBuffer} (hp : p ≠ 0) (h : s.memory.buffers p = some b)
    (hFit : sizeofIoBuffer * (i + 1) ≤ b.size) : getBuffer p i s = .ok (b.cell i, s) := by
  rw [getBuffer, bind_ok (blockAt_ok hp h hFit)]
  rfl

theorem setBuffer_ok {b : Block IoBuffer} {x : IoBuffer} (hp : p ≠ 0)
    (h : s.memory.buffers p = some b) (hFit : sizeofIoBuffer * (i + 1) ≤ b.size) :
    setBuffer p i x s = .ok ((), { s with memory := s.memory.fillAt p i [x] }) := by
  rw [setBuffer, bind_ok (blockAt_ok hp h hFit), fillAt_of_block h, ← Block.fill_cons,
    Block.fill_nil]

structure SetArray (m : Memory) (p : Ptr) (n : Nat) (cells : Nat → IoSet) : Prop where
  block : n ≠ 0 → p ≠ 0 ∧ ∃ size, sizeofIoSet * n ≤ size ∧ m.sets p = some ⟨size, cells⟩

theorem SetArray.get_ok {cells : Nat → IoSet} (h : SetArray s.memory p n cells) (hi : i < n) :
    getSet p i s = .ok (cells i, s) := by
  obtain ⟨hp, size, hSize, hSets⟩ := h.block (by omega)
  have hFit : sizeofIoSet * (i + 1) ≤ size := Nat.le_trans (Nat.mul_le_mul_left _ hi) hSize
  rw [getSet, bind_ok (blockAt_ok hp hSets hFit)]
  rfl

theorem SetArray.modify_ok {cells : Nat → IoSet} (h : SetArray s.memory p n cells) (hi : i < n)
    (g : IoSet → IoSet) :
    ∃ s', modifySet p i g s = .ok ((), s') ∧
      SetArray s'.memory p n (Function.update cells i (g (cells i))) ∧
      s'.memory.buffers = s.memory.buffers ∧ s'.memory.inUse = s.memory.inUse ∧
      (∀ q, q ≠ p → s'.memory.sets q = s.memory.sets q) ∧ s'.sysdata = s.sysdata ∧
        s'.rtdata = s.rtdata ∧
      s'.refused = s.refused := by
  obtain ⟨hp, size, hSize, hSets⟩ := h.block (by omega)
  have hFit : sizeofIoSet * (i + 1) ≤ size := Nat.le_trans (Nat.mul_le_mul_left _ hi) hSize
  refine ⟨_, bind_ok (blockAt_ok hp hSets hFit),
    ⟨fun _ => ⟨hp, size, hSize, Function.update_self _ _ _⟩⟩, rfl, rfl, fun q hq =>
      Function.update_of_ne hq _ _, rfl, rfl, rfl⟩

end Rules

section Loops

def part (bufs : List IoBuffer) (start count : Nat) : List IoBuffer := (bufs.drop start).take count

theorem part_succ {bufs : List IoBuffer} {x : IoBuffer} {start : Nat} (h : bufs[start]? = some x)
    (k : Nat) :
    part bufs start (k + 1) = x :: part bufs (start + 1) k := by
  obtain ⟨hLt, rfl⟩ := List.getElem?_eq_some_iff.mp h
  rw [part, List.drop_eq_getElem_cons hLt, List.take_succ_cons, part]

theorem decodeBuffers_ok {bufs : List IoBuffer} (offset : Nat) (hRoom : Room s.memory p (j + k))
    (hIn : offset + (j + k) ≤ bufs.length) (hWord : bufs.length < 2 ^ 64) :
    decodeBuffers bufs p offset k j s =
      .ok ((), { s with memory := s.memory.fillAt p j (part bufs (offset + j) k) }) := by
  induction k generalizing s j with
  | zero =>
    rw [decodeBuffers, part, List.take_zero, fillAt_nil]
    rfl
  | succ k ih =>
    obtain ⟨hp, b, hb, hSize⟩ := hRoom (by omega)
    have hAt : bufs[offset + j]? = some bufs[offset + j] := List.getElem?_eq_getElem (by omega)
    have hWordAt : bufs[add64 offset j]? = some bufs[offset + j] := by
      rw [add64_of_lt (by omega)]
      exact hAt
    have hFit : sizeofIoBuffer * (j + 1) ≤ b.size :=
      Nat.le_trans (Nat.mul_le_mul_left _ (by omega)) hSize
    have hRoom' : Room (s.memory.fillAt p j [bufs[offset + j]]) p (j + 1 + k) := by
      rw [show j + 1 + k = j + (k + 1) by omega]
      exact hRoom.fillAt p j _
    rw [decodeBuffers, bind_ok (entry_ok hWordAt), bind_ok (setBuffer_ok hp hb hFit),
      ih (s := { s with memory := s.memory.fillAt p j [bufs[offset + j]] }) hRoom' (by omega),
      part_succ hAt, ← Nat.add_assoc]
    have hFill := fillAt_fillAt s.memory p j [bufs[offset + j]] (part bufs (offset + j + 1) k)
    rw [List.length_singleton, List.singleton_append] at hFill
    simp only [hFill]

theorem encodeBuffers_ok {offset : Nat} {b : Block IoBuffer} (hne : k ≠ 0 → p ≠ q)
    (hSource : Room s.memory p (j + k)) (hb : k ≠ 0 → s.memory.buffers p = some b)
    (hTarget : Room s.memory q (offset + (j + k))) (hWord : offset + (j + k) < 2 ^ 64) :
    encodeBuffers p q offset k j s =
      .ok ((),
        { s with memory :=
          s.memory.fillAt q (offset + j) ((List.range k).map fun t => b.cell (j + t)) }) := by
  induction k generalizing s j with
  | zero =>
    rw [encodeBuffers, List.range_zero, List.map_nil, fillAt_nil]
    rfl
  | succ k ih =>
    obtain ⟨hp, b', hb', hSize⟩ := hSource (by omega)
    obtain rfl := Option.mem_unique (hb (by omega)) hb'
    obtain ⟨hq, c, hc, hSize'⟩ := hTarget (by omega)
    have hFit : sizeofIoBuffer * (j + 1) ≤ b.size :=
      Nat.le_trans (Nat.mul_le_mul_left _ (by omega)) hSize
    have hFit' : sizeofIoBuffer * (add64 offset j + 1) ≤ c.size := by
      rw [add64_of_lt (by omega)]
      exact Nat.le_trans (Nat.mul_le_mul_left _ (by omega)) hSize'
    have hSource' : Room (s.memory.fillAt q (offset + j) [b.cell j]) p (j + 1 + k) := by
      rw [show j + 1 + k = j + (k + 1) by omega]
      exact hSource.fillAt _ _ _
    have hTarget' : Room (s.memory.fillAt q (offset + j) [b.cell j]) q (offset + (j + 1 + k)) := by
      rw [show j + 1 + k = j + (k + 1) by omega]
      exact hTarget.fillAt _ _ _
    have hStep := setBuffer_ok (s := s) (x := b.cell j) hq hc hFit'
    rw [add64_of_lt (by omega)] at hStep
    have hRest := ih (s := { s with memory := s.memory.fillAt q (offset + j) [b.cell j] })
      (fun _ => hne (by omega))
      hSource' (fun _ => by rw [fillAt_of_ne _ _ _ (hne (by omega)), hb']) hTarget' (by omega)
    rw [encodeBuffers, bind_ok (getBuffer_ok hp hb' hFit), add64_of_lt (by omega),
      bind_ok hStep, hRest]
    have hList : (List.range (k + 1)).map (fun t => b.cell (j + t)) =
        [b.cell j] ++ (List.range k).map fun t => b.cell (j + 1 + t) := by
      rw [List.range_succ_eq_map, List.map_cons, List.map_map, List.singleton_append]
      congr 1
      exact List.map_congr_left fun t _ =>
        congrArg b.cell (by simp only [Nat.succ_eq_add_one]; omega)
    have hFill :=
      fillAt_fillAt s.memory q (offset + j) [b.cell j]
        ((List.range k).map fun t => b.cell (j + 1 + t))
    rw [List.length_singleton, ← hList] at hFill
    simp only [← Nat.add_assoc, hFill]

theorem moveBuffers_eq (p q : Ptr) (hWord : j + k < 2 ^ 64) :
    moveBuffers p q k j = encodeBuffers p q 0 k j := by
  induction k generalizing j with
  | zero => rfl
  | succ k ih =>
    rw [moveBuffers, encodeBuffers, add64_of_lt (by omega), Nat.zero_add, ih (by omega)]

end Loops

section Sets

structure Holds (m : Memory) (x : IoSet) (l : List IoBuffer) : Prop where
  len : x.buffersLen = l.length
  cap : l.length ≤ x.buffersCap
  room : Room m x.buffers x.buffersCap
  cells : ∀ b, x.buffersCap ≠ 0 → m.buffers x.buffers = some b →
    ∀ i y, l[i]? = some y → b.cell i = y

def Extends (m m' : Memory) : Prop := ∀ q b, m.buffers q = some b → m'.buffers q = some b

theorem Extends.trans {m'' : Memory} (h : Extends m m') (h' : Extends m' m'') : Extends m m'' :=
  fun q b hb => h' q b (h q b hb)

theorem Room.extends (h : Room m p n) (hExtends : Extends m m') : Room m' p n := by
  intro hn
  obtain ⟨hp, b, hb, hSize⟩ := h hn
  exact ⟨hp, b, hExtends p b hb, hSize⟩

theorem Holds.extends {x : IoSet} {l : List IoBuffer} (h : Holds m x l) (hExtends : Extends m m') :
    Holds m' x l where
  len := h.len
  cap := h.cap
  room := h.room.extends hExtends
  cells b hCap hb := by
    obtain ⟨_, b', hb', _⟩ := h.room hCap
    obtain rfl := Option.mem_unique (hExtends _ _ hb') hb
    exact h.cells b' hCap hb'

theorem Holds.empty (m : Memory) (ident identLen : Nat) :
    Holds m ⟨ident, identLen, 0, 0, 0⟩ [] where
  len := rfl
  cap := le_rfl
  room := fun h => absurd rfl h
  cells := fun _ h => absurd rfl h

theorem allocBuffers_none {size : Nat} (h : P.answer s.memory size 8 = none) :
    allocBuffers P size s =
      .ok (0, { s with refused := s.refused + if size = 0 then 0 else 1 }) := by
  simp only [allocBuffers, dandelionAlloc, h]

theorem allocBuffers_some {size : Nat} (h : P.answer s.memory size 8 = some p) :
    allocBuffers P size s = .ok (p, { s with memory := { s.memory with
      buffers := Function.update s.memory.buffers p (some ⟨size, P.junkBuffers⟩)
      inUse := s.memory.inUse + size } }) := by
  simp only [allocBuffers, dandelionAlloc, h]

theorem allocSets_none {size : Nat} (h : P.answer s.memory size 8 = none) :
    allocSets P size s = .ok (0, { s with refused := s.refused + if size = 0 then 0 else 1 }) := by
  simp only [allocSets, dandelionAlloc, h]

theorem allocSets_some {size : Nat} (h : P.answer s.memory size 8 = some p) :
    allocSets P size s = .ok (p, { s with memory := { s.memory with
      sets := Function.update s.memory.sets p (some ⟨size, P.junkSets⟩)
      inUse := s.memory.inUse + size } }) := by
  simp only [allocSets, dandelionAlloc, h]

end Sets

end Dandelion.Runtime.IoSets
