import Mathlib.Data.List.Basic

/-!
# The batches `run` hands to the writer

`run` passes the kept entries to `writeLoop` in batches, each a `bufferedIter`: one byte buffer
holding every key and value back to back, and one indexer per entry with its offset, the two
lengths and the two flags. `Append` writes an entry at the end of the buffer and returns the bytes
used; `Next` steps a position `p` through the indexers, and `Key`, `Value`, `CanStop` and
`ShouldStop` read the entry at `p`. Batches come from a pool: `Reset` truncates the buffer and the
indexers in place, so the storage behind them still holds an earlier batch.

A batch replays what was appended to it, whatever the lengths of the keys and values, empty ones
included: each `Append` returns the bytes of all entries so far, `Next` visits the entries in order
and then answers `false`, and the readers at the `i`-th entry return exactly the `i`-th key, value
and flags. The pipeline model (`Workshare.LevelDB.Pipeline`) takes a batch to be the list of its
kept entries; this is why it may.

## Implementation notes

Byte slices are lists over any type `α`. In Go, `s[lo:][:n]` may reach past the length of `s` into
its capacity, which after `Reset` holds the bytes of an earlier batch; `slice` is `none` there, and
the results show that no reader ever goes there. A reader at a position outside the indexers, a
panic in Go, is `none`.

## Main results

* `appendAll_reset` — after `Reset`, the buffer and the indexers are the layout of the entries
  appended, and the `Append` calls return the running byte counts
* `current_layout` — the readers at position `i` of a layout return its `i`-th entry
* `bufferedIter_replays` — a batch replays what was appended to it
-/

namespace Workshare

namespace LevelDB

variable {α : Type}

/-- One entry's place in the buffer (`biIndexer`). -/
structure BiIndexer where
  offset : ℕ
  keyLen : ℕ
  valLen : ℕ
  canStop : Bool
  shouldStop : Bool
  deriving DecidableEq, Repr

/-- A batch of kept entries (`bufferedIter`): the bytes, the indexers, and the position `p` of
`Next`. -/
structure BufferedIter (α : Type) where
  data : List α
  indexers : List BiIndexer
  p : ℤ
  deriving DecidableEq, Repr

/-- What one `Append` call passes: a key, a value and the two flags. -/
structure BufEntry (α : Type) where
  key : List α
  value : List α
  canStop : Bool
  shouldStop : Bool
  deriving DecidableEq, Repr

namespace BufferedIter

/-- `bi.Reset()`: empty the buffer and the indexers, and put `p` before the first entry. -/
def reset (bi : BufferedIter α) : BufferedIter α :=
  { bi with data := [], indexers := [], p := -1 }

/-- `bi.Append(k, v, canStop, shouldStop)`: index the entry at the end of the buffer, write the key
and the value there, and return the length of the buffer. -/
def append (bi : BufferedIter α) (k v : List α) (canStop shouldStop : Bool) :
    ℕ × BufferedIter α :=
  let indexers := bi.indexers ++ [⟨bi.data.length, k.length, v.length, canStop, shouldStop⟩]
  let data := bi.data ++ k ++ v
  (data.length, { bi with data, indexers })

/-- `bi.Next()`: step to the next entry, if there is one. -/
def next (bi : BufferedIter α) : Bool × BufferedIter α :=
  if bi.p + 1 < bi.indexers.length then (true, { bi with p := bi.p + 1 }) else (false, bi)

/-- `s[lo:][:n]`, where it stays within the length of `s`. -/
def slice (s : List α) (lo n : ℕ) : Option (List α) :=
  if lo + n ≤ s.length then some ((s.drop lo).take n) else none

/-- `&bi.indexers[bi.p]`. -/
def indexer (bi : BufferedIter α) : Option BiIndexer :=
  if 0 ≤ bi.p then bi.indexers[bi.p.toNat]? else none

/-- `bi.Key()`. -/
def key (bi : BufferedIter α) : Option (List α) :=
  bi.indexer.bind fun idx => slice bi.data idx.offset idx.keyLen

/-- `bi.Value()`. -/
def value (bi : BufferedIter α) : Option (List α) :=
  bi.indexer.bind fun idx => slice bi.data (idx.offset + idx.keyLen) idx.valLen

/-- `bi.CanStop()`. -/
def canStop (bi : BufferedIter α) : Option Bool := bi.indexer.map BiIndexer.canStop

/-- `bi.ShouldStop()`. -/
def shouldStop (bi : BufferedIter α) : Option Bool := bi.indexer.map BiIndexer.shouldStop

/-- The four readers together, at the current position. -/
def current (bi : BufferedIter α) : Option (BufEntry α) := do
  let k ← bi.key
  let v ← bi.value
  let c ← bi.canStop
  let s ← bi.shouldStop
  pure ⟨k, v, c, s⟩

/-- `Append` calls in order, with what each returned. -/
def appendAll : BufferedIter α → List (BufEntry α) → List ℕ × BufferedIter α
  | bi, [] => ([], bi)
  | bi, e :: es =>
    let r := bi.append e.key e.value e.canStop e.shouldStop
    let q := appendAll r.2 es
    (r.1 :: q.1, q.2)

/-- `m` calls of `Next`, with what each returned. -/
def nextN (bi : BufferedIter α) : ℕ → List Bool × BufferedIter α
  | 0 => ([], bi)
  | m + 1 =>
    let r := bi.next
    let q := nextN r.2 m
    (r.1 :: q.1, q.2)

end BufferedIter

/-! ## The layout of a batch -/

namespace BufEntry

/-- The bytes the entries take: keys and values together. -/
def totalLen : List (BufEntry α) → ℕ
  | [] => 0
  | e :: es => e.key.length + e.value.length + totalLen es

/-- The buffer holding the entries: each key, then its value. -/
def bytes : List (BufEntry α) → List α
  | [] => []
  | e :: es => e.key ++ e.value ++ bytes es

/-- The indexers of the entries, the first at offset `off`. -/
def layout (off : ℕ) : List (BufEntry α) → List BiIndexer
  | [] => []
  | e :: es =>
    ⟨off, e.key.length, e.value.length, e.canStop, e.shouldStop⟩ ::
      layout (off + e.key.length + e.value.length) es

@[simp] theorem totalLen_append (es es' : List (BufEntry α)) :
    totalLen (es ++ es') = totalLen es + totalLen es' := by
  induction es with
  | nil => simp [totalLen]
  | cons e es ih => simp [totalLen, ih, Nat.add_assoc]

@[simp] theorem bytes_append (es es' : List (BufEntry α)) :
    bytes (es ++ es') = bytes es ++ bytes es' := by
  induction es with
  | nil => rfl
  | cons e es ih => simp [bytes, ih]

@[simp] theorem length_bytes (es : List (BufEntry α)) : (bytes es).length = totalLen es := by
  induction es with
  | nil => rfl
  | cons e es ih => simp [bytes, totalLen, ih, Nat.add_assoc]

theorem layout_append (off : ℕ) (es es' : List (BufEntry α)) :
    layout off (es ++ es') = layout off es ++ layout (off + totalLen es) es' := by
  induction es generalizing off with
  | nil => rfl
  | cons e es ih => simp [layout, totalLen, ih, Nat.add_assoc]

@[simp] theorem length_layout (off : ℕ) (es : List (BufEntry α)) : (layout off es).length = es.length := by
  induction es generalizing off with
  | nil => rfl
  | cons e es ih => simp [layout, ih]

end BufEntry

namespace BufferedIter

open BufEntry

/-- **One `Append` on a batch holding the layout of `es`** returns the bytes of `es` and the new
entry, and leaves the layout of both. -/
theorem append_layout (es : List (BufEntry α)) (p : ℤ) (e : BufEntry α) :
    (⟨bytes es, layout 0 es, p⟩ : BufferedIter α).append e.key e.value e.canStop e.shouldStop =
      (totalLen (es ++ [e]), ⟨bytes (es ++ [e]), layout 0 (es ++ [e]), p⟩) := by
  simp [append, layout_append, layout, bytes, totalLen, List.append_assoc]

/-- Appending entries to a batch holding the layout of `es`. -/
theorem appendAll_layout (es es' : List (BufEntry α)) (p : ℤ) :
    appendAll ⟨bytes es, layout 0 es, p⟩ es' =
      ((List.range es'.length).map fun i => totalLen (es ++ es'.take (i + 1)),
        ⟨bytes (es ++ es'), layout 0 (es ++ es'), p⟩) := by
  induction es' generalizing es with
  | nil => simp [appendAll]
  | cons e es' ih =>
    simp only [appendAll, append_layout, ih, List.append_assoc, List.singleton_append]
    simp [List.range_succ_eq_map, Function.comp_def, totalLen, Nat.add_assoc]

/-- **After `Reset`**, whatever the batch held before, the buffer and the indexers are the layout
of the entries appended, and each `Append` returns the bytes of the entries up to it. -/
theorem appendAll_reset (bi : BufferedIter α) (es : List (BufEntry α)) :
    appendAll bi.reset es =
      ((List.range es.length).map fun i => totalLen (es.take (i + 1)),
        ⟨bytes es, layout 0 es, -1⟩) := by
  simpa using appendAll_layout [] es (-1)

/-- **The readers at position `i` of a layout** return its `i`-th entry: the key and the value lie
inside the buffer, at the offset the indexer records. -/
theorem current_layout (pre post : List (BufEntry α)) (e : BufEntry α) :
    (⟨bytes (pre ++ e :: post), layout 0 (pre ++ e :: post), pre.length⟩ : BufferedIter α).current =
      some e := by
  have hix : (layout 0 (pre ++ e :: post))[pre.length]? =
      some ⟨totalLen pre, e.key.length, e.value.length, e.canStop, e.shouldStop⟩ := by
    rw [layout_append, List.getElem?_append_right (by simp)]
    simp [layout]
  have hdata : bytes (pre ++ e :: post) = bytes pre ++ (e.key ++ (e.value ++ bytes post)) := by
    simp [bytes, List.append_assoc]
  have hkey : slice (bytes (pre ++ e :: post)) (totalLen pre) e.key.length = some e.key := by
    rw [slice, if_pos (by simp [totalLen]; omega), hdata, List.drop_left' (by simp)]
    simp
  have hval : slice (bytes (pre ++ e :: post)) (totalLen pre + e.key.length) e.value.length =
      some e.value := by
    rw [slice, if_pos (by simp [totalLen]; omega), hdata, ← List.append_assoc,
      List.drop_left' (by simp)]
    simp
  simp only [current, key, value, canStop, shouldStop, indexer, if_pos (Int.ofNat_nonneg _),
    Int.toNat_ofNat, hix, Option.some_bind, Option.map_some', hkey, hval]
  rfl

/-- `Next` from before position `j` of a batch with room for `m` more entries. -/
theorem nextN_layout (d : List α) (ix : List BiIndexer) :
    ∀ (j m : ℕ), j + m ≤ ix.length →
      nextN ⟨d, ix, (j : ℤ) - 1⟩ m = (List.replicate m true, ⟨d, ix, ((j + m : ℕ) : ℤ) - 1⟩)
  | j, 0, _ => by simp [nextN]
  | j, m + 1, h => by
    have hstep : next (⟨d, ix, (j : ℤ) - 1⟩ : BufferedIter α) = (true, ⟨d, ix, ((j + 1 : ℕ) : ℤ) - 1⟩) := by
      rw [next, if_pos (by push_cast; omega)]
      simp
    simp only [nextN, hstep, nextN_layout d ix (j + 1) m (by omega), List.replicate_succ,
      Prod.mk.injEq, true_and]
    congr 3
    omega

/-- `Next` at the last entry answers `false` and stays there. -/
theorem nextN_end (d : List α) (ix : List BiIndexer) :
    ∀ m, nextN ⟨d, ix, (ix.length : ℤ) - 1⟩ m = (List.replicate m false, ⟨d, ix, (ix.length : ℤ) - 1⟩)
  | 0 => rfl
  | m + 1 => by
    have hstep : next (⟨d, ix, (ix.length : ℤ) - 1⟩ : BufferedIter α) =
        (false, ⟨d, ix, (ix.length : ℤ) - 1⟩) := by
      rw [next, if_neg (by simp)]
    simp [nextN, hstep, nextN_end d ix m, List.replicate_succ]

theorem nextN_add (bi : BufferedIter α) (a b : ℕ) :
    nextN bi (a + b) = ((nextN bi a).1 ++ (nextN (nextN bi a).2 b).1, (nextN (nextN bi a).2 b).2) := by
  induction a generalizing bi with
  | zero => simp [nextN]
  | succ a ih => simp [Nat.succ_add, nextN, ih]

/-- **A batch replays what was appended to it.** After `Reset` and one `Append` for each entry of
`es`, whatever the batch held before: each `Append` returns the bytes of all keys and values so
far; `Next` answers `true` once per entry and `false` from then on; and after the `i + 1`-th
`Next` the readers return the `i`-th key, value and flags. -/
theorem bufferedIter_replays (bi : BufferedIter α) (es : List (BufEntry α)) :
    (appendAll bi.reset es).1 = (List.range es.length).map (fun i => totalLen (es.take (i + 1))) ∧
      (∀ m, (nextN (appendAll bi.reset es).2 (es.length + m)).1 =
        List.replicate es.length true ++ List.replicate m false) ∧
      ∀ i (hi : i < es.length),
        (nextN (appendAll bi.reset es).2 (i + 1)).2.current = some (es.get ⟨i, hi⟩) := by
  rw [appendAll_reset]
  refine ⟨rfl, fun m => ?_, fun i hi => ?_⟩
  · rw [show (-1 : ℤ) = ((0 : ℕ) : ℤ) - 1 by simp, nextN_add,
      nextN_layout (bytes es) (layout 0 es) 0 es.length (by simp), Nat.zero_add,
      show ((es.length : ℕ) : ℤ) - 1 = ((layout 0 es).length : ℤ) - 1 by simp, nextN_end]
  · rw [show (-1 : ℤ) = ((0 : ℕ) : ℤ) - 1 by simp,
      nextN_layout (bytes es) (layout 0 es) 0 (i + 1) (by simp; omega)]
    have hsplit : es.take i ++ es.get ⟨i, hi⟩ :: es.drop (i + 1) = es := by simp
    have h := current_layout (es.take i) (es.drop (i + 1)) (es.get ⟨i, hi⟩)
    rw [hsplit] at h
    rw [← h, show ((0 + (i + 1) : ℕ) : ℤ) - 1 = ((es.take i).length : ℤ) by simp; omega]

end BufferedIter

end LevelDB

end Workshare
