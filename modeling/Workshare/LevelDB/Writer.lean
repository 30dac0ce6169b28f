import Workshare.LevelDB.Build

/-!
# Cutting the kept entries into tables

`writeLoop` appends the kept entries to output tables one after another. It opens a table when it
has none, and it starts a new one right before an entry when a table is open, the entry is a legal
cut (`canStop`), and either the cut is forced (`shouldStop`) or the open table has reached
`tableSize` bytes. This module is that loop on its own, entry after entry, with no channels:
`writeTables` is the partition the concurrent pipeline of `Workshare.LevelDB.Pipeline` must
produce.

## Implementation notes

`tw.tw.BytesLen()`, the bytes the table writer has written so far, depends on the table format in
`table/`, which is not among the sources; it is the parameter `bytesLen` of the entries appended.

## Main results

* `flatten_writeTables` — the tables hold the kept entries, in order, each once
* `writeTables_ne_nil` — no table is empty
* `run_mixes_prefix` — a dropped entry takes its overflow-prefix cut with it
-/

namespace Workshare

namespace LevelDB

variable {K V : Type}

/-- The sequential writer: the tables closed so far, and the entries of the open table. -/
structure SeqWriter (K V : Type) where
  closed : List (List (Entry K V))
  tw : Option (List (Entry K V))

/-- Whether the writer starts a new table before `k` while `tw` is open. -/
def rotates (tableSize : ℕ) (bytesLen : List (Entry K V) → ℕ) (tw : List (Entry K V)) (k : Kept K V) :
    Bool :=
  k.canStop && (k.shouldStop || decide (tableSize ≤ bytesLen tw))

/-- One entry of `writeLoop`: flush if needed, create a table if there is none, append. -/
def writeStep (tableSize : ℕ) (bytesLen : List (Entry K V) → ℕ) (w : SeqWriter K V) (k : Kept K V) :
    SeqWriter K V :=
  match w.tw with
  | some tw =>
    if rotates tableSize bytesLen tw k then ⟨w.closed ++ [tw], some [k.entry]⟩
    else ⟨w.closed, some (tw ++ [k.entry])⟩
  | none => ⟨w.closed, some [k.entry]⟩

/-- The writer after the entries `ks`. -/
def writeFold (tableSize : ℕ) (bytesLen : List (Entry K V) → ℕ) (ks : List (Kept K V)) :
    SeqWriter K V :=
  ks.foldl (writeStep tableSize bytesLen) ⟨[], none⟩

/-- The tables the writer produces from `ks`: the closed ones, then the last one (`Finish last
table`). -/
def writeTables (tableSize : ℕ) (bytesLen : List (Entry K V) → ℕ) (ks : List (Kept K V)) :
    List (List (Entry K V)) :=
  (writeFold tableSize bytesLen ks).closed ++ (writeFold tableSize bytesLen ks).tw.toList

section Seq

variable {tableSize : ℕ} {bytesLen : List (Entry K V) → ℕ}

theorem writeStep_of_none {w : SeqWriter K V} (h : w.tw = none) (k : Kept K V) :
    writeStep tableSize bytesLen w k = ⟨w.closed, some [k.entry]⟩ := by
  simp [writeStep, h]

theorem writeStep_of_rotates {w : SeqWriter K V} {tw : List (Entry K V)} {k : Kept K V}
    (h : w.tw = some tw) (hr : rotates tableSize bytesLen tw k = true) :
    writeStep tableSize bytesLen w k = ⟨w.closed ++ [tw], some [k.entry]⟩ := by
  simp [writeStep, h, hr]

theorem writeStep_of_not_rotates {w : SeqWriter K V} {tw : List (Entry K V)} {k : Kept K V}
    (h : w.tw = some tw) (hr : rotates tableSize bytesLen tw k = false) :
    writeStep tableSize bytesLen w k = ⟨w.closed, some (tw ++ [k.entry])⟩ := by
  simp [writeStep, h, hr]

theorem writeFold_append (ks : List (Kept K V)) (k : Kept K V) :
    writeFold tableSize bytesLen (ks ++ [k]) = writeStep tableSize bytesLen (writeFold tableSize bytesLen ks) k :=
  List.foldl_append _ _ _ _

/-- All the writer holds, closed tables first. -/
def SeqWriter.entries (w : SeqWriter K V) : List (Entry K V) := w.closed.flatten ++ w.tw.getD []

/-- Every table the writer holds is non-empty. -/
def SeqWriter.NoEmpty (w : SeqWriter K V) : Prop := (∀ t ∈ w.closed, t ≠ []) ∧ w.tw ≠ some []

theorem writeStep_entries (w : SeqWriter K V) (k : Kept K V) :
    (writeStep tableSize bytesLen w k).entries = w.entries ++ [k.entry] := by
  unfold writeStep SeqWriter.entries
  split
  · split <;> simp_all
  · simp_all

theorem writeStep_noEmpty {w : SeqWriter K V} (h : w.NoEmpty) (k : Kept K V) :
    (writeStep tableSize bytesLen w k).NoEmpty := by
  unfold writeStep SeqWriter.NoEmpty at *
  split
  · next tw htw =>
    split
    · refine ⟨fun t ht => ?_, by simp⟩
      rcases List.mem_append.mp ht with ht | ht
      · exact h.1 t ht
      · rw [List.mem_singleton.mp ht]; exact fun h' => h.2 (htw.trans (congrArg some h'))
    · exact ⟨h.1, by simp⟩
  · exact ⟨h.1, by simp⟩

theorem writeFold_entries (ks : List (Kept K V)) :
    (writeFold tableSize bytesLen ks).entries = ks.map Kept.entry := by
  induction ks using List.reverseRecOn with
  | nil => rfl
  | append_singleton ks k ih => rw [writeFold_append, writeStep_entries, ih, List.map_append]; rfl

theorem writeFold_noEmpty (ks : List (Kept K V)) : (writeFold tableSize bytesLen ks).NoEmpty := by
  induction ks using List.reverseRecOn with
  | nil => exact ⟨fun _ h => absurd h (List.not_mem_nil _), Option.noConfusion⟩
  | append_singleton ks k ih => rw [writeFold_append]; exact writeStep_noEmpty ih k

/-- **The tables hold the kept entries, in order, each once.** -/
theorem flatten_writeTables (ks : List (Kept K V)) :
    (writeTables tableSize bytesLen ks).flatten = ks.map Kept.entry := by
  rw [← @writeFold_entries _ _ tableSize bytesLen, writeTables, SeqWriter.entries,
    List.flatten_append]
  cases (writeFold tableSize bytesLen ks).tw <;> simp

/-- **No table is empty.** -/
theorem writeTables_ne_nil (ks : List (Kept K V)) : ∀ t ∈ writeTables tableSize bytesLen ks, t ≠ [] := by
  obtain ⟨hc, ho⟩ := @writeFold_noEmpty _ _ tableSize bytesLen ks
  intro t ht
  rcases List.mem_append.mp ht with ht | ht
  · exact hc t ht
  · rw [Option.mem_toList] at ht; exact fun h => ho (h ▸ ht)

end Seq

/-! ## A cut lost with a dropped entry

`run` asks whether to cut before an entry, and only then whether to drop it. A cut decided at an
entry that is dropped is not carried to the next one. -/

/-- Options with an overflow prefix: the user keys from 20 on carry it. -/
def prefixOptions : Options ℕ := { exampleOptions with hasOPrefix := fun u => decide (20 ≤ u) }

/-- `14` without the prefix, a deletion of `20` at 3, and `21` with the prefix. -/
def prefixInput : List (Entry ℕ ℕ) :=
  [⟨makeInternalKey 14 6 .val, 1⟩, ⟨makeInternalKey 20 3 .del, 0⟩, ⟨makeInternalKey 21 6 .val, 2⟩]

/-- **A dropped entry takes its overflow-prefix cut with it.** With `minSeq = 5` rule (B) drops the
deletion of `20`, which is where the prefix starts; `21` is not a change of prefix after `20`, and the
only table the build writes holds `14` and `21`. -/
theorem run_mixes_prefix :
    (exFresh.runKept prefixOptions 5 prefixInput).map
        (fun r => writeTables (prefixOptions.compactionTableSize 2) (fun _ => 0) r.1) =
      some [[⟨makeInternalKey 14 6 .val, 1⟩, ⟨makeInternalKey 21 6 .val, 2⟩]] := by
  decide

end LevelDB

end Workshare
