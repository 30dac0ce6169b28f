import Workshare.LevelDB.Cursor

/-!
# The entries a build keeps

`tableCompactionBuilder.run` walks the merged input of a compaction once. For each entry it decides
whether to keep it, and for a kept entry whether the writer may, or should, start a new table right
before it. This module is that walk without the writer: `runStep` is the body of the loop for one
entry, `runLoop` the loop, and `Compaction.runKept` one attempt from `restore`.

The decisions follow the source. A key that does not parse is kept as it is, or ends the attempt in
strict mode. For a parsed key, the first entry of each user key is a legal cut (`canStop`), and the
cut is forced (`shouldStop`) by `shouldStopBefore` or by a change of the overflow-prefix flag. An
entry is dropped when an entry of its user key at or below `minSeq` came before it (rule (A)), or
when it is a deletion at or below `minSeq` that no deeper table needs (rule (B)).

## Implementation notes

`run` also counts the kept and dropped entries (`kerrCnt`, `dropCnt`, `cnt.incr()`) for its log
lines; nothing reads those counts back, and they are left out. The hand-off of kept entries to the
writer in `bufferedIter` batches is the subject of `Workshare.LevelDB.Pipeline`.

## Main results

* `runStep_parsed_cases` — what one parsed entry can do
* `runLoop_append` — a walk over two pieces of input is the walk over the first, then the second
* `runLoop_sublist` — the kept entries are entries of the input, in order
* `runLoop_cursorSteps` — an attempt moves the compaction only by cursor moves
-/

namespace Workshare

namespace LevelDB

variable {K V : Type} [LinearOrder K]

/-- An entry of the merged input (`iter.Key()`, `iter.Value()`). -/
structure Entry (K V : Type) where
  ikey : InternalKey K
  value : V
  deriving DecidableEq, Repr

/-- A kept entry with the two flags `run` appends it with (`bIter.Append`). -/
structure Kept (K V : Type) where
  entry : Entry K V
  canStop : Bool
  shouldStop : Bool
  deriving DecidableEq, Repr

/-- The state `run` carries from one entry to the next: the compaction with its cursors, and the
locals `hasLastUkey`/`lastUkey` (as an option), `lastSeq` and `lastHasOPrefix`. -/
structure RunState (K : Type) [LinearOrder K] where
  c : Compaction K
  lastUkey : Option K
  lastSeq : ℕ
  lastHasOPrefix : Bool

/-- The sequence number rule (A) compares an entry of `u` with: that of the previous entry of `u`,
or `keyMaxSeq` when the entry is the first of `u`. -/
def RunState.prevSeq (st : RunState K) (u : K) : ℕ :=
  if st.lastUkey = some u then st.lastSeq else keyMaxSeq

/-- The body of `run`'s loop for one entry. `none` is the parse error strict mode returns; otherwise
the new state and the entry appended, if it is kept. -/
def runStep (o : Options K) (minSeq : ℕ) (st : RunState K) (e : Entry K V) :
    Option (RunState K × Option (Kept K V)) :=
  match parseInternalKey e.ikey with
  | none =>
    -- Don't drop corrupted keys.
    if o.strict then none
    else some ({ st with lastUkey := none, lastSeq := keyMaxSeq }, some ⟨e, false, false⟩)
  | some (ukey, seq, kt) =>
    let r := st.c.shouldStopBefore e.ikey
    let first := st.lastUkey != some ukey
    let shouldStop := r.1 || first && st.lastUkey.isSome && o.hasOPrefix ukey != st.lastHasOPrefix
    let lastSeq := if first then keyMaxSeq else st.lastSeq
    let st' : RunState K :=
      ⟨r.2, some ukey, seq, if first then o.hasOPrefix ukey else st.lastHasOPrefix⟩
    -- (A): a newer entry for the same user key at or below `minSeq` exists.
    if lastSeq ≤ minSeq then some (st', none)
    else if kt = .del ∧ seq ≤ minSeq then
      let b := r.2.baseLevelForKey ukey
      -- (B): an obsolete deletion marker.
      some ({ st' with c := b.2 }, if b.1 then none else some ⟨e, first, shouldStop⟩)
    else some (st', some ⟨e, first, shouldStop⟩)

/-- The loop of `run` over the input: the kept entries in order and the final state, or `none` when
strict mode stops it. -/
def runLoop (o : Options K) (minSeq : ℕ) : RunState K → List (Entry K V) →
    Option (List (Kept K V) × RunState K)
  | st, [] => some ([], st)
  | st, e :: es =>
    (runStep o minSeq st e).bind fun r =>
      (runLoop o minSeq r.1 es).map fun q => (r.2.toList ++ q.1, q.2)

/-- The state an attempt starts from: the cursors put back by `restore`, no user key seen. -/
def RunState.init (c : Compaction K) : RunState K := ⟨c.restore, none, 0, false⟩

/-- The entries one attempt of `run` keeps on the input `es`, and its final state. -/
def Compaction.runKept (c : Compaction K) (o : Options K) (minSeq : ℕ) (es : List (Entry K V)) :
    Option (List (Kept K V) × RunState K) :=
  runLoop o minSeq (RunState.init c) es

/-! ## One entry -/

section Step

variable {o : Options K} {minSeq : ℕ} {st st' : RunState K} {e : Entry K V} {k : Option (Kept K V)}

theorem runStep_unparsed (h : parseInternalKey e.ikey = none) :
    runStep o minSeq st e =
      if o.strict then none
      else some ({ st with lastUkey := none, lastSeq := keyMaxSeq }, some ⟨e, false, false⟩) := by
  simp only [runStep, h]

/-- **What a parsed entry does.** It always records its user key and sequence and moves the
cursors; it is dropped exactly by rule (A) or rule (B), and a kept entry is appended unchanged. -/
theorem runStep_parsed_cases {ukey : K} {seq : ℕ} {kt : KeyType}
    (h : parseInternalKey e.ikey = some (ukey, seq, kt)) (hs : runStep o minSeq st e = some (st', k)) :
    st'.lastUkey = some ukey ∧ st'.lastSeq = seq ∧ CursorSteps st.c st'.c ∧
      (k = none ↔ st.prevSeq ukey ≤ minSeq ∨
        kt = .del ∧ seq ≤ minSeq ∧ ((st.c.shouldStopBefore e.ikey).2.baseLevelForKey ukey).1) ∧
      (∀ kk ∈ k, kk.entry = e) ∧
      (st'.c = (st.c.shouldStopBefore e.ikey).2 ∨
        st'.c = ((st.c.shouldStopBefore e.ikey).2.baseLevelForKey ukey).2) := by
  have hstop : CursorSteps st.c (st.c.shouldStopBefore e.ikey).2 :=
    .single (.shouldStopBefore _ _)
  simp only [runStep, h, bne_iff_ne, ne_eq, ite_not] at hs
  unfold RunState.prevSeq
  split_ifs at hs with hA hB hbase <;> cases hs <;> simp_all [hstop.tail (.baseLevelForKey _ _)]

theorem runStep_entry (hs : runStep o minSeq st e = some (st', k)) : ∀ kk ∈ k, kk.entry = e := by
  cases h : parseInternalKey e.ikey with
  | none =>
    rw [runStep_unparsed h] at hs
    split_ifs at hs; cases hs; simp
  | some p => exact (runStep_parsed_cases h hs).2.2.2.2.1

theorem runStep_lastUkey (hs : runStep o minSeq st e = some (st', k)) :
    st'.lastUkey = none ∨ st'.lastUkey = some e.ikey.ukey := by
  cases h : parseInternalKey e.ikey with
  | none =>
    rw [runStep_unparsed h] at hs
    split_ifs at hs; cases hs; exact .inl rfl
  | some p => exact .inr ((runStep_parsed_cases h hs).1.trans (by rw [(parseInternalKey_eq_some h).1]))

/-- A step asking about a key up to `x` keeps the cursors below `x`. -/
theorem runStep_cursorsBelow {x : K} (hx : e.ikey.ukey ≤ x) (hc : st.c.CursorsBelow x)
    (hs : runStep o minSeq st e = some (st', k)) : st'.c.CursorsBelow x := by
  cases h : parseInternalKey e.ikey with
  | none =>
    rw [runStep_unparsed h] at hs
    split_ifs at hs; cases hs; exact hc
  | some p =>
    rcases (runStep_parsed_cases h hs).2.2.2.2.2 with h' | h' <;> rw [h']
    · exact hc.shouldStopBefore _
    · exact (hc.shouldStopBefore _).baseLevelForKey ((parseInternalKey_eq_some h).1 ▸ hx)

theorem runStep_cursorSteps (hs : runStep o minSeq st e = some (st', k)) : CursorSteps st.c st'.c := by
  cases h : parseInternalKey e.ikey with
  | none =>
    rw [runStep_unparsed h] at hs
    split_ifs at hs; cases hs; exact .refl
  | some p => exact (runStep_parsed_cases h hs).2.2.1

end Step

/-! ## The loop -/

section Loop

variable {o : Options K} {minSeq : ℕ}

theorem runLoop_cons {st : RunState K} {e : Entry K V} {es : List (Entry K V)}
    {out : List (Kept K V)} {st'' : RunState K} :
    runLoop o minSeq st (e :: es) = some (out, st'') ↔
      ∃ st' k out', runStep o minSeq st e = some (st', k) ∧ runLoop o minSeq st' es = some (out', st'') ∧
        out = k.toList ++ out' := by
  simp only [runLoop, Option.bind_eq_some, Option.map_eq_some', Prod.exists, Prod.mk.injEq]
  constructor
  · rintro ⟨st', k, hs, out', _, hl, rfl, rfl⟩
    exact ⟨st', k, out', hs, hl, rfl⟩
  · rintro ⟨st', k, out', hs, hl, rfl⟩
    exact ⟨st', k, hs, out', st'', hl, rfl, rfl⟩

/-- **The walk splits at any point of the input.** -/
theorem runLoop_append (st : RunState K) (l₁ l₂ : List (Entry K V)) :
    runLoop o minSeq st (l₁ ++ l₂) = (runLoop o minSeq st l₁).bind fun r =>
      (runLoop o minSeq r.2 l₂).map fun q => (r.1 ++ q.1, q.2) := by
  induction l₁ generalizing st with
  | nil => simp [runLoop]
  | cons e l₁ ih =>
    rw [List.cons_append]
    show (runStep o minSeq st e).bind _ = ((runStep o minSeq st e).bind _).bind _
    cases runStep o minSeq st e with
    | none => rfl
    | some r =>
      rw [Option.some_bind, Option.some_bind, ih]
      cases runLoop o minSeq r.1 l₁ <;> simp [Option.map_map, Function.comp_def]

theorem runLoop_append_eq_some {st st₂ : RunState K} {l₁ l₂ : List (Entry K V)}
    {out : List (Kept K V)} (h : runLoop o minSeq st (l₁ ++ l₂) = some (out, st₂)) :
    ∃ out₁ out₂ st₁, runLoop o minSeq st l₁ = some (out₁, st₁) ∧
      runLoop o minSeq st₁ l₂ = some (out₂, st₂) ∧ out = out₁ ++ out₂ := by
  rw [runLoop_append, Option.bind_eq_some] at h
  obtain ⟨⟨out₁, st₁⟩, h₁, h₂⟩ := h
  obtain ⟨⟨out₂, st₂'⟩, h₃, he⟩ := Option.map_eq_some'.mp h₂
  simp only [Prod.mk.injEq] at he
  obtain ⟨rfl, rfl⟩ := he
  exact ⟨out₁, out₂, st₁, h₁, h₃, rfl⟩

/-- **The kept entries are entries of the input, in order.** -/
theorem runLoop_sublist {st st' : RunState K} {es : List (Entry K V)} {out : List (Kept K V)}
    (h : runLoop o minSeq st es = some (out, st')) : (out.map Kept.entry).Sublist es := by
  induction es generalizing st out with
  | nil => cases h; exact List.Sublist.slnil
  | cons e es ih =>
    obtain ⟨st₁, k, out', hs, hl, rfl⟩ := runLoop_cons.mp h
    have hk := runStep_entry hs
    cases k with
    | none => exact (ih hl).cons e
    | some kk => simpa [hk kk rfl] using (ih hl).cons₂ e

/-- **An attempt only moves cursors.** -/
theorem runLoop_cursorSteps {st st' : RunState K} {es : List (Entry K V)} {out : List (Kept K V)}
    (h : runLoop o minSeq st es = some (out, st')) : CursorSteps st.c st'.c := by
  induction es generalizing st out with
  | nil => cases h; exact .refl
  | cons e es ih =>
    obtain ⟨st₁, k, out', hs, hl, rfl⟩ := runLoop_cons.mp h
    exact (runStep_cursorSteps hs).trans (ih hl)

/-- A walk over keys up to `x` keeps the cursors below `x`. -/
theorem runLoop_cursorsBelow {x : K} {st st' : RunState K} {es : List (Entry K V)}
    {out : List (Kept K V)} (hx : ∀ e ∈ es, e.ikey.ukey ≤ x) (hc : st.c.CursorsBelow x)
    (h : runLoop o minSeq st es = some (out, st')) : st'.c.CursorsBelow x := by
  induction es generalizing st out with
  | nil => cases h; exact hc
  | cons e es ih =>
    obtain ⟨st₁, k, out', hs, hl, rfl⟩ := runLoop_cons.mp h
    exact ih (fun e' he' => hx e' (List.mem_cons_of_mem _ he'))
      (runStep_cursorsBelow (hx e (List.mem_cons_self _ _)) hc hs) hl

/-- A walk over entries of other user keys does not end on `u`. -/
theorem runLoop_lastUkey_ne {u : K} {st st' : RunState K} {es : List (Entry K V)}
    {out : List (Kept K V)} (hu : ∀ e ∈ es, e.ikey.ukey ≠ u) (hst : st.lastUkey ≠ some u)
    (h : runLoop o minSeq st es = some (out, st')) : st'.lastUkey ≠ some u := by
  induction es generalizing st out with
  | nil => cases h; exact hst
  | cons e es ih =>
    obtain ⟨st₁, k, out', hs, hl, rfl⟩ := runLoop_cons.mp h
    refine ih (fun e' he' => hu e' (List.mem_cons_of_mem _ he')) ?_ hl
    rcases runStep_lastUkey hs with h₁ | h₁ <;> rw [h₁]
    · exact Option.noConfusion
    · exact fun h' => hu e (List.mem_cons_self _ _) (Option.some_inj.mp h')

end Loop

/-! ## Attempts on a built compaction -/

/-- `newCompaction` keeps the catalog and the source level, and saves cursors at the start of every
level. -/
theorem newCompaction_fresh {o : Options K} {tableIter : TFiles K → SourceIter K} {v : Version K}
    {s : ℕ} {t0 : TFiles K} {typ : CompactionType} {c : Compaction K}
    (h : newCompaction o tableIter v s t0 typ = some c) :
    c.v = v ∧ c.sourceLevel = s ∧ c.restore.tPtrs = List.replicate v.levels.length 0 := by
  unfold newCompaction at h
  cases he : expand (o.compactionExpandLimit s) v s t0 with
  | none => simp [he] at h
  | some e =>
    simp only [he, Option.pure_def, Option.bind_eq_bind, Option.some_bind, Option.some.injEq] at h
    subst h
    set c₀ := Compaction.ofExpanded o v s typ e
    rcases Compaction.reduce_cases o (tableIter c₀.levels.1) c₀ with h' | ⟨-, -, h'⟩ <;>
      rw [h'] <;> exact ⟨rfl, rfl, rfl⟩

theorem newCompaction_restore {o : Options K} {tableIter : TFiles K → SourceIter K} {v : Version K}
    {s : ℕ} {t0 : TFiles K} {typ : CompactionType} {c : Compaction K}
    (h : newCompaction o tableIter v s t0 typ = some c) : c.restore = c := by
  unfold newCompaction at h
  cases he : expand (o.compactionExpandLimit s) v s t0 with
  | none => simp [he] at h
  | some e =>
    simp only [he, Option.pure_def, Option.bind_eq_bind, Option.some_bind, Option.some.injEq] at h
    subst h
    rfl

/-- **A retried attempt repeats the first.** Whatever cursor moves the earlier attempts made, an
attempt on a compaction `newCompaction` built keeps the same entries, with the same flags, and ends
in the same state, as a walk from the compaction exactly as `newCompaction` saved it. -/
theorem runKept_retry {o : Options K} {tableIter : TFiles K → SourceIter K} {v : Version K}
    {s : ℕ} {t0 : TFiles K} {typ : CompactionType} {c₀ c : Compaction K}
    (hc₀ : newCompaction o tableIter v s t0 typ = some c₀) (hsteps : CursorSteps c₀ c) (minSeq : ℕ)
    (es : List (Entry K V)) :
    c.runKept o minSeq es = runLoop o minSeq ⟨c₀, none, 0, false⟩ es := by
  rw [Compaction.runKept, RunState.init, hsteps.restore_eq, newCompaction_restore hc₀]

theorem runKept_retry_exFresh :
    ((exFresh.shouldStopBefore (makeInternalKey 11 4 .del)).2.baseLevelForKey 11).2.runKept
        exampleOptions 5 [(⟨makeInternalKey 13 6 .val, 1⟩ : Entry ℕ ℕ)] =
      runLoop exampleOptions 5 ⟨exFresh, none, 0, false⟩ [(⟨makeInternalKey 13 6 .val, 1⟩ : Entry ℕ ℕ)] :=
  runKept_retry newCompaction_exSource (.tail (.single (.shouldStopBefore _ _)) (.baseLevelForKey _ _)) _ _

/-- **`baseLevelForKey` over a build.** On a compaction `newCompaction` built, with the levels from
`sourceLevel + 2` on sorted, the calls made from `restore` on user keys in ascending order each
answer `true` exactly when no table on those levels covers the key, and after every call each
cursor is within its level. -/
theorem baseLevelRun_restore {o : Options K} {tableIter : TFiles K → SourceIter K} {v : Version K}
    {s : ℕ} {t0 : TFiles K} {typ : CompactionType} {c : Compaction K}
    (hc : newCompaction o tableIter v s t0 typ = some c) (hv : DeepSorted v (s + 2)) {us : List K}
    (hus : us.Chain' (· ≤ ·)) :
    List.Forall₂ (fun b u => b = true ↔ NotCoveredBelow v (s + 2) u) (c.restore.baseLevelRun us).1 us ∧
      ∀ k, CursorsIn v.levels (c.restore.baseLevelRun (us.take k)).2.tPtrs := by
  obtain ⟨rfl, rfl, hptrs⟩ := newCompaction_fresh hc
  have hin : CursorsIn c.restore.v.levels c.restore.tPtrs := by
    rw [hptrs]; exact cursorsIn_replicate _
  have hbelow (u : K) : c.restore.CursorsBelow u := by
    rw [Compaction.CursorsBelow, hptrs]; exact cursorsBelow_replicate _ _ u
  exact baseLevelRun_spec (c := c.restore) hv (fun u _ => hbelow u) hin hus

/-- The source `[b, m]` on level 0, nothing on level 1, and the three tables of `exVersion` on
level 2, two levels down. -/
def exDeep : Version ℕ := ⟨[[exSource], [], [exLeft, exMiddle, exRight]]⟩

theorem baseLevelRun_restore_exDeep :
    ∃ c, newCompaction exampleOptions (fun _ => exIter) exDeep 0 [exSource] .level0 = some c ∧
      (List.Forall₂ (fun b u => b = true ↔ NotCoveredBelow exDeep 2 u)
          (c.restore.baseLevelRun [2, 7, 13]).1 [2, 7, 13] ∧
        ∀ k, CursorsIn exDeep.levels (c.restore.baseLevelRun ([2, 7, 13].take k)).2.tPtrs) := by
  have hv : DeepSorted exDeep (0 + 2) := fun L hL => by
    rcases Nat.lt_or_ge L 3 with h | h
    · obtain rfl : L = 2 := by omega
      decide
    · rw [Version.level_of_le h]; exact List.Pairwise.nil
  exact ⟨_, rfl, @baseLevelRun_restore ℕ _ exampleOptions (fun _ => exIter) exDeep 0 [exSource] .level0 _
    rfl hv _ (.cons (by decide) (.cons (by decide) .nil))⟩

example : ((newCompaction exampleOptions (fun _ => exIter) exDeep 0 [exSource] .level0).map
    fun c => (c.restore.baseLevelRun [2, 7, 13]).1) = some [false, true, false] := by decide

end LevelDB

end Workshare
