import Workshare.LevelDB.Build

/-!
# What a build keeps answers every read the same

A compaction may drop entries only where no read can tell. A read of a user key `u` at snapshot
`S` takes, among the entries of `u` with sequence at most `S`, the newest, and falls through to the
deeper levels when there is none; a deletion reads as no value. `run` drops an entry of `u` when a
newer entry of `u` at or below `minSeq` was seen (rule (A)), and a deletion at or below `minSeq` when
no table two or more levels down covers `u` (rule (B)).

The argument is one block of input at a time. In internal-key order the entries of `u` sit
together, so the walk over the whole input is a walk over smaller keys, then over `u`'s block, then
over larger keys, and only the block matters to `u`. Inside the block the entries above `S` are
kept, and the first entry at or below `S` either is kept too or is a deletion rule (B) drops; in the
second case rule (A) drops the rest of the block and the deeper levels have nothing for `u`.

A key that does not parse breaks this: `run` keeps it and forgets the user key it was on, so the
next entry of the same user key counts as a first entry and escapes rule (A), although rule (B)
dropped a deletion on the promise (comment (3)) that rule (A) drops the older entries of its key.
`run_resolves_counterexample` is that case, and `runKept_resolves` holds for every user key no
corrupted key carries.

## Main results

* `runLoop_block_resolve` — the walk over one block answers every read of its key as the block does
* `runKept_resolves` — the entries a build keeps answer every read at or above `minSeq` as its input
  does, for every user key no corrupted key carries; every entry above `minSeq`, and every corrupted
  key, is kept
* `run_resolves_counterexample` — a corrupted key inside a block lets an old value through, against
  the promise of rule (B)
-/

namespace Workshare

namespace LevelDB

variable {K V : Type} [LinearOrder K]

/-! ## Reads -/

/-- What one entry shows a read of `u` at snapshot `S`: its kind and value, when it is a parsed entry
of `u` with sequence at most `S`. -/
def Entry.visibleAt (e : Entry K V) (u : K) (S : ℕ) : Option (KeyType × V) :=
  match parseInternalKey e.ikey with
  | some (uk, seq, kt) => if uk = u ∧ seq ≤ S then some (kt, e.value) else none
  | none => none

/-- The entry a read of `u` at snapshot `S` finds in `es`: the first, in internal-key order, of `u`
with sequence at most `S`, which is the newest the snapshot may see. -/
def visible (es : List (Entry K V)) (u : K) (S : ℕ) : Option (KeyType × V) :=
  es.findSome? fun e => e.visibleAt u S

/-- The value a read of `u` at `S` returns from `es` over what the deeper levels return, `deeper`.
A deletion and the absence of any entry both read as `none`. -/
def resolve (es : List (Entry K V)) (deeper : K → ℕ → Option V) (u : K) (S : ℕ) : Option V :=
  match visible es u S with
  | some (.val, v) => some v
  | some (.del, _) => none
  | none => deeper u S

section Reads

variable {u : K} {S : ℕ}

theorem Entry.visibleAt_of_parse {e : Entry K V} {seq : ℕ} {kt : KeyType}
    (h : parseInternalKey e.ikey = some (u, seq, kt)) :
    e.visibleAt u S = if seq ≤ S then some (kt, e.value) else none := by
  simp [Entry.visibleAt, h]

theorem Entry.visibleAt_of_ne {e : Entry K V} (h : e.ikey.ukey ≠ u) : e.visibleAt u S = none := by
  unfold Entry.visibleAt
  split
  · next hp => rw [if_neg]; rintro ⟨rfl, -⟩; exact h (parseInternalKey_eq_some hp).1.symm
  · rfl

@[simp] theorem visible_nil : visible ([] : List (Entry K V)) u S = none := rfl

theorem visible_cons (e : Entry K V) (l : List (Entry K V)) :
    visible (e :: l) u S = (e.visibleAt u S).or (visible l u S) := by
  simp only [visible, List.findSome?_cons]
  cases e.visibleAt u S <;> rfl

theorem visible_append (l₁ l₂ : List (Entry K V)) :
    visible (l₁ ++ l₂) u S = (visible l₁ u S).or (visible l₂ u S) := List.findSome?_append

/-- Entries of other user keys are invisible to a read of `u`. -/
theorem visible_eq_none {l : List (Entry K V)} (h : ∀ e ∈ l, e.ikey.ukey ≠ u) : visible l u S = none :=
  List.findSome?_eq_none_iff.mpr fun e he => Entry.visibleAt_of_ne (h e he)

theorem resolve_congr {l l' : List (Entry K V)} (h : visible l u S = visible l' u S)
    (deeper : K → ℕ → Option V) : resolve l deeper u S = resolve l' deeper u S := by
  simp only [resolve, h]

end Reads

/-! ## The block of one user key -/

/-- Entries of one user key `u`, all parsed, their sequence numbers not increasing: the entries of
`u` in an input in internal-key order. -/
structure Block (u : K) (B : List (Entry K V)) : Prop where
  parsed : ∀ e ∈ B, ∃ kt, parseInternalKey e.ikey = some (u, e.ikey.seq, kt)
  sorted : B.Pairwise fun a b => b.ikey.seq ≤ a.ikey.seq

omit [LinearOrder K] in
theorem Block.tail {u : K} {b : Entry K V} {B : List (Entry K V)} (h : Block u (b :: B)) : Block u B :=
  ⟨fun e he => h.parsed e (List.mem_cons_of_mem _ he), h.sorted.of_cons⟩

section Block

variable {o : Options K} {minSeq S : ℕ} {u : K}

/-- Once an entry of `u` at or below `minSeq` has been seen, rule (A) drops the rest of the block. -/
theorem runLoop_block_dropped {B : List (Entry K V)} (hB : Block u B) (hle : ∀ e ∈ B, e.ikey.seq ≤ minSeq)
    {st st' : RunState K} {out : List (Kept K V)} (hu : st.lastUkey = some u)
    (hseq : st.lastSeq ≤ minSeq) (h : runLoop o minSeq st B = some (out, st')) : out = [] := by
  induction B generalizing st out with
  | nil => cases h; rfl
  | cons b B ih =>
    obtain ⟨st₁, k, out', hs, hl, rfl⟩ := runLoop_cons.mp h
    obtain ⟨kt, hp⟩ := hB.parsed b (List.mem_cons_self _ _)
    obtain ⟨hu₁, hseq₁, -, hdrop, -⟩ := runStep_parsed_cases hp hs
    have hk : k = none := hdrop.mpr (.inl (by rw [RunState.prevSeq, if_pos hu]; exact hseq))
    subst hk
    exact ih hB.tail (fun e he => hle e (List.mem_cons_of_mem _ he)) hu₁
      (hseq₁ ▸ hle b (List.mem_cons_self _ _)) hl

/-- **The walk over one block answers every read of its key as the block does.** The walk starts
with rule (A) not in force, from cursors below `u`, and `deeper` has nothing for a key no deep table
covers. -/
theorem runLoop_block_resolve {B : List (Entry K V)} (hB : Block u B) {st st' : RunState K}
    {out : List (Kept K V)} (hv : DeepSorted st.c.v (st.c.sourceLevel + 2))
    (hcur : st.c.CursorsBelow u) (hprev : minSeq < st.prevSeq u) (hS : minSeq ≤ S)
    {deeper : K → ℕ → Option V}
    (hdeeper : NotCoveredBelow st.c.v (st.c.sourceLevel + 2) u → deeper u S = none)
    (h : runLoop o minSeq st B = some (out, st')) :
    resolve (out.map Kept.entry) deeper u S = resolve B deeper u S := by
  induction B generalizing st out with
  | nil => cases h; rfl
  | cons b B ih =>
    obtain ⟨st₁, k, out', hs, hl, rfl⟩ := runLoop_cons.mp h
    obtain ⟨kt, hp⟩ := hB.parsed b (List.mem_cons_self _ _)
    obtain ⟨hu₁, hseq₁, -, hdrop, hent, hc₁⟩ := runStep_parsed_cases hp hs
    rw [or_iff_right (not_le.mpr hprev),
      baseLevelForKey_spec (c := (st.c.shouldStopBefore b.ikey).2) hv (hcur.shouldStopBefore _)] at hdrop
    have hvis := Entry.visibleAt_of_parse (S := S) hp
    -- the next state still has the catalog, the source level and cursors below `u`
    have hc₁' : st₁.c.v = st.c.v ∧ st₁.c.sourceLevel = st.c.sourceLevel ∧ st₁.c.CursorsBelow u := by
      rcases hc₁ with h₁ | h₁ <;> rw [h₁]
      · exact ⟨rfl, rfl, hcur.shouldStopBefore _⟩
      · exact ⟨rfl, rfl, (hcur.shouldStopBefore _).baseLevelForKey le_rfl⟩
    by_cases hbS : b.ikey.seq ≤ S
    · rw [if_pos hbS] at hvis
      cases k with
      | none =>
        obtain ⟨rfl, hbm, hnc⟩ := hdrop.mp rfl
        have hout : out' = [] := runLoop_block_dropped hB.tail
          (fun e he => (List.rel_of_pairwise_cons hB.sorted he).trans hbm) hu₁ (hseq₁ ▸ hbm) hl
        simp [hout, resolve, visible_cons, hvis, hdeeper hnc]
      | some kk =>
        simp [resolve, visible_cons, hvis, hent kk rfl]
    · rw [if_neg hbS] at hvis
      obtain ⟨kk, rfl⟩ : ∃ kk, k = some kk := Option.ne_none_iff_exists'.mp fun hk => by
        have := (hdrop.mp hk).2.1; omega
      obtain ⟨hv₁, hs₁, hcur₁⟩ := hc₁'
      have ih' := ih hB.tail (by rw [hv₁, hs₁]; exact hv) hcur₁
        (by rw [RunState.prevSeq, if_pos hu₁, hseq₁]; omega) (by rw [hv₁, hs₁]; exact hdeeper) hl
      simpa [resolve, visible_cons, hvis, hent kk rfl] using ih'

end Block

/-! ## What is always kept -/

section Keeps

variable {o : Options K} {minSeq : ℕ} {st st' : RunState K} {e : Entry K V}

/-- `lastSeq` bounds the sequence number of every entry still to come of the last user key. -/
def SeqBound (st : RunState K) (rest : List (Entry K V)) : Prop :=
  ∀ w, st.lastUkey = some w → ∀ e ∈ rest, e.ikey.ukey = w → e.ikey.seq ≤ st.lastSeq

theorem runStep_seqBound {rest : List (Entry K V)} {k : Option (Kept K V)}
    (hsort : ∀ e' ∈ rest, e.ikey ≤ e'.ikey) (hs : runStep o minSeq st e = some (st', k)) :
    SeqBound st' rest := by
  intro w hw e' he' hu
  cases hp : parseInternalKey e.ikey with
  | none =>
    rw [runStep_unparsed hp] at hs
    split_ifs at hs; cases hs; cases hw
  | some p =>
    obtain ⟨ukey, seq, kt⟩ := p
    obtain ⟨hu₁, hseq₁, -⟩ := runStep_parsed_cases hp hs
    obtain ⟨rfl, rfl⟩ := parseInternalKey_eq_some hp
    rw [hu₁, Option.some_inj] at hw
    exact hseq₁ ▸ InternalKey.seq_le_of_le (hsort e' he') (hw.trans hu.symm)

/-- An entry that does not parse, or lies above `minSeq`, is kept. -/
theorem runStep_keeps {rest : List (Entry K V)} {k : Option (Kept K V)} (hb : SeqBound st (e :: rest))
    (he : parseInternalKey e.ikey = none ∨ minSeq < e.ikey.seq)
    (hs : runStep o minSeq st e = some (st', k)) : k.map Kept.entry = some e := by
  cases hp : parseInternalKey e.ikey with
  | none =>
    rw [runStep_unparsed hp] at hs
    split_ifs at hs; cases hs; rfl
  | some p =>
    obtain ⟨ukey, seq, kt⟩ := p
    have hgt : minSeq < e.ikey.seq := he.resolve_left (by rw [hp]; exact Option.noConfusion)
    obtain ⟨-, -, -, hdrop, hent, -⟩ := runStep_parsed_cases hp hs
    obtain ⟨rfl, rfl⟩ := parseInternalKey_eq_some hp
    have hprev : e.ikey.seq ≤ st.prevSeq e.ikey.ukey := by
      unfold RunState.prevSeq
      split_ifs with h
      · exact hb _ h e (List.mem_cons_self _ _) rfl
      · exact e.ikey.seq_le_keyMaxSeq
    obtain ⟨kk, rfl⟩ : ∃ kk, k = some kk := Option.ne_none_iff_exists'.mp fun hk => by
      rcases hdrop.mp hk with h | ⟨-, h, -⟩ <;> omega
    simp [hent kk rfl]

theorem runLoop_keeps {es : List (Entry K V)} {out : List (Kept K V)}
    (hsort : es.Sorted fun a b => a.ikey ≤ b.ikey) (hb : SeqBound st es)
    (h : runLoop o minSeq st es = some (out, st')) :
    ∀ e ∈ es, parseInternalKey e.ikey = none ∨ minSeq < e.ikey.seq → e ∈ out.map Kept.entry := by
  induction es generalizing st out with
  | nil => simp
  | cons e₀ es ih =>
    obtain ⟨st₁, k, out', hs, hl, rfl⟩ := runLoop_cons.mp h
    obtain ⟨hhead, htail⟩ := List.sorted_cons.mp hsort
    intro e he hcond
    rw [List.map_append, List.mem_append]
    rcases List.mem_cons.mp he with rfl | he
    · have hk := runStep_keeps hb hcond hs
      cases k <;> simp_all
    · exact .inr (ih htail (runStep_seqBound hhead hs) hl e he hcond)

end Keeps

/-! ## The whole input -/

/-- What `dropWhile` leaves of a sorted list: a property that holds where it stops and that the
order carries forward holds all along. -/
theorem forall_mem_dropWhile {α : Type} {r : α → α → Prop} {l : List α} (hl : l.Pairwise r)
    {p : α → Bool} {q : α → Prop} (hq : ∀ a ∈ l, p a = false → q a) (hr : ∀ a b, q a → r a b → q b) :
    ∀ x ∈ l.dropWhile p, q x := by
  have hsuf := List.dropWhile_suffix p (l := l)
  cases hd : l.dropWhile p with
  | nil => simp
  | cons h t =>
    have hh : p h = false := by
      have := List.head?_dropWhile_not p l
      rw [hd] at this
      simpa using this
    have hqh : q h := hq h (hsuf.subset (by rw [hd]; exact List.mem_cons_self _ _)) hh
    have hpw : (h :: t).Pairwise r := by rw [← hd]; exact hl.sublist hsuf.sublist
    intro x hx
    rcases List.mem_cons.mp hx with rfl | hx
    · exact hqh
    · exact hr _ _ hqh (List.rel_of_pairwise_cons hpw hx)

/-- **In internal-key order the entries of one user key sit together**, after the smaller user keys
and before the larger ones. -/
theorem split_at_ukey {es : List (Entry K V)} (hes : es.Sorted fun a b => a.ikey ≤ b.ikey) (u : K) :
    ∃ A B C, es = A ++ B ++ C ∧ (∀ e ∈ A, e.ikey.ukey < u) ∧ (∀ e ∈ B, e.ikey.ukey = u) ∧
      ∀ e ∈ C, u < e.ikey.ukey := by
  set R := es.dropWhile fun e => decide (e.ikey.ukey < u)
  have hR : ∀ e ∈ R, u ≤ e.ikey.ukey := forall_mem_dropWhile hes (fun a _ h => by simpa using h)
    fun a b h hab => h.trans (InternalKey.ukey_le_of_le hab)
  refine ⟨es.takeWhile fun e => decide (e.ikey.ukey < u), R.takeWhile fun e => decide (e.ikey.ukey = u),
    R.dropWhile fun e => decide (e.ikey.ukey = u), ?_, fun e he => ?_, fun e he => ?_, ?_⟩
  · rw [List.append_assoc, List.takeWhile_append_dropWhile, List.takeWhile_append_dropWhile]
  · simpa using List.mem_takeWhile_imp he
  · simpa using List.mem_takeWhile_imp he
  · exact forall_mem_dropWhile (hes.sublist (List.dropWhile_suffix _).sublist)
      (fun a ha h => lt_of_le_of_ne (hR a ha) (by simpa [eq_comm] using h))
      fun a b h hab => h.trans_le (InternalKey.ukey_le_of_le hab)

/-- What an attempt of `run` promises about the entries `out` it keeps from the input `es`: they are
entries of the input in order; every entry above `minSeq`, and every entry whose key does not parse,
is among them; and for `minSeq < keyMaxSeq`, on top of deeper levels that have nothing for a key no
table from `level` on covers, they answer a read at or above `minSeq` of any user key no unparsable
key carries as the input does. -/
structure KeepsReads (v : Version K) (level minSeq : ℕ) (es : List (Entry K V)) (out : List (Kept K V)) :
    Prop where
  sublist : (out.map Kept.entry).Sublist es
  keeps_new : ∀ e ∈ es, minSeq < e.ikey.seq → e ∈ out.map Kept.entry
  keeps_corrupted : ∀ e ∈ es, parseInternalKey e.ikey = none → e ∈ out.map Kept.entry
  resolves : minSeq < keyMaxSeq → ∀ deeper : K → ℕ → Option V,
    (∀ u S, NotCoveredBelow v level u → deeper u S = none) →
    ∀ u, (∀ e ∈ es, parseInternalKey e.ikey = none → e.ikey.ukey ≠ u) →
    ∀ S, minSeq ≤ S → resolve (out.map Kept.entry) deeper u S = resolve es deeper u S

/-- **The entries a build keeps answer reads as its input does.** On a compaction `newCompaction`
built, with the levels from `sourceLevel + 2` on sorted, every attempt of `run` over an input in
internal-key order keeps what `KeepsReads` says. -/
theorem runKept_resolves {o : Options K} {tableIter : TFiles K → SourceIter K} {v : Version K}
    {s : ℕ} {t0 : TFiles K} {typ : CompactionType} {c : Compaction K}
    (hc : newCompaction o tableIter v s t0 typ = some c) (hv : DeepSorted v (s + 2)) {minSeq : ℕ}
    {es : List (Entry K V)} (hes : es.Sorted fun a b => a.ikey ≤ b.ikey) :
    ∀ r ∈ c.runKept o minSeq es, KeepsReads v (s + 2) minSeq es r.1 := by
  rintro ⟨out, st⟩ hrun
  obtain ⟨hcv, hcs, hct⟩ := newCompaction_fresh hc
  have hkeep := runLoop_keeps hes (fun w hw => by cases hw) hrun
  refine ⟨runLoop_sublist hrun, fun e he h => hkeep e he (.inr h), fun e he h => hkeep e he (.inl h),
    fun hmin deeper hdeeper u hu S hS => ?_⟩
  dsimp only
  obtain ⟨A, B, C, rfl, hA, hB, hC⟩ := split_at_ukey hes u
  obtain ⟨outAB, outC, stAB, hAB, hCrun, rfl⟩ := runLoop_append_eq_some hrun
  obtain ⟨outA, outB, stA, hArun, hBrun, rfl⟩ := runLoop_append_eq_some hAB
  have hAu : ∀ e ∈ A, e.ikey.ukey ≠ u := fun e he => (hA e he).ne
  have hCu : ∀ e ∈ C, e.ikey.ukey ≠ u := fun e he => (hC e he).ne'
  -- only the block of `u` is visible to the read, on either side
  have hin : visible (A ++ B ++ C) u S = visible B u S := by
    simp [visible_append, visible_eq_none hAu, visible_eq_none hCu]
  have hout : visible ((outA ++ outB ++ outC).map Kept.entry) u S = visible (outB.map Kept.entry) u S := by
    simp only [List.map_append, visible_append,
      visible_eq_none fun e he => hAu e ((runLoop_sublist hArun).subset he),
      visible_eq_none fun e he => hCu e ((runLoop_sublist hCrun).subset he), Option.none_or,
      Option.or_none]
  rw [resolve_congr hout, resolve_congr hin]
  -- the block is a block
  have hsortB : B.Pairwise fun a b => a.ikey ≤ b.ikey :=
    hes.sublist ((List.sublist_append_right A B).trans (List.sublist_append_left _ C))
  have hblock : Block u B := by
    refine ⟨fun e he => ?_, hsortB.imp_of_mem fun ha hb hab =>
      InternalKey.seq_le_of_le hab ((hB _ ha).trans (hB _ hb).symm)⟩
    have hne : parseInternalKey e.ikey ≠ none := fun h =>
      hu e (List.mem_append_left _ (List.mem_append_right _ he)) h (hB e he)
    obtain ⟨⟨uk, seq, kt⟩, hp⟩ := Option.ne_none_iff_exists'.mp hne
    obtain ⟨rfl, rfl⟩ := parseInternalKey_eq_some hp
    exact ⟨kt, hB e he ▸ hp⟩
  -- the walk over the smaller keys leaves the state the block lemma needs
  have hsteps := runLoop_cursorSteps hArun
  have hvA : stA.c.v = v := hsteps.v_eq.trans hcv
  have hsA : stA.c.sourceLevel = s := hsteps.sourceLevel_eq.trans hcs
  have hcurA : stA.c.CursorsBelow u := runLoop_cursorsBelow (fun e he => (hA e he).le)
    (by show CursorsBelow c.v.levels c.restore.tPtrs u; rw [hct]; exact cursorsBelow_replicate _ _ _)
    hArun
  have hprevA : minSeq < stA.prevSeq u := by
    rw [RunState.prevSeq, if_neg (runLoop_lastUkey_ne hAu Option.noConfusion hArun)]
    exact hmin
  exact runLoop_block_resolve hblock (by rw [hvA, hsA]; exact hv) hcurA hprevA hS
    (by rw [hvA, hsA]; exact hdeeper u S) hBrun

/-- An input for `exFresh`: `k` deleted at 4 over a value at 3, and `m` with values at 6 and 2. -/
def readsInput : List (Entry ℕ ℕ) :=
  [⟨makeInternalKey 11 4 .del, 0⟩, ⟨makeInternalKey 11 3 .val, 1⟩, ⟨makeInternalKey 13 6 .val, 2⟩,
    ⟨makeInternalKey 13 2 .val, 3⟩]

theorem runKept_resolves_readsInput :
    ∃ r ∈ exFresh.runKept exampleOptions 5 readsInput, KeepsReads exVersion (1 + 2) 5 readsInput r.1 :=
  ⟨_, rfl, runKept_resolves newCompaction_exSource
    (fun _ hL => by rw [Version.level_of_le (le_trans (by decide) hL)]; exact List.Pairwise.nil)
    (by decide) _ rfl⟩

/-- With `minSeq = 5` and nothing below level 2, rule (B) drops the deletion of `k` and rule (A) the
value under it; both values of `m` stay. -/
example : (exFresh.runKept exampleOptions 5 readsInput).map (fun r => r.1.map Kept.entry) =
    some [⟨makeInternalKey 13 6 .val, 2⟩, ⟨makeInternalKey 13 2 .val, 3⟩] := by
  decide

/-- The input of the counterexample, all on user key `2`: a value at sequence 8, a deletion at 4, a
key whose kind byte is `2`, so that it does not parse, and a value at 2. -/
def corruptedInput : List (Entry ℕ ℕ) :=
  [⟨makeInternalKey 2 8 .val, 1⟩, ⟨makeInternalKey 2 4 .del, 0⟩, ⟨⟨2, 3 * 256 + 2⟩, 0⟩,
    ⟨makeInternalKey 2 2 .val, 2⟩]

/-- **Reads can change.** With `minSeq = 5`, the deletion at 4 is dropped; the corrupted key after it
makes the value at 2 a first entry, which is kept, and a read at snapshot 5 finds it where the input
has the deletion. Separately, with `minSeq = keyMaxSeq` the first entry of a user key already falls
under rule (A), and a read loses a value. -/
theorem run_resolves_counterexample :
    corruptedInput.Sorted (fun a b => a.ikey ≤ b.ikey) ∧
      (exCompaction.runKept exampleOptions 5 corruptedInput).map
          (fun r => resolve (r.1.map Kept.entry) (fun _ _ => none) 2 5) = some (some 2) ∧
      resolve corruptedInput (fun _ _ => none) 2 5 = none ∧
      (exCompaction.runKept exampleOptions keyMaxSeq [⟨makeInternalKey 2 5 .val, 7⟩]).map
          (fun r => resolve (r.1.map Kept.entry) (fun _ _ => none) 2 keyMaxSeq) = some none ∧
      resolve [⟨makeInternalKey 2 5 .val, 7⟩] (fun _ _ => none) 2 keyMaxSeq = some 7 := by
  decide

end LevelDB

end Workshare
