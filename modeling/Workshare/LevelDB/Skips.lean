import Workshare.LevelDB.Commit

/-!
# Cuts at skipped tables

`reduce` leaves some target tables in place, as skips, and `shouldStopBefore` keeps a cursor,
`skipIndex`, into them: before each entry it hops over the skipped tables whose smallest user key
the entry has reached, and asks for a cut when it hopped over one. The skipped tables stay on the
output level, so no output table may hold user keys from both sides of one of them.

This module shows that the cut is where it must be as long as `run` keeps every entry: the first
entry at or above the smallest key of a skipped table is then kept as a legal, forced cut, and the
writer never puts entries from both sides of that key into one table. Keeping every entry matters:
the cut travels with the entry it was decided at, and `Workshare.LevelDB.Commit` shows a dropped
entry losing it.

## Main results

* `SkipCursor.shouldStopBefore` — one call moves the cursor past the skipped tables it reached, and
  asks for a cut when it passed the smallest key of one
* `runLoop_hops` — every kept entry that follows one below the smallest key of a skipped table and
  lies at or above it is a legal, forced cut, when nothing is dropped
* `writeFold_oneSide` — the writer keeps each table on one side of a key the stream cuts at
* `runKept_tables_oneSide` — the tables of an attempt that drops nothing lie on one side of the
  smallest key of every skipped table
-/

namespace Workshare

namespace LevelDB

variable {K V : Type} [LinearOrder K]

/-! ## The skip cursor -/

/-- Where the skip cursor of `c` stands after entries up to the user key `lo` (`none` before any
entry): the skipped tables before `skipIndex` start at or below `lo`, the others above it. -/
def SkipCursor (c : Compaction K) (lo : Option K) : Prop :=
  (∀ S ∈ c.skips.take c.skipIndex, ∃ w ∈ lo, S.imin.ukey ≤ w) ∧
    ∀ S ∈ c.skips.drop c.skipIndex, ∀ w ∈ lo, w < S.imin.ukey

/-- Cutting a list where `takeWhile` stops: the prefix is what `takeWhile` keeps, the rest what
`dropWhile` leaves. -/
theorem take_drop_length_takeWhile {α : Type} (p : α → Bool) (l : List α) :
    l.take (l.takeWhile p).length = l.takeWhile p ∧ l.drop (l.takeWhile p).length = l.dropWhile p := by
  obtain ⟨T, R, hT, hR⟩ : ∃ T R, l.takeWhile p = T ∧ l.dropWhile p = R := ⟨_, _, rfl, rfl⟩
  have h := List.takeWhile_append_dropWhile p l
  rw [hT, hR] at h ⊢
  subst h
  exact ⟨List.take_left' rfl, List.drop_left' rfl⟩

/-- **One call of `shouldStopBefore` on sorted skips.** At an entry at or above everything seen
before, the cursor moves past exactly the skipped tables the entry has reached, and the call asks
for a cut when the entry reached the smallest key of a skipped table that lay above everything seen
before. -/
theorem SkipCursor.shouldStopBefore {c : Compaction K} {lo : Option K}
    (hsk : c.skips.Pairwise fun a b => a.imin.ukey ≤ b.imin.ukey) (h : SkipCursor c lo)
    {ik : InternalKey K} (hlo : ∀ w ∈ lo, w ≤ ik.ukey) :
    SkipCursor (c.shouldStopBefore ik).2 (some ik.ukey) ∧
      ∀ S ∈ c.skips, (∀ w ∈ lo, w < S.imin.ukey) → S.imin.ukey ≤ ik.ukey →
        (c.shouldStopBefore ik).1 = true := by
  have hD : (c.skips.drop c.skipIndex).Pairwise fun a b => a.imin.ukey ≤ b.imin.ukey :=
    hsk.sublist (List.drop_sublist _ _)
  obtain ⟨htake, hdrop⟩ :=
    take_drop_length_takeWhile (fun t : TFile K => decide (t.imin.ukey ≤ ik.ukey)) (c.skips.drop c.skipIndex)
  refine ⟨⟨fun S hS => ⟨ik.ukey, rfl, ?_⟩, fun S hS w hw => ?_⟩, fun S hS hSlo hSx => ?_⟩
  · -- the tables passed before, and those hopped now
    simp only [Compaction.shouldStopBefore, List.take_add, htake] at hS
    rcases List.mem_append.mp hS with hS | hS
    · obtain ⟨w, hw, hSw⟩ := h.1 S hS
      exact hSw.trans (hlo w hw)
    · simpa using List.mem_takeWhile_imp hS
  · -- the tables left start above the entry
    simp only [Compaction.shouldStopBefore, ← List.drop_drop, hdrop] at hS
    cases hw
    exact forall_mem_dropWhile (q := fun S : TFile K => ik.ukey < S.imin.ukey) hD
      (fun a _ ha => by simpa using ha)
      (fun _ _ hab hle => hab.trans_le hle) S hS
  · -- a table above everything seen before lies from the cursor on, and the first of them is hopped
    have hSD : S ∈ c.skips.drop c.skipIndex := by
      rw [← List.take_append_drop c.skipIndex c.skips] at hS
      refine (List.mem_append.mp hS).resolve_left fun hS' => ?_
      obtain ⟨w, hw, hSw⟩ := h.1 S hS'
      exact absurd (hSlo w hw) (not_lt.mpr hSw)
    obtain ⟨S₀, D', hD'⟩ := List.exists_cons_of_ne_nil (List.ne_nil_of_mem hSD)
    have hS₀ : S₀.imin.ukey ≤ ik.ukey := by
      rw [hD'] at hSD hD
      rcases List.mem_cons.mp hSD with rfl | hS'
      · exact hSx
      · exact (List.rel_of_pairwise_cons hD hS').trans hSx
    simp [Compaction.shouldStopBefore, hD', List.takeWhile_cons, hS₀]

/-! ## The kept stream -/

/-- `run` cuts at `b` when the kept entry `a` before it lies below the user key `u` and `b` does
not. -/
def Hop (u : K) (a b : Kept K V) : Prop :=
  a.entry.ikey.ukey < u → u ≤ b.entry.ikey.ukey → b.canStop = true ∧ b.shouldStop = true

section Run

variable {o : Options K} {minSeq : ℕ}

/-- The flags of a kept parsed entry: a legal cut exactly at a new user key, and a forced cut at
least when `shouldStopBefore` asked for one. -/
theorem runStep_flags {st st' : RunState K} {e : Entry K V} {kk : Kept K V} {ukey : K} {seq : ℕ}
    {kt : KeyType} (h : parseInternalKey e.ikey = some (ukey, seq, kt))
    (hs : runStep o minSeq st e = some (st', some kk)) :
    kk.canStop = (st.lastUkey != some ukey) ∧
      ((st.c.shouldStopBefore e.ikey).1 = true → kk.shouldStop = true) := by
  simp only [runStep, h] at hs
  split_ifs at hs <;> cases hs <;> simp_all

/-- **With nothing dropped, `run` cuts at every skipped table.** On input in key order whose keys
all parse and lie above `minSeq`, from a state whose skip cursor stands at the last user key seen,
every kept entry that follows an entry below the smallest key `u` of a skipped table and lies at or
above `u` is kept as a legal, forced cut; the first kept entry is measured against the last user
key seen before the input. -/
theorem runLoop_hops {st st' : RunState K} {es : List (Entry K V)} {out : List (Kept K V)}
    (hsk : st.c.skips.Pairwise fun a b => a.imin.ukey ≤ b.imin.ukey)
    (hes : es.Pairwise fun a b => a.ikey ≤ b.ikey) (hp : ∀ e ∈ es, (parseInternalKey e.ikey).isSome)
    (hseq : ∀ e ∈ es, minSeq < e.ikey.seq) (hb : SeqBound st es)
    (hcur : SkipCursor st.c st.lastUkey) (hst : ∀ w ∈ st.lastUkey, ∀ e ∈ es, w ≤ e.ikey.ukey)
    (h : runLoop o minSeq st es = some (out, st')) :
    ∀ S ∈ st.c.skips,
      (∀ k ∈ out.head?, ∀ w ∈ st.lastUkey, w < S.imin.ukey → S.imin.ukey ≤ k.entry.ikey.ukey →
        k.canStop = true ∧ k.shouldStop = true) ∧ out.Chain' (Hop S.imin.ukey) := by
  induction es generalizing st out with
  | nil => cases h; simp
  | cons e es ih =>
    obtain ⟨st₁, k, out', hs, hl, rfl⟩ := runLoop_cons.mp h
    obtain ⟨⟨ukey, seq, kt⟩, hpe⟩ := Option.isSome_iff_exists.mp (hp e (List.mem_cons_self _ _))
    obtain ⟨rfl, -⟩ := parseInternalKey_eq_some hpe
    obtain ⟨hlast, -, -, -, -, hc⟩ := runStep_parsed_cases hpe hs
    obtain ⟨kk, rfl, rfl⟩ :=
      Option.map_eq_some'.mp (runStep_keeps hb (.inr (hseq e (List.mem_cons_self _ _))) hs)
    obtain ⟨hcan, hstop⟩ := runStep_flags hpe hs
    have hes' := List.pairwise_cons.mp hes
    obtain ⟨hcur₁, hcut⟩ :=
      SkipCursor.shouldStopBefore hsk hcur fun w hw => hst w hw _ (List.mem_cons_self _ _)
    -- the cursor moves of `baseLevelForKey` leave the skip cursor where it is
    have hc₁ : st₁.c.skips = st.c.skips ∧ SkipCursor st₁.c st₁.lastUkey := by
      rw [hlast]; rcases hc with hc | hc <;> rw [hc] <;> exact ⟨rfl, hcur₁⟩
    have ih' := ih (hc₁.1 ▸ hsk) hes'.2 (fun e' he' => hp e' (List.mem_cons_of_mem _ he'))
      (fun e' he' => hseq e' (List.mem_cons_of_mem _ he')) (runStep_seqBound hes'.1 hs) hc₁.2
      (fun w hw e' he' => by
        rw [hlast, Option.mem_def, Option.some_inj] at hw
        exact hw ▸ InternalKey.ukey_le_of_le (hes'.1 e' he')) hl
    intro S hS
    obtain ⟨ihead, ichain⟩ := ih' S (hc₁.1 ▸ hS)
    refine ⟨fun k' hk' w hw hwS hSk => ?_, List.chain'_cons'.mpr ⟨fun k' hk' hlt hle =>
      ihead k' hk' _ (by rw [hlast]; rfl) hlt hle, ichain⟩⟩
    obtain rfl : k' = kk := (by simpa using hk' : kk = k').symm
    rw [Option.mem_def] at hw
    refine ⟨?_, hstop (hcut S hS (fun w' hw' => ?_) hSk)⟩
    · simpa [hcan, hw] using (hwS.trans_le hSk).ne
    · rw [hw, Option.mem_def, Option.some_inj] at hw'
      exact hw' ▸ hwS

end Run

/-! ## The writer -/

/-- The entries of `t` lie all below the user key `u` or all at or above it. -/
def OneSide (u : K) (t : List (Entry K V)) : Prop :=
  (∀ e ∈ t, e.ikey.ukey < u) ∨ ∀ e ∈ t, u ≤ e.ikey.ukey

theorem oneSide_singleton (u : K) (e : Entry K V) : OneSide u [e] := by
  rcases lt_or_le e.ikey.ukey u with h | h <;> simp [OneSide, h]

section Writer

variable {tableSize : ℕ} {bytesLen : List (Entry K V) → ℕ}

/-- **The writer keeps each table on one side of a key the stream cuts at.** When the kept entries
never go back below `u` and the stream cuts wherever it crosses `u`, every table the writer closes
or has open lies on one side of `u`, and the open one ends with the last entry. -/
theorem writeFold_oneSide {u : K} {ks : List (Kept K V)}
    (hmono : ks.Pairwise fun a b => u ≤ a.entry.ikey.ukey → u ≤ b.entry.ikey.ukey)
    (hhop : ks.Chain' (Hop u)) :
    (∀ t ∈ (writeFold tableSize bytesLen ks).closed, OneSide u t) ∧
      ∀ t ∈ (writeFold tableSize bytesLen ks).tw, OneSide u t ∧
        t.getLast? = ks.getLast?.map Kept.entry := by
  induction ks using List.reverseRecOn with
  | nil => simp [writeFold]
  | append_singleton ks k ih =>
    rw [List.pairwise_append] at hmono
    obtain ⟨hchain, -, hlink⟩ := List.chain'_append.mp hhop
    obtain ⟨hclosed, hopen⟩ := ih hmono.1 hchain
    rw [writeFold_append]
    set w := writeFold tableSize bytesLen ks
    cases htw : w.tw with
    | none =>
      rw [writeStep_of_none htw]
      exact ⟨hclosed, fun t ht => by cases ht; exact ⟨oneSide_singleton u _, by simp⟩⟩
    | some t =>
      obtain ⟨hside, hlast⟩ := hopen t htw
      cases hrot : rotates tableSize bytesLen t k
      · rw [writeStep_of_not_rotates htw hrot]
        refine ⟨hclosed, fun t' ht' => ?_⟩
        cases ht'
        refine ⟨?_, by simp⟩
        cases hl : ks.getLast? with
        | none =>
          rw [hl, Option.map_none', List.getLast?_eq_none_iff] at hlast
          rw [hlast]
          exact oneSide_singleton u _
        | some kl =>
          rw [hl] at hlast
          have hkl : kl.entry ∈ t := List.mem_of_getLast?_eq_some hlast
          rcases hside with hlo | hhi
          · rcases lt_or_le k.entry.ikey.ukey u with hk | hk
            · exact .inl (List.forall_mem_append.mpr ⟨hlo, List.forall_mem_singleton.mpr hk⟩)
            · -- crossing `u` from the open table to `k` is a cut, which `k` does not make
              obtain ⟨hc, hs⟩ := hlink kl hl k rfl (hlo _ hkl) hk
              simp [rotates, hc, hs] at hrot
          · have hk := hmono.2.2 kl (List.mem_of_getLast?_eq_some hl) k (List.mem_singleton_self k)
              (hhi _ hkl)
            exact .inr (List.forall_mem_append.mpr ⟨hhi, List.forall_mem_singleton.mpr hk⟩)
      · rw [writeStep_of_rotates htw hrot]
        refine ⟨fun t' ht' => ?_, fun t' ht' => ?_⟩
        · rcases List.mem_append.mp ht' with ht' | ht'
          · exact hclosed t' ht'
          · rw [List.mem_singleton.mp ht']; exact hside
        · cases ht'; exact ⟨oneSide_singleton u _, by simp⟩

/-- Every table the writer makes lies on one side of a key the stream cuts at. -/
theorem writeTables_oneSide {u : K} {ks : List (Kept K V)}
    (hmono : ks.Pairwise fun a b => u ≤ a.entry.ikey.ukey → u ≤ b.entry.ikey.ukey)
    (hhop : ks.Chain' (Hop u)) : ∀ t ∈ writeTables tableSize bytesLen ks, OneSide u t := by
  obtain ⟨hclosed, hopen⟩ := @writeFold_oneSide K V _ tableSize bytesLen u ks hmono hhop
  intro t ht
  rcases List.mem_append.mp ht with ht | ht
  · exact hclosed t ht
  · exact (hopen t (Option.mem_toList.mp ht)).1

end Writer

/-- **An attempt that drops nothing respects the skipped tables.** For a compaction whose skipped
tables are in order of smallest key and whose skip cursor was saved at the start, on input in key
order whose keys all parse and lie above `minSeq`, every table the writer makes of the kept entries
lies wholly below or wholly at or above the smallest user key of each skipped table. -/
theorem runKept_tables_oneSide {c : Compaction K} {o : Options K} {minSeq : ℕ}
    {es : List (Entry K V)} (hsk : c.skips.Pairwise fun a b => a.imin.ukey ≤ b.imin.ukey)
    (h0 : c.snapSkipIndex = 0) (hes : es.Pairwise fun a b => a.ikey ≤ b.ikey)
    (hp : ∀ e ∈ es, (parseInternalKey e.ikey).isSome) (hseq : ∀ e ∈ es, minSeq < e.ikey.seq)
    (tableSize : ℕ) (bytesLen : List (Entry K V) → ℕ) :
    ∀ r ∈ c.runKept o minSeq es, ∀ t ∈ writeTables tableSize bytesLen r.1, ∀ S ∈ c.skips,
      OneSide S.imin.ukey t := by
  rintro ⟨out, st⟩ hr t ht S hS
  have hcur : SkipCursor (RunState.init c).c (RunState.init c).lastUkey :=
    ⟨fun S hS => by simp [RunState.init, Compaction.restore, h0] at hS, fun _ _ _ hw => by cases hw⟩
  obtain ⟨-, hchain⟩ := runLoop_hops hsk hes hp hseq (fun _ hw => by cases hw) hcur
    (fun _ hw => by cases hw) hr S hS
  have hmono : out.Pairwise fun a b => S.imin.ukey ≤ a.entry.ikey.ukey →
      S.imin.ukey ≤ b.entry.ikey.ukey :=
    (runLoop_cutOrder hes hp (fun _ hu => Option.noConfusion hu) hr).1.imp
      fun hab hu => hu.trans (InternalKey.ukey_le_of_le hab.1)
  exact writeTables_oneSide hmono hchain t ht

theorem runKept_tables_oneSide_hopInput :
    ∃ r ∈ exFresh.runKept exampleOptions 2 hopInput,
      ∀ t ∈ writeTables 1000 (fun _ => 0) r.1, ∀ S ∈ exFresh.skips, OneSide S.imin.ukey t :=
  ⟨_, rfl, @runKept_tables_oneSide ℕ ℕ _ exFresh exampleOptions 2 hopInput (by decide) rfl
    (by decide) (by decide) (by decide) 1000 (fun _ => 0) _ rfl⟩

end LevelDB

end Workshare
