import Workshare.LevelDB.Reads
import Workshare.LevelDB.Writer

/-!
# The tables of one build are in key order

Like every level from 1 on, the tables a compaction adds at `sourceLevel + 1` must be sorted and
have disjoint user-key ranges. The writer only cuts before an entry that `run` marked `canStop`,
and `run` marks an entry so when its user key is not the last one it saw: the key of the input
entry right before, kept or dropped. On input in internal-key order every cut therefore falls
between two user keys, whatever `run` drops. Each table is in key order, and every user key of a
table is below every user key of the tables after it.

That last step needs every key to parse. An unparsable key is kept and clears `lastUkey`, so the
entry after it counts as the first of its user key and may start a new table, while an entry of
the same user key before the unparsable one ended the previous table.

## Main results

* `runLoop_cutOrder` — the kept entries are in key order, and a legal cut is strict in user key
* `writeTables_ordered` — a stream ordered so is cut into sorted tables with increasing ranges
* `runKept_tables_ordered` — the tables one attempt writes are sorted, with disjoint ranges
-/

namespace Workshare

namespace LevelDB

variable {K V : Type} [LinearOrder K]

/-- `k'` may follow `k` in the kept stream: not before it in key order, and at a larger user key
if the writer may cut before `k'`. -/
def CutOrder (k k' : Kept K V) : Prop :=
  k.entry.ikey ≤ k'.entry.ikey ∧ (k'.canStop = true → k.entry.ikey.ukey < k'.entry.ikey.ukey)

/-- Every user key of the table `t` is below every user key of the table `t'`. -/
def KeysBelow (t t' : List (Entry K V)) : Prop :=
  ∀ e ∈ t, ∀ e' ∈ t', e.ikey.ukey < e'.ikey.ukey

/-! ## The kept stream -/

section Run

variable {o : Options K} {minSeq : ℕ}

/-- A parsed entry is kept as a legal cut only when its user key is not the last one seen. -/
theorem runStep_canStop {st st' : RunState K} {e : Entry K V} {kk : Kept K V} {ukey : K} {seq : ℕ}
    {kt : KeyType} (h : parseInternalKey e.ikey = some (ukey, seq, kt))
    (hs : runStep o minSeq st e = some (st', some kk)) (hc : kk.canStop = true) :
    st.lastUkey ≠ some ukey := by
  simp only [runStep, h] at hs
  split_ifs at hs <;> cases hs <;> simpa using hc

/-- **The kept entries are ordered for the writer.** On input in key order whose keys all parse,
starting from a state whose last user key is below the input, the kept entries are in key order,
and each one `run` marks as a legal cut is at a user key above the last one seen before the
input. -/
theorem runLoop_cutOrder {st st' : RunState K} {es : List (Entry K V)} {out : List (Kept K V)}
    (hes : es.Pairwise fun a b => a.ikey ≤ b.ikey)
    (hp : ∀ e ∈ es, (parseInternalKey e.ikey).isSome)
    (hst : ∀ u, st.lastUkey = some u → ∀ e ∈ es, u ≤ e.ikey.ukey)
    (h : runLoop o minSeq st es = some (out, st')) :
    out.Pairwise CutOrder ∧
      ∀ k ∈ out, k.canStop = true → ∀ u, st.lastUkey = some u → u < k.entry.ikey.ukey := by
  induction es generalizing st out with
  | nil => cases h; exact ⟨.nil, fun _ h => absurd h (List.not_mem_nil _)⟩
  | cons e es ih =>
    obtain ⟨st₁, k, out', hs, hl, rfl⟩ := runLoop_cons.mp h
    obtain ⟨⟨ukey, seq, kt⟩, hpe⟩ := Option.isSome_iff_exists.mp (hp e (List.mem_cons_self _ _))
    obtain ⟨rfl, -⟩ := parseInternalKey_eq_some hpe
    obtain ⟨hlast, -, -, -, hentry, -⟩ := runStep_parsed_cases hpe hs
    rw [List.pairwise_cons] at hes
    have hmem : ∀ k' ∈ out', k'.entry ∈ es :=
      fun k' hk' => (runLoop_sublist hl).subset (List.mem_map_of_mem _ hk')
    obtain ⟨hpw, hlt⟩ := ih hes.2 (fun e' he' => hp e' (List.mem_cons_of_mem _ he'))
      (fun u hu e' he' => Option.some_inj.mp (hlast.symm.trans hu) ▸ InternalKey.ukey_le_of_le (hes.1 e' he')) hl
    refine ⟨List.pairwise_append.mpr ⟨?_, hpw, fun kk hkk k' hk' => ?_⟩, fun k' hk' hc u hu => ?_⟩
    · cases k <;> simp
    · unfold CutOrder
      rw [hentry kk (Option.mem_toList.mp hkk)]
      exact ⟨hes.1 _ (hmem k' hk'), fun hc => hlt k' hk' hc _ hlast⟩
    · have hue := hst u hu e (List.mem_cons_self _ _)
      rcases List.mem_append.mp hk' with hk' | hk'
      · cases k with
        | none => cases hk'
        | some kk =>
          obtain rfl : k' = kk := by simpa using hk'
          rw [hentry k' rfl]
          exact lt_of_le_of_ne hue fun he => runStep_canStop hpe hs hc (he ▸ hu)
      · exact lt_of_le_of_lt hue (hlt k' hk' hc _ hlast)

end Run

/-! ## Cutting an ordered stream -/

section Writer

variable {tableSize : ℕ} {bytesLen : List (Entry K V) → ℕ}

/-- What the writer keeps while the stream is ordered: every table sorted, the closed tables with
increasing ranges and below the open one, and no closed table before one is open. -/
structure SeqWriter.Ordered (w : SeqWriter K V) : Prop where
  sorted : ∀ t ∈ w.closed ++ w.tw.toList, t.Pairwise fun e e' => e.ikey ≤ e'.ikey
  closed : w.closed.Pairwise KeysBelow
  below_open : ∀ t ∈ w.closed, ∀ tw ∈ w.tw, KeysBelow t tw
  started : w.tw = none → w.closed = []

omit [LinearOrder K] in
theorem SeqWriter.mem_entries {w : SeqWriter K V} {t : List (Entry K V)} {x : Entry K V}
    (ht : t ∈ w.closed ++ w.tw.toList) (hx : x ∈ t) : x ∈ w.entries := by
  rcases List.mem_append.mp ht with ht | ht
  · exact List.mem_append_left _ (List.mem_flatten.mpr ⟨t, ht, hx⟩)
  · obtain ⟨tw, htw, rfl⟩ : ∃ tw, w.tw = some tw ∧ tw = t := by
      cases h : w.tw <;> simp_all
    exact List.mem_append_right _ (by simpa [htw] using hx)

/-- One entry keeps the writer ordered, when it may follow every entry before it. -/
theorem writeStep_ordered {w : SeqWriter K V} {ks : List (Kept K V)} {k : Kept K V}
    (hw : w.Ordered) (he : w.entries = ks.map Kept.entry) (hne : w.NoEmpty)
    (hk : ∀ kk ∈ ks, CutOrder kk k) : (writeStep tableSize bytesLen w k).Ordered := by
  have hcut : ∀ x ∈ w.entries, CutOrder ⟨x, false, false⟩ k := fun x hx => by
    obtain ⟨kk, hkk, rfl⟩ := List.mem_map.mp (he ▸ hx)
    exact hk kk hkk
  cases htw : w.tw with
  | none =>
    have hc := hw.started htw
    rw [writeStep_of_none htw]
    exact ⟨by simp [hc], by simp [hc], by simp [hc], fun h => Option.noConfusion h⟩
  | some tw =>
    have hin : ∀ t ∈ w.closed ++ [tw], ∀ x ∈ t, x ∈ w.entries :=
      fun t ht x hx => SeqWriter.mem_entries (by simpa [htw] using ht) hx
    have hsorted : ∀ t ∈ w.closed ++ [tw], t.Pairwise fun e e' => e.ikey ≤ e'.ikey :=
      fun t ht => hw.sorted t (by simpa [htw] using ht)
    cases hrot : rotates tableSize bytesLen tw k
    · rw [writeStep_of_not_rotates htw hrot]
      refine ⟨fun t ht => ?_, hw.closed, fun t ht tw' htw' x hx x' hx' => ?_,
        fun h => Option.noConfusion h⟩
      · rcases List.mem_append.mp ht with ht | ht
        · exact hsorted t (List.mem_append_left _ ht)
        · obtain rfl : t = tw ++ [k.entry] := by simpa using ht
          refine List.pairwise_append.mpr ⟨hsorted tw (by simp), List.pairwise_singleton _ _,
            fun x hx x' hx' => ?_⟩
          obtain rfl := List.mem_singleton.mp hx'
          exact (hcut x (hin tw (by simp) x hx)).1
      · obtain rfl : tw' = tw ++ [k.entry] := (Option.some_inj.mp htw').symm
        rcases List.mem_append.mp hx' with hx' | hx'
        · exact hw.below_open t ht tw htw x hx x' hx'
        · obtain rfl := List.mem_singleton.mp hx'
          obtain ⟨y, hy⟩ := List.exists_mem_of_ne_nil tw fun h => hne.2 (htw.trans (by rw [h]))
          exact lt_of_lt_of_le (hw.below_open t ht tw htw x hx y hy)
            (InternalKey.ukey_le_of_le (hcut y (hin tw (by simp) y hy)).1)
    · have hcs : k.canStop = true := by simp only [rotates, Bool.and_eq_true] at hrot; exact hrot.1
      rw [writeStep_of_rotates htw hrot]
      refine ⟨fun t ht => ?_, List.pairwise_append.mpr ⟨hw.closed, List.pairwise_singleton _ _,
        fun t ht t' ht' => hw.below_open t ht t' (by rw [List.mem_singleton.mp ht']; exact htw)⟩,
        fun t ht tw' htw' x hx x' hx' => ?_, fun h => Option.noConfusion h⟩
      · rcases List.mem_append.mp ht with ht | ht
        · exact hsorted t ht
        · obtain rfl : t = [k.entry] := by simpa using ht
          exact List.pairwise_singleton _ _
      · obtain rfl : tw' = [k.entry] := (Option.some_inj.mp htw').symm
        obtain rfl := List.mem_singleton.mp hx'
        exact (hcut x (hin t ht x hx)).2 hcs

theorem writeFold_ordered {ks : List (Kept K V)} (h : ks.Pairwise CutOrder) :
    (writeFold tableSize bytesLen ks).Ordered := by
  induction ks using List.reverseRecOn with
  | nil => exact ⟨by simp [writeFold], .nil, by simp [writeFold], fun _ => rfl⟩
  | append_singleton ks k ih =>
    rw [List.pairwise_append] at h
    rw [writeFold_append]
    exact writeStep_ordered (ih h.1) (writeFold_entries ks) (writeFold_noEmpty ks)
      fun kk hkk => h.2.2 kk hkk k (List.mem_singleton_self k)

/-- **An ordered stream is cut into sorted tables with increasing ranges.** -/
theorem writeTables_ordered {ks : List (Kept K V)} (h : ks.Pairwise CutOrder) :
    (∀ t ∈ writeTables tableSize bytesLen ks, t.Pairwise fun e e' => e.ikey ≤ e'.ikey) ∧
      (writeTables tableSize bytesLen ks).Pairwise KeysBelow := by
  have hw := @writeFold_ordered K V _ tableSize bytesLen ks h
  refine ⟨hw.sorted, List.pairwise_append.mpr ⟨hw.closed, ?_, fun t ht t' ht' =>
    hw.below_open t ht t' (Option.mem_toList.mp ht')⟩⟩
  cases (writeFold tableSize bytesLen ks).tw <;> simp

end Writer

/-- **The tables of one attempt are sorted, with disjoint ranges.** For input in internal-key
order whose keys all parse, and whatever `run` drops, each table the writer makes of the kept
entries is in key order, and every user key of a table is below every user key of each later
table. -/
theorem runKept_tables_ordered {c : Compaction K} {o : Options K} {minSeq : ℕ}
    {es : List (Entry K V)} (hes : es.Pairwise fun a b => a.ikey ≤ b.ikey)
    (hp : ∀ e ∈ es, (parseInternalKey e.ikey).isSome) (tableSize : ℕ)
    (bytesLen : List (Entry K V) → ℕ) :
    ∀ r ∈ c.runKept o minSeq es,
      (∀ t ∈ writeTables tableSize bytesLen r.1, t.Pairwise fun e e' => e.ikey ≤ e'.ikey) ∧
        (writeTables tableSize bytesLen r.1).Pairwise KeysBelow := by
  rintro ⟨out, st⟩ h
  exact writeTables_ordered (runLoop_cutOrder hes hp (fun _ hu => Option.noConfusion hu) h).1

theorem runKept_tables_ordered_readsInput :
    ∃ r ∈ exFresh.runKept exampleOptions 5 readsInput,
      (∀ t ∈ writeTables 1 List.length r.1, t.Pairwise fun e e' => e.ikey ≤ e'.ikey) ∧
        (writeTables 1 List.length r.1).Pairwise KeysBelow :=
  ⟨_, rfl, @runKept_tables_ordered ℕ ℕ _ exFresh exampleOptions 5 readsInput (by decide) (by decide) 1
    List.length _ rfl⟩

/-- Without the parse hypothesis: a value of `2` at 5, an unparsable key of `2`, and a value of `2`
at 3. The entry after the unparsable key is a legal cut, and with tables of two entries user key
`2` ends the first table and starts the second. -/
example :
    (exFresh.runKept exampleOptions 0
        [⟨makeInternalKey 2 5 .val, 1⟩, ⟨⟨2, 3 * 256 + 2⟩, 0⟩, ⟨makeInternalKey 2 3 .val, 2⟩]).map
        (fun r => writeTables 2 List.length r.1) =
      some [[⟨makeInternalKey 2 5 .val, 1⟩, ⟨⟨2, 3 * 256 + 2⟩, 0⟩], [⟨makeInternalKey 2 3 .val, 2⟩]] := by
  decide

end LevelDB

end Workshare
