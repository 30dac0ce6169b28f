import Workshare.LevelDB.Reduce

/-!
# The cursors of a running compaction

While the builder walks the merged input, two functions of the compaction move cursors forward.

* `baseLevelForKey` answers whether any table two or more levels below the source covers a user key.
  It keeps one cursor per level and only ever moves it forward, so a run that asks about user keys
  in ascending order scans each deeper level once.
* `shouldStopBefore` says whether the output table should end before a key: when the grandparent
  bytes passed since the last cut exceed `maxGPOverlaps`, or when the key has moved past a table of
  the skip list.

`save` and `restore` copy exactly these cursors, which is what makes a retried build start where
the first one did.

## Main results

* `restore_baseLevelForKey`, `restore_shouldStopBefore` — the cursor functions change nothing that
  `restore` keeps
* `CursorSteps.restore_eq` — after any sequence of cursor moves, `restore` gives the same compaction
* `scanLevel_spec` — one level's scan, from a cursor below the key, finds a covering table exactly
  when there is one
* `baseLevelForKey_spec` — the same for all deeper levels together
* `Compaction.CursorsBelow.baseLevelForKey` — asking about keys in ascending order keeps every
  cursor below the next key
-/

namespace Workshare

namespace LevelDB

variable {K : Type} [LinearOrder K]

/-! ## `baseLevelForKey` -/

/-- The inner loop of `baseLevelForKey` on one level: move the cursor past the tables whose largest
user key is below `ukey`, then report whether the table it stops at covers `ukey`. -/
def scanLevel (tables : TFiles K) (ukey : K) (ptr : ℕ) : Bool × ℕ :=
  let p := ptr + ((tables.drop ptr).takeWhile fun t => t.imax.ukey < ukey).length
  match tables[p]? with
  | some t => (decide (t.imin.ukey ≤ ukey), p)
  | none => (false, p)

/-- The outer loop of `baseLevelForKey` over the levels in `ls`, stopping at the first that covers
`ukey`; the cursors are updated as it goes. -/
def baseLevelLoop (levels : List (TFiles K)) (ukey : K) : List ℕ → List ℕ → Bool × List ℕ
  | [], ptrs => (true, ptrs)
  | level :: ls, ptrs =>
    let r := scanLevel (levels.getD level []) ukey (ptrs.getD level 0)
    let ptrs := ptrs.set level r.2
    if r.1 then (false, ptrs) else baseLevelLoop levels ukey ls ptrs

/-- The levels `baseLevelForKey` looks at: `sourceLevel + 2` up to the last. -/
def Compaction.deepLevels (c : Compaction K) : List ℕ :=
  List.range' (c.sourceLevel + 2) (c.v.levels.length - (c.sourceLevel + 2))

/-- Whether no table two or more levels down covers `ukey` (`compaction.baseLevelForKey`). -/
def Compaction.baseLevelForKey (c : Compaction K) (ukey : K) : Bool × Compaction K :=
  let r := baseLevelLoop c.v.levels ukey c.deepLevels c.tPtrs
  (r.1, { c with tPtrs := r.2 })

/-! ## `shouldStopBefore` -/

/-- Whether the output table should end before `ikey` (`compaction.shouldStopBefore`). -/
def Compaction.shouldStopBefore (c : Compaction K) (ikey : InternalKey K) : Bool × Compaction K :=
  let passed := (c.gp.drop c.gpi).takeWhile fun g => g.imax < ikey
  let bytes := if c.seenKey then c.gpOverlappedBytes + tFilesSize passed else c.gpOverlappedBytes
  -- Too much overlap for current output; start new output.
  let tooMuch := decide (c.maxGPOverlaps < bytes)
  -- hop across the skipped tables; start new output.
  let hopped := (c.skips.drop c.skipIndex).takeWhile fun t => t.imin.ukey ≤ ikey.ukey
  (tooMuch || !hopped.isEmpty,
    { c with gpi := c.gpi + passed.length, seenKey := true,
             gpOverlappedBytes := if tooMuch then 0 else bytes,
             skipIndex := c.skipIndex + hopped.length })

/-! ## What `restore` forgets -/

@[simp] theorem restore_baseLevelForKey (c : Compaction K) (ukey : K) :
    (c.baseLevelForKey ukey).2.restore = c.restore := rfl

@[simp] theorem restore_shouldStopBefore (c : Compaction K) (ikey : InternalKey K) :
    (c.shouldStopBefore ikey).2.restore = c.restore := rfl

@[simp] theorem baseLevelForKey_v (c : Compaction K) (ukey : K) :
    (c.baseLevelForKey ukey).2.v = c.v := rfl

@[simp] theorem baseLevelForKey_sourceLevel (c : Compaction K) (ukey : K) :
    (c.baseLevelForKey ukey).2.sourceLevel = c.sourceLevel := rfl

@[simp] theorem shouldStopBefore_v (c : Compaction K) (ikey : InternalKey K) :
    (c.shouldStopBefore ikey).2.v = c.v := rfl

@[simp] theorem shouldStopBefore_sourceLevel (c : Compaction K) (ikey : InternalKey K) :
    (c.shouldStopBefore ikey).2.sourceLevel = c.sourceLevel := rfl

@[simp] theorem shouldStopBefore_tPtrs (c : Compaction K) (ikey : InternalKey K) :
    (c.shouldStopBefore ikey).2.tPtrs = c.tPtrs := rfl

/-- One move of the cursors: a call of `shouldStopBefore` or of `baseLevelForKey`. -/
inductive CursorStep : Compaction K → Compaction K → Prop
  | shouldStopBefore (c : Compaction K) (ikey : InternalKey K) :
      CursorStep c (c.shouldStopBefore ikey).2
  | baseLevelForKey (c : Compaction K) (ukey : K) : CursorStep c (c.baseLevelForKey ukey).2

/-- Any sequence of cursor moves. -/
abbrev CursorSteps : Compaction K → Compaction K → Prop := Relation.ReflTransGen CursorStep

theorem CursorStep.restore_eq {c c' : Compaction K} (h : CursorStep c c') : c'.restore = c.restore := by
  cases h <;> rfl

/-- **`restore` undoes every cursor move.** -/
theorem CursorSteps.restore_eq {c c' : Compaction K} (h : CursorSteps c c') :
    c'.restore = c.restore := by
  induction h with
  | refl => rfl
  | tail _ hstep ih => exact hstep.restore_eq.trans ih

theorem CursorSteps.v_eq {c c' : Compaction K} (h : CursorSteps c c') : c'.v = c.v := by
  have h' := congrArg Compaction.v h.restore_eq
  exact h'

theorem CursorSteps.sourceLevel_eq {c c' : Compaction K} (h : CursorSteps c c') :
    c'.sourceLevel = c.sourceLevel := by
  have h' := congrArg Compaction.sourceLevel h.restore_eq
  exact h'

/-! ## `baseLevelForKey` answers correctly -/

/-- A table covers a user key. -/
def TFile.Covers (t : TFile K) (u : K) : Prop := t.imin.ukey ≤ u ∧ u ≤ t.imax.ukey

/-- Every table before position `ptr` of the level ends below `x`. -/
def PassedBelow (tables : TFiles K) (ptr : ℕ) (x : K) : Prop :=
  ∀ t ∈ tables.take ptr, t.imax.ukey < x

theorem PassedBelow.mono {tables : TFiles K} {ptr : ℕ} {x y : K} (h : PassedBelow tables ptr x)
    (hxy : x ≤ y) : PassedBelow tables ptr y :=
  fun t ht => (h t ht).trans_le hxy

theorem scanLevel_snd (tables : TFiles K) (ukey : K) (ptr : ℕ) :
    (scanLevel tables ukey ptr).2 = ptr + ((tables.drop ptr).takeWhile fun t => t.imax.ukey < ukey).length := by
  unfold scanLevel; dsimp only; split <;> rfl

/-- The scan moves the cursor only past tables that end below the key it looks for. -/
theorem scanLevel_passed {tables : TFiles K} {ukey x : K} {ptr : ℕ} (hp : PassedBelow tables ptr x)
    (hux : ukey ≤ x) : PassedBelow tables (scanLevel tables ukey ptr).2 x := by
  rw [scanLevel_snd]
  intro t ht
  rw [List.take_add, List.mem_append] at ht
  rcases ht with ht | ht
  · exact hp t ht
  · rw [← List.prefix_iff_eq_take.mp (List.takeWhile_prefix _)] at ht
    have := List.mem_takeWhile_imp ht
    exact (of_decide_eq_true this).trans_le hux

/-- **One level's scan.** From a cursor below the key, on a sorted level, the scan reports a covering
table exactly when the level has one, and leaves the cursor below the key. -/
theorem scanLevel_spec {tables : TFiles K} (hs : LevelSorted tables) {ukey : K} {ptr : ℕ}
    (hp : PassedBelow tables ptr ukey) :
    ((scanLevel tables ukey ptr).1 = true ↔ ∃ t ∈ tables, t.Covers ukey) ∧
      PassedBelow tables (scanLevel tables ukey ptr).2 ukey ∧ ptr ≤ (scanLevel tables ukey ptr).2 := by
  set q : TFile K → Bool := fun t => decide (t.imax.ukey < ukey)
  set W := (tables.drop ptr).takeWhile q
  set R := (tables.drop ptr).dropWhile q
  have hsplit : tables = tables.take ptr ++ (W ++ R) := by
    rw [List.takeWhile_append_dropWhile, List.take_append_drop]
  have hW : ∀ t ∈ W, t.imax.ukey < ukey := fun t ht => by simpa [q] using List.mem_takeWhile_imp ht
  have hat : tables[ptr + W.length]? = R.head? := by
    rw [← List.getElem?_drop, ← List.takeWhile_append_dropWhile q (tables.drop ptr),
      List.getElem?_append_right le_rfl, Nat.sub_self, List.head?_eq_getElem?]
  refine ⟨?_, scanLevel_passed hp le_rfl, by rw [scanLevel_snd]; exact Nat.le_add_right _ _⟩
  show (match tables[ptr + W.length]? with
    | some t => (decide (t.imin.ukey ≤ ukey), ptr + W.length)
    | none => (false, ptr + W.length)).1 = true ↔ _
  rw [hat]
  cases hR : R with
  | nil =>
    simp only [List.head?_nil, Bool.false_eq_true, false_iff, not_exists, not_and]
    intro t ht hcov
    rw [hsplit, hR, List.append_nil, List.mem_append] at ht
    exact ht.elim (fun h => (hp t h).not_le hcov.2) (fun h => (hW t h).not_le hcov.2)
  | cons r R' =>
    have hr : ukey ≤ r.imax.ukey := by
      have := List.head?_dropWhile_not q (tables.drop ptr)
      rw [show (tables.drop ptr).dropWhile q = r :: R' from hR] at this
      simpa [q] using this
    simp only [List.head?_cons, decide_eq_true_eq]
    constructor
    · intro h
      exact ⟨r, by rw [hsplit, hR]; simp, h, hr⟩
    · rintro ⟨t, ht, hcov⟩
      rw [hsplit, hR, ← List.append_assoc, List.mem_append, List.mem_cons] at ht
      rcases ht with ht | rfl | ht
      · rcases List.mem_append.mp ht with h | h
        · exact absurd hcov.2 (hp t h).not_le
        · exact absurd hcov.2 (hW t h).not_le
      · exact hcov.1
      · have hsorted := hs
        rw [LevelSorted, hsplit, hR, ← List.append_assoc, List.pairwise_append] at hsorted
        have hrt := List.rel_of_pairwise_cons hsorted.2.1 ht
        exact absurd (hcov.1.trans hr) (not_le.mpr hrt)

/-- Every level cursor has passed only tables that end below `x`. -/
def CursorsBelow (levels : List (TFiles K)) (ptrs : List ℕ) (x : K) : Prop :=
  ∀ L, PassedBelow (levels.getD L []) (ptrs.getD L 0) x

theorem CursorsBelow.set {levels : List (TFiles K)} {ptrs : List ℕ} {x : K}
    (h : CursorsBelow levels ptrs x) {L p : ℕ} (hp : PassedBelow (levels.getD L []) p x) :
    CursorsBelow levels (ptrs.set L p) x := by
  intro L'
  simp only [List.getD_eq_getElem?_getD, List.getElem?_set]
  split_ifs with hL hlt
  · subst hL; simpa [List.getD_eq_getElem?_getD] using hp
  · intro t ht; simp at ht
  · simpa [List.getD_eq_getElem?_getD] using h L'

theorem CursorsBelow.baseLevelLoop {levels : List (TFiles K)} {ukey x : K} (hux : ukey ≤ x) :
    ∀ {ls ptrs : List ℕ}, CursorsBelow levels ptrs x →
      CursorsBelow levels (baseLevelLoop levels ukey ls ptrs).2 x
  | [], _, hc => hc
  | L :: _, _, hc => by
    have hc' := hc.set (scanLevel_passed (hc L) hux)
    simp only [LevelDB.baseLevelLoop]
    split_ifs
    · exact hc'
    · exact hc'.baseLevelLoop hux

/-- **The scan over the deeper levels.** From cursors below the key, over sorted levels, the loop
answers `true` exactly when none of the levels it visits has a table covering the key. -/
theorem baseLevelLoop_spec {levels : List (TFiles K)} {ukey : K} :
    ∀ {ls ptrs : List ℕ}, (∀ L ∈ ls, LevelSorted (levels.getD L [])) →
      CursorsBelow levels ptrs ukey →
      ((baseLevelLoop levels ukey ls ptrs).1 = true ↔ ∀ L ∈ ls, ∀ t ∈ levels.getD L [], ¬ t.Covers ukey)
  | [], _, _, _ => by simp [baseLevelLoop]
  | L :: ls, ptrs, hs, hc => by
    have hcov := (scanLevel_spec (hs L (List.mem_cons_self _ _)) (hc L)).1
    simp only [baseLevelLoop]
    split_ifs with hfound
    · obtain ⟨t, ht, htc⟩ := hcov.mp hfound
      exact ⟨fun h => h.elim, fun hall => absurd htc (hall L (List.mem_cons_self _ _) t ht)⟩
    · rw [baseLevelLoop_spec (fun L' h => hs L' (List.mem_cons_of_mem _ h))
        (hc.set (scanLevel_passed (hc L) le_rfl)), List.forall_mem_cons, iff_and_self]
      intro _ t ht htc
      exact hfound (hcov.mpr ⟨t, ht, htc⟩)

/-- Every level cursor of the compaction has passed only tables that end below `x`. -/
def Compaction.CursorsBelow (c : Compaction K) (x : K) : Prop :=
  LevelDB.CursorsBelow c.v.levels c.tPtrs x

theorem Compaction.CursorsBelow.mono {c : Compaction K} {x y : K} (h : c.CursorsBelow x)
    (hxy : x ≤ y) : c.CursorsBelow y :=
  fun L => (h L).mono hxy

theorem Compaction.CursorsBelow.shouldStopBefore {c : Compaction K} {x : K} (h : c.CursorsBelow x)
    (ikey : InternalKey K) : (c.shouldStopBefore ikey).2.CursorsBelow x := h

theorem Compaction.CursorsBelow.baseLevelForKey {c : Compaction K} {x ukey : K} (h : c.CursorsBelow x)
    (hux : ukey ≤ x) : (c.baseLevelForKey ukey).2.CursorsBelow x :=
  LevelDB.CursorsBelow.baseLevelLoop hux h

/-- Cursors at the start of every level have passed nothing. -/
theorem cursorsBelow_replicate (levels : List (TFiles K)) (n : ℕ) (x : K) :
    CursorsBelow levels (List.replicate n 0) x := by
  intro L t ht
  simp [List.getD_eq_getElem?_getD] at ht

/-- Every level from `level` on is sorted. -/
def DeepSorted (v : Version K) (level : ℕ) : Prop := ∀ L, level ≤ L → LevelSorted (v.level L)

/-- No table on a level from `level` on covers `u`. -/
def NotCoveredBelow (v : Version K) (level : ℕ) (u : K) : Prop :=
  ∀ L, level ≤ L → ∀ t ∈ v.level L, ¬ t.Covers u

theorem Compaction.mem_deepLevels {c : Compaction K} {L : ℕ} :
    L ∈ c.deepLevels ↔ c.sourceLevel + 2 ≤ L ∧ L < c.v.levels.length := by
  simp only [deepLevels, List.mem_range'_1]
  omega

/-- **`baseLevelForKey` answers correctly.** With the levels from `sourceLevel + 2` on sorted and the
cursors below the key, `baseLevelForKey ukey` is `true` exactly when no table on those levels covers
`ukey`. -/
theorem baseLevelForKey_spec {c : Compaction K} (hv : DeepSorted c.v (c.sourceLevel + 2)) {ukey : K}
    (hc : c.CursorsBelow ukey) :
    (c.baseLevelForKey ukey).1 = true ↔ NotCoveredBelow c.v (c.sourceLevel + 2) ukey := by
  rw [show (c.baseLevelForKey ukey).1 = (baseLevelLoop c.v.levels ukey c.deepLevels c.tPtrs).1 from rfl,
    baseLevelLoop_spec (fun L hL => hv L (Compaction.mem_deepLevels.mp hL).1) hc]
  refine ⟨fun h' L hL => ?_, fun h' L hL => h' L (Compaction.mem_deepLevels.mp hL).1⟩
  rcases Nat.lt_or_ge L c.v.levels.length with hlt | hge
  · exact h' L (Compaction.mem_deepLevels.mpr ⟨hL, hlt⟩)
  · intro t ht; rw [Version.level_of_le hge] at ht; simp at ht

/-! ## A run of calls -/

/-- Successive calls of `baseLevelForKey` on the keys `us`, with their answers. -/
def Compaction.baseLevelRun (c : Compaction K) : List K → List Bool × Compaction K
  | [] => ([], c)
  | u :: us =>
    let r := c.baseLevelForKey u
    let q := r.2.baseLevelRun us
    (r.1 :: q.1, q.2)

/-- One cursor per level, none past its level's end. -/
def CursorsIn (levels : List (TFiles K)) (ptrs : List ℕ) : Prop :=
  ptrs.length = levels.length ∧ ∀ L, ptrs.getD L 0 ≤ (levels.getD L []).length

theorem scanLevel_le_length (tables : TFiles K) (ukey : K) {ptr : ℕ} (h : ptr ≤ tables.length) :
    (scanLevel tables ukey ptr).2 ≤ tables.length := by
  have := (List.takeWhile_prefix (fun t : TFile K => decide (t.imax.ukey < ukey))
    (l := tables.drop ptr)).length_le
  rw [scanLevel_snd]
  rw [List.length_drop] at this
  omega

theorem CursorsIn.set {levels : List (TFiles K)} {ptrs : List ℕ} (h : CursorsIn levels ptrs)
    {L p : ℕ} (hp : p ≤ (levels.getD L []).length) : CursorsIn levels (ptrs.set L p) := by
  refine ⟨by rw [List.length_set, h.1], fun L' => ?_⟩
  have hL' := h.2 L'
  simp only [List.getD_eq_getElem?_getD, List.getElem?_set] at hL' ⊢
  split_ifs with hL hlt
  · subst hL; simpa [List.getD_eq_getElem?_getD] using hp
  · exact Nat.zero_le _
  · exact hL'

theorem CursorsIn.baseLevelLoop {levels : List (TFiles K)} {ukey : K} :
    ∀ {ls ptrs : List ℕ}, CursorsIn levels ptrs → CursorsIn levels (baseLevelLoop levels ukey ls ptrs).2
  | [], _, hc => hc
  | L :: _, _, hc => by
    have hc' := hc.set (scanLevel_le_length _ ukey (hc.2 L))
    simp only [LevelDB.baseLevelLoop]
    split_ifs
    · exact hc'
    · exact hc'.baseLevelLoop

theorem cursorsIn_replicate (levels : List (TFiles K)) :
    CursorsIn levels (List.replicate levels.length 0) := by
  refine ⟨List.length_replicate _ _, fun L => ?_⟩
  simp only [List.getD_eq_getElem?_getD, List.getElem?_replicate]
  split_ifs <;> exact Nat.zero_le _

/-- **A run of calls on ascending keys.** From cursors in their levels and below the first key,
over sorted deeper levels, each call on keys in ascending order answers `true` exactly when no
table on those levels covers its key, and after every prefix of the run the cursors are still in
their levels. -/
theorem baseLevelRun_spec {us : List K} :
    ∀ {c : Compaction K}, DeepSorted c.v (c.sourceLevel + 2) → (∀ u ∈ us.head?, c.CursorsBelow u) →
      CursorsIn c.v.levels c.tPtrs → us.Chain' (· ≤ ·) →
      List.Forall₂ (fun b u => b = true ↔ NotCoveredBelow c.v (c.sourceLevel + 2) u)
          (c.baseLevelRun us).1 us ∧
        ∀ k, CursorsIn c.v.levels (c.baseLevelRun (us.take k)).2.tPtrs := by
  induction us with
  | nil => exact fun _ _ hin _ => ⟨.nil, fun _ => by rw [List.take_nil]; exact hin⟩
  | cons u us ih =>
    intro c hv hb hin hch
    rw [List.chain'_cons'] at hch
    have hbu : c.CursorsBelow u := hb u rfl
    have hnext := ih (c := (c.baseLevelForKey u).2) hv
      (fun u' hu' => (hbu.baseLevelForKey le_rfl).mono (hch.1 u' hu'))
      (CursorsIn.baseLevelLoop hin) hch.2
    refine ⟨.cons (baseLevelForKey_spec hv hbu) hnext.1, fun k => ?_⟩
    cases k with
    | zero => exact hin
    | succ k => exact hnext.2 k

end LevelDB

end Workshare
