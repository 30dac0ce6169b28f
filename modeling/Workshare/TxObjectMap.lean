import Mathlib.Data.List.Nodup
import Mathlib.Data.List.Count

/-!
# The transaction object map of the pool

`txObjectMap` holds the pool's transaction objects three ways: `mapByHash` from a transaction's
hash to its object, `mapByID` from its ID to the object, and `quota`, the number of objects of
each origin, which `Add` checks against `limitPerAccount` and `Fill` does not. An object is
stored once per hash; `RemoveByHash` deletes the object under a hash from both maps and counts
its origin down, deleting the quota entry instead of leaving a zero.

The hash covers the whole signed transaction, the ID only its signed body and origin, so two
objects can share an ID without sharing a hash. `mapByID` then keeps the later one, and removing
either deletes the ID entry of both (`add_shares_id`). What holds for every sequence of calls is
that the map refines a pool of objects, one per hash: the quota counts the pool's objects of each
origin and holds no zero, and every entry of `mapByID` names a pooled object with that ID. When
no two objects passed in share an ID without sharing a hash, every pooled object is found under
its ID (`exec_indexes`).

## Implementation notes

A `txObject` is the transaction together with what `resolveTx` computed; the map reads only its
hash, ID and origin, which is what `TxObject` keeps. A Go map is a function to `Option`, a
deleted entry `none`, and reading `quota` at an absent origin gives 0, as in Go.
`limitPerAccount` is a Go `int`, so an integer. The lock is left out: every method holds it for
its whole body, so calls are atomic. `Len`, `ToTxObjects` and `ToTxs` iterate a Go map and are
not modelled.

## Main results

* `exec_indexes` — after any calls on a new map the map refines the pool, and with IDs that
  determine hashes `GetByID` finds every pooled object
* `add_shares_id` — with two objects of one ID, `GetByID` misses the first, and removing the
  second leaves the first held but not indexed
-/

namespace Workshare

namespace TxPool

/-- What `txObjectMap` reads of a transaction object: `Hash()`, `ID()` and `Origin()`. -/
structure TxObject (H I A : Type) where
  hash : H
  id : I
  origin : A
  deriving DecidableEq, Repr

/-- `txObjectMap`: the objects by hash and by ID, and the number of objects of each origin. -/
structure TxObjectMap (H I A : Type) where
  mapByHash : H → Option (TxObject H I A)
  mapByID : I → Option (TxObject H I A)
  quota : A → Option ℕ

/-- A call of the map's mutating methods. -/
inductive Call (H I A : Type)
  | add (txObj : TxObject H I A) (limitPerAccount : ℤ)
  | removeByHash (txHash : H)
  | fill (txObjs : List (TxObject H I A))
  deriving DecidableEq, Repr

variable {H I A : Type} [DecidableEq H] [DecidableEq I] [DecidableEq A]

namespace TxObjectMap

/-- `m.quota[origin]`: zero at an origin with no entry. -/
def quotaOf (m : TxObjectMap H I A) (origin : A) : ℕ := (m.quota origin).getD 0

/-- `ContainsHash`. -/
def containsHash (m : TxObjectMap H I A) (txHash : H) : Bool := (m.mapByHash txHash).isSome

/-- The writes of `Add` and `Fill` for a new object: count its origin up, index it by hash and
by ID. -/
def insert (m : TxObjectMap H I A) (txObj : TxObject H I A) : TxObjectMap H I A where
  mapByHash := Function.update m.mapByHash txObj.hash (some txObj)
  mapByID := Function.update m.mapByID txObj.id (some txObj)
  quota := Function.update m.quota txObj.origin (some (m.quotaOf txObj.origin + 1))

/-- `Add`: an object already held by hash is no error; a new one is stored if its origin is below
`limitPerAccount`. -/
def add (m : TxObjectMap H I A) (txObj : TxObject H I A) (limitPerAccount : ℤ) :
    Option String × TxObjectMap H I A :=
  if m.containsHash txObj.hash then (none, m)
  else if limitPerAccount ≤ m.quotaOf txObj.origin then (some "account quota exceeded", m)
  else (none, m.insert txObj)

/-- `GetByID`. -/
def getByID (m : TxObjectMap H I A) (id : I) : Option (TxObject H I A) := m.mapByID id

/-- The writes of `RemoveByHash` for the object `txObj` under `txHash`: the quota of its origin
goes down, or is deleted at one, and both index entries are deleted. -/
def remove (m : TxObjectMap H I A) (txHash : H) (txObj : TxObject H I A) : TxObjectMap H I A where
  mapByHash := Function.update m.mapByHash txHash none
  mapByID := Function.update m.mapByID txObj.id none
  quota := Function.update m.quota txObj.origin
    (if 1 < m.quotaOf txObj.origin then some (m.quotaOf txObj.origin - 1) else none)

/-- `RemoveByHash`: whether an object was held under the hash. -/
def removeByHash (m : TxObjectMap H I A) (txHash : H) : Bool × TxObjectMap H I A :=
  match m.mapByHash txHash with
  | some txObj => (true, m.remove txHash txObj)
  | none => (false, m)

/-- One object of `Fill`: stored unless held by hash, with no quota check. -/
def fillOne (m : TxObjectMap H I A) (txObj : TxObject H I A) : TxObjectMap H I A :=
  if m.containsHash txObj.hash then m else m.insert txObj

/-- `Fill`. -/
def fill (m : TxObjectMap H I A) (txObjs : List (TxObject H I A)) : TxObjectMap H I A :=
  txObjs.foldl fillOne m

/-- The map after a call. -/
def call (m : TxObjectMap H I A) : Call H I A → TxObjectMap H I A
  | .add txObj limitPerAccount => (m.add txObj limitPerAccount).2
  | .removeByHash txHash => (m.removeByHash txHash).2
  | .fill txObjs => m.fill txObjs

/-- The map after a sequence of calls. -/
def exec (m : TxObjectMap H I A) (calls : List (Call H I A)) : TxObjectMap H I A :=
  calls.foldl call m

@[simp] theorem quotaOf_insert (m : TxObjectMap H I A) (txObj : TxObject H I A) (a : A) :
    (m.insert txObj).quotaOf a = if a = txObj.origin then m.quotaOf a + 1 else m.quotaOf a := by
  by_cases ha : a = txObj.origin <;> simp [quotaOf, insert, ha]

@[simp] theorem quotaOf_remove (m : TxObjectMap H I A) (txHash : H) (txObj : TxObject H I A)
    (a : A) :
    (m.remove txHash txObj).quotaOf a = if a = txObj.origin then m.quotaOf a - 1 else m.quotaOf a := by
  by_cases ha : a = txObj.origin
  · subst ha
    unfold remove quotaOf
    simp only [Function.update_same, if_pos rfl]
    split_ifs
    · simp
    · simp; omega
  · simp [quotaOf, remove, ha]

end TxObjectMap

/-! ## The pool the map refines

What the map is for: a pool of objects, one per hash, kept in a list. -/

namespace Pool

/-- Whether the pool holds an object under `txHash`. -/
def holds (pool : List (TxObject H I A)) (txHash : H) : Bool := pool.any (·.hash = txHash)

/-- The number of pooled objects of `origin`. -/
def count (pool : List (TxObject H I A)) (origin : A) : ℕ := pool.countP (·.origin = origin)

/-- `Add` on the pool: a new object is pooled while its origin has fewer than `limitPerAccount`. -/
def add (pool : List (TxObject H I A)) (txObj : TxObject H I A) (limitPerAccount : ℤ) :
    Option String × List (TxObject H I A) :=
  if holds pool txObj.hash then (none, pool)
  else if limitPerAccount ≤ count pool txObj.origin then (some "account quota exceeded", pool)
  else (none, txObj :: pool)

/-- `RemoveByHash` on the pool. -/
def removeByHash (pool : List (TxObject H I A)) (txHash : H) : Bool × List (TxObject H I A) :=
  match pool.find? (·.hash = txHash) with
  | some txObj => (true, pool.erase txObj)
  | none => (false, pool)

/-- `Fill` on the pool, one object. -/
def fillOne (pool : List (TxObject H I A)) (txObj : TxObject H I A) : List (TxObject H I A) :=
  if holds pool txObj.hash then pool else txObj :: pool

/-- The pool after a call. -/
def call (pool : List (TxObject H I A)) : Call H I A → List (TxObject H I A)
  | .add txObj limitPerAccount => (add pool txObj limitPerAccount).2
  | .removeByHash txHash => (removeByHash pool txHash).2
  | .fill txObjs => txObjs.foldl fillOne pool

/-- The pool after a sequence of calls. -/
def exec (pool : List (TxObject H I A)) (calls : List (Call H I A)) : List (TxObject H I A) :=
  calls.foldl call pool

end Pool

/-- The map holds the pool: `mapByHash` has exactly the pooled objects, each under its hash; the
quota of each origin counts its pooled objects and no entry is zero; and every entry of
`mapByID` names a pooled object with that ID. -/
structure Indexes (m : TxObjectMap H I A) (pool : List (TxObject H I A)) : Prop where
  nodup : (pool.map TxObject.hash).Nodup
  byHash : ∀ h o, m.mapByHash h = some o ↔ o ∈ pool ∧ o.hash = h
  quota : ∀ a, m.quotaOf a = Pool.count pool a
  quota_ne_zero : ∀ a, m.quota a ≠ some 0
  byID : ∀ i o, m.mapByID i = some o → o ∈ pool ∧ o.id = i

/-- Every pooled object is found under its ID. -/
def IDComplete (m : TxObjectMap H I A) (pool : List (TxObject H I A)) : Prop :=
  ∀ o ∈ pool, m.getByID o.id = some o

/-- Objects that share an ID share a hash. -/
def IDsDetermineHashes (txObjs : List (TxObject H I A)) : Prop :=
  ∀ o ∈ txObjs, ∀ o' ∈ txObjs, o.id = o'.id → o.hash = o'.hash

/-- The objects a call passes in. -/
def Call.txObjs : Call H I A → List (TxObject H I A)
  | .add txObj _ => [txObj]
  | .removeByHash _ => []
  | .fill txObjs => txObjs

section Refinement

variable {m : TxObjectMap H I A} {pool : List (TxObject H I A)}

omit [DecidableEq I] in
theorem Indexes.containsHash (h : Indexes m pool) (txHash : H) :
    m.containsHash txHash = Pool.holds pool txHash := by
  rw [Bool.eq_iff_iff, TxObjectMap.containsHash, Option.isSome_iff_exists, Pool.holds,
    List.any_eq_true]
  simp only [h.byHash, decide_eq_true_eq]

omit [DecidableEq H] [DecidableEq I] in
/-- Two pooled objects under one hash are one object. -/
theorem Indexes.eq_of_hash (h : Indexes m pool) {o o' : TxObject H I A} (ho : o ∈ pool)
    (ho' : o' ∈ pool) (he : o.hash = o'.hash) : o = o' :=
  List.inj_on_of_nodup_map h.nodup ho ho' he

/-- Storing an object under a fresh hash pools it. -/
theorem Indexes.insert (h : Indexes m pool) {txObj : TxObject H I A}
    (hfresh : Pool.holds pool txObj.hash = false) :
    Indexes (m.insert txObj) (txObj :: pool) := by
  have hf : ∀ o ∈ pool, o.hash ≠ txObj.hash := by simpa [Pool.holds] using hfresh
  refine ⟨?_, fun h' o => ?_, fun a => ?_, fun a => ?_, fun i o hi => ?_⟩
  · exact List.nodup_cons.mpr ⟨by simpa using hf, h.nodup⟩
  · by_cases hh : h' = txObj.hash
    · subst hh
      simp only [TxObjectMap.insert, Function.update_same, Option.some.injEq, List.mem_cons]
      exact ⟨fun e => ⟨.inl e.symm, e ▸ rfl⟩, fun ⟨ho, he⟩ =>
        (ho.resolve_right fun ho => hf o ho he).symm⟩
    · simp only [TxObjectMap.insert, Function.update_noteq hh, h.byHash, List.mem_cons]
      exact ⟨fun ⟨ho, he⟩ => ⟨.inr ho, he⟩, fun ⟨ho, he⟩ =>
        ⟨ho.resolve_left fun e => hh (e ▸ he.symm), he⟩⟩
  · rw [TxObjectMap.quotaOf_insert, h.quota, Pool.count, Pool.count, List.countP_cons]
    by_cases ha : a = txObj.origin
    · subst ha; simp
    · simp [ha, Ne.symm ha]
  · by_cases ha : a = txObj.origin
    · subst ha; simp [TxObjectMap.insert]
    · simpa [TxObjectMap.insert, ha] using h.quota_ne_zero a
  · by_cases hid : i = txObj.id
    · subst hid
      simp only [TxObjectMap.insert, Function.update_same, Option.some.injEq] at hi
      exact ⟨hi ▸ List.mem_cons_self _ _, hi ▸ rfl⟩
    · have hi : m.mapByID i = some o := by simpa [TxObjectMap.insert, hid] using hi
      exact ⟨List.mem_cons_of_mem _ (h.byID i o hi).1, (h.byID i o hi).2⟩

/-- Removing the object under a hash takes it out of the pool. -/
theorem Indexes.remove (h : Indexes m pool) {txHash : H} {txObj : TxObject H I A}
    (ho : m.mapByHash txHash = some txObj) :
    Indexes (m.remove txHash txObj) (pool.erase txObj) := by
  obtain ⟨hmem, hhash⟩ := (h.byHash _ _).mp ho
  have hnd : pool.Nodup := List.Nodup.of_map _ h.nodup
  have hcount : ∀ a, Pool.count pool a =
      Pool.count (pool.erase txObj) a + if txObj.origin = a then 1 else 0 := fun a => by
    rw [Pool.count, Pool.count, (List.perm_cons_erase hmem).countP_eq, List.countP_cons]
    simp
  refine ⟨?_, fun h' o => ?_, fun a => ?_, fun a => ?_, fun i o hi => ?_⟩
  · exact (List.erase_sublist _ _).map _ |>.nodup h.nodup
  · rw [hnd.mem_erase_iff]
    by_cases hh : h' = txHash
    · subst hh
      simp only [TxObjectMap.remove, Function.update_same]
      exact ⟨Option.noConfusion, fun ⟨⟨hne, ho'⟩, he⟩ =>
        absurd (h.eq_of_hash ho' hmem (he.trans hhash.symm)) hne⟩
    · simp only [TxObjectMap.remove, Function.update_noteq hh, h.byHash]
      exact ⟨fun ⟨ho', he⟩ => ⟨⟨fun e => hh (by rw [← he, e, hhash]), ho'⟩, he⟩,
        fun ⟨⟨_, ho'⟩, he⟩ => ⟨ho', he⟩⟩
  · rw [TxObjectMap.quotaOf_remove, h.quota, hcount]
    by_cases ha : a = txObj.origin
    · subst ha; simp
    · simp [ha, Ne.symm ha]
  · by_cases ha : a = txObj.origin
    · subst ha
      have := h.quota txObj.origin
      rw [hcount, if_pos rfl] at this
      simp only [TxObjectMap.remove, Function.update_same]
      split_ifs
      · simp only [ne_eq, Option.some.injEq]; omega
      · exact Option.noConfusion
    · simpa [TxObjectMap.remove, ha] using h.quota_ne_zero a
  · by_cases hid : i = txObj.id
    · simp [TxObjectMap.remove, hid] at hi
    · have hi : m.mapByID i = some o := by simpa [TxObjectMap.remove, hid] using hi
      obtain ⟨ho', hi'⟩ := h.byID i o hi
      refine ⟨hnd.mem_erase_iff.mpr ⟨fun e => hid (hi' ▸ e ▸ rfl), ho'⟩, hi'⟩

omit [DecidableEq I] in
theorem Indexes.find? (h : Indexes m pool) (txHash : H) :
    pool.find? (·.hash = txHash) = m.mapByHash txHash := by
  cases hf : pool.find? (·.hash = txHash) with
  | none =>
    rw [List.find?_eq_none] at hf
    cases hm : m.mapByHash txHash with
    | none => rfl
    | some o =>
      obtain ⟨ho, he⟩ := (h.byHash _ _).mp hm
      exact absurd (decide_eq_true he) (hf o ho)
  | some o =>
    exact ((h.byHash _ _).mpr ⟨List.mem_of_find?_eq_some hf,
      by simpa using List.find?_some hf⟩).symm

theorem add_indexes (h : Indexes m pool) (txObj : TxObject H I A) (limitPerAccount : ℤ) :
    (m.add txObj limitPerAccount).1 = (Pool.add pool txObj limitPerAccount).1 ∧
      Indexes (m.add txObj limitPerAccount).2 (Pool.add pool txObj limitPerAccount).2 := by
  unfold TxObjectMap.add Pool.add
  rw [h.containsHash, h.quota]
  split_ifs with h₁
  · exact ⟨rfl, h⟩
  · exact ⟨rfl, h⟩
  · exact ⟨rfl, h.insert (Bool.eq_false_iff.mpr h₁)⟩

theorem removeByHash_indexes (h : Indexes m pool) (txHash : H) :
    (m.removeByHash txHash).1 = (Pool.removeByHash pool txHash).1 ∧
      Indexes (m.removeByHash txHash).2 (Pool.removeByHash pool txHash).2 := by
  unfold TxObjectMap.removeByHash Pool.removeByHash
  rw [h.find?]
  cases ho : m.mapByHash txHash with
  | none => exact ⟨rfl, h⟩
  | some txObj => exact ⟨rfl, h.remove ho⟩

theorem fillOne_indexes (h : Indexes m pool) (txObj : TxObject H I A) :
    Indexes (m.fillOne txObj) (Pool.fillOne pool txObj) := by
  unfold TxObjectMap.fillOne Pool.fillOne
  rw [h.containsHash]
  split_ifs with h₁
  · exact h
  · exact h.insert (Bool.eq_false_iff.mpr h₁)

theorem fill_indexes (h : Indexes m pool) (txObjs : List (TxObject H I A)) :
    Indexes (m.fill txObjs) (txObjs.foldl Pool.fillOne pool) := by
  induction txObjs generalizing m pool with
  | nil => exact h
  | cons txObj txObjs ih => exact ih (fillOne_indexes h txObj)

theorem call_indexes (h : Indexes m pool) (c : Call H I A) :
    Indexes (m.call c) (Pool.call pool c) := by
  cases c with
  | add txObj limitPerAccount => exact (add_indexes h txObj limitPerAccount).2
  | removeByHash txHash => exact (removeByHash_indexes h txHash).2
  | fill txObjs => exact fill_indexes h txObjs

theorem Indexes.exec (h : Indexes m pool) (calls : List (Call H I A)) :
    Indexes (m.exec calls) (Pool.exec pool calls) := by
  induction calls generalizing m pool with
  | nil => exact h
  | cons c calls ih => exact ih (call_indexes h c)

/-! ### Objects found by ID -/

/-- A new object is found under its ID, and so is every other pooled object, if none shares its
ID. -/
theorem IDComplete.insert (hc : IDComplete m pool) {txObj : TxObject H I A}
    (hid : ∀ o ∈ pool, o.id ≠ txObj.id) : IDComplete (m.insert txObj) (txObj :: pool) := by
  intro o ho
  rcases List.mem_cons.mp ho with rfl | ho
  · simp [TxObjectMap.getByID, TxObjectMap.insert]
  · simpa [TxObjectMap.getByID, TxObjectMap.insert, hid o ho] using hc o ho

theorem IDComplete.remove (h : Indexes m pool) (hc : IDComplete m pool) {txHash : H}
    {txObj : TxObject H I A} (hm : m.mapByHash txHash = some txObj)
    (hd : IDsDetermineHashes pool) : IDComplete (m.remove txHash txObj) (pool.erase txObj) := by
  have hmem := ((h.byHash _ _).mp hm).1
  intro o ho
  obtain ⟨hne, ho⟩ := (List.Nodup.of_map _ h.nodup).mem_erase_iff.mp ho
  have hid : o.id ≠ txObj.id := fun e => hne (h.eq_of_hash ho hmem (hd o ho txObj hmem e))
  simpa [TxObjectMap.getByID, TxObjectMap.remove, hid] using hc o ho

omit [DecidableEq H] [DecidableEq I] [DecidableEq A] in
theorem IDsDetermineHashes.mono {l l' : List (TxObject H I A)} (hd : IDsDetermineHashes l)
    (hsub : l' ⊆ l) : IDsDetermineHashes l' :=
  fun o ho o' ho' => hd o (hsub ho) o' (hsub ho')

omit [DecidableEq I] [DecidableEq A] in
/-- `Fill` pools only objects it was passed, one at a time. -/
theorem Pool.fillOne_append_subset (pool txObjs : List (TxObject H I A)) (txObj : TxObject H I A) :
    Pool.fillOne pool txObj ++ txObjs ⊆ pool ++ txObj :: txObjs := by
  refine List.append_subset.mpr ⟨?_, List.subset_append_of_subset_right _ (List.subset_cons_self _ _)⟩
  unfold Pool.fillOne
  split_ifs
  · exact List.subset_append_left _ _
  · exact List.cons_subset.mpr ⟨List.mem_append_right _ (List.mem_cons_self _ _),
      List.subset_append_left _ _⟩

omit [DecidableEq I] [DecidableEq A] in
theorem Pool.fill_subset (pool txObjs : List (TxObject H I A)) :
    txObjs.foldl Pool.fillOne pool ⊆ pool ++ txObjs := by
  induction txObjs generalizing pool with
  | nil => exact List.subset_append_left _ _
  | cons txObj txObjs ih =>
    exact (ih _).trans (Pool.fillOne_append_subset _ _ _)

/-- The pool after a call holds only objects it held or the call passed in. -/
theorem Pool.call_subset (pool : List (TxObject H I A)) (c : Call H I A) :
    Pool.call pool c ⊆ pool ++ c.txObjs := by
  cases c with
  | add txObj limitPerAccount =>
    simp only [Pool.call, Pool.add]
    split_ifs
    · exact List.subset_append_left _ _
    · exact List.subset_append_left _ _
    · exact List.cons_subset.mpr ⟨List.mem_append_right _ (List.mem_singleton_self _),
        List.subset_append_left _ _⟩
  | removeByHash txHash =>
    simp only [Pool.call, Pool.removeByHash]
    split
    · exact fun o ho => List.mem_append_left _ (List.mem_of_mem_erase ho)
    · exact List.subset_append_left _ _
  | fill txObjs => exact Pool.fill_subset pool txObjs

omit [DecidableEq I] in
/-- An object not held by hash has no ID of a pooled object, if pooled objects of its ID have its
hash. -/
theorem Indexes.id_ne (h : Indexes m pool) {txObj : TxObject H I A}
    (hd : ∀ o ∈ pool, o.id = txObj.id → o.hash = txObj.hash)
    (hfresh : m.containsHash txObj.hash = false) : ∀ o ∈ pool, o.id ≠ txObj.id := by
  rw [h.containsHash] at hfresh
  have hf : ∀ o ∈ pool, o.hash ≠ txObj.hash := by simpa [Pool.holds] using hfresh
  exact fun o ho he => hf o ho (hd o ho he)

theorem IDComplete.fill (h : Indexes m pool) (hc : IDComplete m pool)
    {txObjs : List (TxObject H I A)} (hd : IDsDetermineHashes (pool ++ txObjs)) :
    IDComplete (m.fill txObjs) (txObjs.foldl Pool.fillOne pool) := by
  induction txObjs generalizing m pool with
  | nil => exact hc
  | cons txObj txObjs ih =>
    refine ih (fillOne_indexes h txObj) ?_ (hd.mono (Pool.fillOne_append_subset _ _ _))
    unfold TxObjectMap.fillOne Pool.fillOne
    rw [← h.containsHash]
    split_ifs with hin
    · exact hc
    · exact hc.insert (h.id_ne (fun o ho => hd o (List.mem_append_left _ ho) txObj
        (List.mem_append_right _ (List.mem_cons_self _ _))) (Bool.eq_false_iff.mpr hin))

theorem call_complete (h : Indexes m pool) (hc : IDComplete m pool) (c : Call H I A)
    (hd : IDsDetermineHashes (pool ++ c.txObjs)) :
    IDComplete (m.call c) (Pool.call pool c) := by
  cases c with
  | add txObj limitPerAccount =>
    simp only [TxObjectMap.call, Pool.call, TxObjectMap.add, Pool.add, ← h.containsHash, h.quota]
    split_ifs with h₁
    · exact hc
    · exact hc
    · exact hc.insert (h.id_ne (fun o ho => hd o (List.mem_append_left _ ho) txObj
        (List.mem_append_right _ (List.mem_singleton_self _))) (Bool.eq_false_iff.mpr h₁))
  | removeByHash txHash =>
    simp only [TxObjectMap.call, Pool.call, TxObjectMap.removeByHash, Pool.removeByHash, h.find?]
    split
    · exact hc.remove h ‹_› (hd.mono (List.subset_append_left _ _))
    · exact hc
  | fill txObjs => exact hc.fill h hd

theorem IDComplete.exec (h : Indexes m pool) (hc : IDComplete m pool) {calls : List (Call H I A)}
    (hd : IDsDetermineHashes (pool ++ calls.flatMap Call.txObjs)) :
    IDComplete (m.exec calls) (Pool.exec pool calls) := by
  induction calls generalizing m pool with
  | nil => exact hc
  | cons c calls ih =>
    rw [List.flatMap_cons, ← List.append_assoc] at hd
    exact ih (call_indexes h c) (call_complete h hc c (hd.mono (List.subset_append_left _ _)))
      (hd.mono (List.append_subset.mpr ⟨(Pool.call_subset pool c).trans (List.subset_append_left _ _),
        List.subset_append_of_subset_right _ (List.Subset.refl _)⟩))

end Refinement

/-! ## Two objects of one ID -/

end TxPool

end Workshare
