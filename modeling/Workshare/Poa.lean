import Workshare.Auworkshareity

/-!
# The candidates cache of the PoA consensus

`poa.Candidates` keeps the candidate list of the `Auworkshareity` contract in memory, to be
reused from block to block without reading the contract again. `NewCandidates` indexes the list
by node master and by endorsor. `Pick` chooses the proposers, the first `MaxBlockProposers`
candidates whose endorsor's balance reaches the endorsement, and caches their indexes until
`InvalidateCache`. `Update` sets the active flag of a node master's candidate.

`Copy` makes a second `Candidates` that shares the list with the first. Both are marked
`referenced`, and `Update` on a referenced `Candidates` first copies the list ("something like
COW"), so that an update through one is never seen through the other. `NewCandidates` keeps the
slice it is given, not a copy, and does not mark it `referenced`: two `Candidates` made from one
slice share it, and an update through one is seen through the other.

## Implementation notes

A `Candidates` is a struct behind a pointer, and its `list` a slice of pointers into an array.
`Store` holds the arrays, the slices the caller holds and the structs, each numbered by
allocation; a slice and a struct name the array they point into. The caller makes a slice, as
`AllCandidates` returns one, with the call `slice`. The candidates the pointers point to are never
written (`Update` copies one before it sets the flag), so an array holds candidate values; the maps
`masters` and `endorsors` are written only by `NewCandidates`, so they are values too. A method
called on a number that no `NewCandidates` or `Copy` returned dereferences no struct, and is
`none`, as is `NewCandidates` on a number no slice has. The state reads of `Pick` are the `balance`
function and the `endorsement` it is given, and do not fail. `MaxBlockProposers` is the parameter
`maxBlockProposers`.

`CandidatesVal` is what a `Candidates` is meant to be, a value with a list of its own, and
`ValStore` numbers such values; `Store.Refines` relates the two levels while no slice has been
passed to `NewCandidates` twice.

## Main results

* `Store.Cow.exec` — every call that passes no slice passed before keeps the sharing discipline and
  answers as the values do
* `cow_refines` — every run of calls that passes no slice twice answers as the same calls on values
* `newCandidates_shares_slice` — two structs made from one slice see each other's `Update`s
* `pick_cache_fresh` — with unchanged balances and endorsement, `Pick` answers what a fresh pick
  over the current list would, whatever `Copy`s and `Update`s came between, shared slices included
* `pick_authority` — `Pick` on a new `Candidates` of the contract's list answers the proposers of
  the contract's own `Candidates(endorsement, MaxBlockProposers)`
-/

namespace Workshare

namespace Poa

open Auworkshareity (Candidate Word)

variable {A B : Type}

/-- `Proposer{Address, Active}`. -/
structure Proposer (A : Type) where
  address : A
  active : Bool
  deriving DecidableEq, Repr

/-- The proposer of a candidate. -/
def Proposer.ofCandidate (c : Candidate A B) : Proposer A := ⟨c.nodeMaster, c.active⟩

/-! ## The list operations -/

/-- The loop of `NewCandidates` from index `i`: `masters[c.NodeMaster] = i` and
`endorsors[c.Endorsor] = true`. -/
def indexLoop [DecidableEq A] : ℕ → List (Candidate A B) → (A → Option ℕ) × (A → Bool) →
    (A → Option ℕ) × (A → Bool)
  | _, [], m => m
  | i, c :: cs, (masters, endorsors) =>
    indexLoop (i + 1) cs
      (Function.update masters c.nodeMaster (some i), Function.update endorsors c.endorsor true)

/-- The loop of `Pick` from index `i`: while fewer than `maxBlockProposers` are satisfied, keep
`i` when the endorsor's balance reaches the endorsement. -/
def pickLoop (balance : A → ℕ) (endorsement maxBlockProposers : ℕ) :
    ℕ → List (Candidate A B) → List ℕ → List ℕ
  | _, [], satisfied => satisfied
  | i, c :: cs, satisfied =>
    if satisfied.length < maxBlockProposers then
      pickLoop balance endorsement maxBlockProposers (i + 1) cs
        (if endorsement ≤ balance c.endorsor then satisfied ++ [i] else satisfied)
    else satisfied

/-- The proposers of the candidates at the indexes `satisfied`. -/
def proposersOf (list : List (Candidate A B)) (satisfied : List ℕ) : List (Proposer A) :=
  satisfied.filterMap fun i => list[i]?.map Proposer.ofCandidate

/-- `copy := *c.list[i]; copy.Active = active; c.list[i] = &copy`. -/
def setActive (list : List (Candidate A B)) (i : ℕ) (active : Bool) : List (Candidate A B) :=
  list.modify (fun c => { c with active }) i

/-! ## What `Pick` picks -/

section Pick

variable (balance : A → ℕ) (endorsement maxBlockProposers : ℕ)

/-- `Pick` collects indexes of the list only. -/
theorem pickLoop_lt {i : ℕ} {L : List (Candidate A B)} {s : List ℕ}
    (hs : ∀ j ∈ s, j < i + L.length) :
    ∀ j ∈ pickLoop balance endorsement maxBlockProposers i L s, j < i + L.length := by
  induction L generalizing i s with
  | nil => exact hs
  | cons c cs ih =>
    intro j hj
    rw [pickLoop] at hj
    split at hj
    · refine (ih (fun k hk => ?_) j hj).trans_le (by simp; omega)
      split at hk
      · rcases List.mem_append.mp hk with hk | hk
        · have := hs k hk; simp at this; omega
        · simp at hk; omega
      · have := hs k hk; simp at this; omega
    · exact hs j hj

/-- `Pick` reads the endorsors of the list only, not the active flags. -/
theorem pickLoop_congr {L L' : List (Candidate A B)}
    (h : L.map Candidate.endorsor = L'.map Candidate.endorsor) (i : ℕ) (s : List ℕ) :
    pickLoop balance endorsement maxBlockProposers i L s =
      pickLoop balance endorsement maxBlockProposers i L' s := by
  induction L generalizing L' i s with
  | nil => cases L' with
    | nil => rfl
    | cons => simp at h
  | cons c cs ih =>
    cases L' with
    | nil => simp at h
    | cons c' cs' =>
      simp only [List.map_cons, List.cons.injEq] at h
      simp only [pickLoop, h.1, ih h.2]

@[simp] theorem map_endorsor_setActive (L : List (Candidate A B)) (i : ℕ) (active : Bool) :
    (setActive L i active).map Candidate.endorsor = L.map Candidate.endorsor := by
  induction L generalizing i with
  | nil => simp [setActive]
  | cons c cs ih => cases i <;> simp_all [setActive]

@[simp] theorem length_setActive (L : List (Candidate A B)) (i : ℕ) (active : Bool) :
    (setActive L i active).length = L.length :=
  List.length_modify _ _ _

theorem proposersOf_append (L : List (Candidate A B)) (s t : List ℕ) :
    proposersOf L (s ++ t) = proposersOf L s ++ proposersOf L t :=
  List.filterMap_append _ _ _

theorem proposersOf_append_left {P Q : List (Candidate A B)} {s : List ℕ}
    (h : ∀ j ∈ s, j < P.length) : proposersOf (P ++ Q) s = proposersOf P s :=
  List.filterMap_congr fun j hj => by rw [List.getElem?_append_left (h j hj)]

theorem length_proposersOf {P : List (Candidate A B)} {s : List ℕ} (h : ∀ j ∈ s, j < P.length) :
    (proposersOf P s).length = s.length := by
  induction s with
  | nil => rfl
  | cons j js ih =>
    rw [List.forall_mem_cons] at h
    simp [proposersOf, List.getElem?_eq_getElem h.1] at ih ⊢
    exact ih h.2

/-- Over the candidates `P ++ Q`, from index `P.length` on, `Pick` adds to the proposers it holds
those of `Q` with the endorsement, up to `maxBlockProposers`. -/
theorem proposersOf_pickLoop {P Q : List (Candidate A B)} {s : List ℕ}
    (hs : ∀ j ∈ s, j < P.length) (hm : s.length ≤ maxBlockProposers) :
    proposersOf (P ++ Q) (pickLoop balance endorsement maxBlockProposers P.length Q s) =
      (proposersOf P s ++ (Q.filter fun c => decide (endorsement ≤ balance c.endorsor)).map
        Proposer.ofCandidate).take maxBlockProposers := by
  induction Q generalizing P s with
  | nil =>
    rw [pickLoop, List.append_nil, List.filter_nil, List.map_nil, List.append_nil,
      List.take_of_length_le (by rw [length_proposersOf hs]; exact hm)]
  | cons c cs ih =>
    rw [pickLoop]
    by_cases hlt : s.length < maxBlockProposers
    · have hs' : ∀ j ∈ s, j < (P ++ [c]).length := fun j hj => by simp; have := hs j hj; omega
      rw [if_pos hlt, show P.length + 1 = (P ++ [c]).length by simp,
        show P ++ c :: cs = (P ++ [c]) ++ cs by simp]
      by_cases hb : endorsement ≤ balance c.endorsor
      · have hsnoc : proposersOf (P ++ [c]) (s ++ [P.length]) =
            proposersOf P s ++ [Proposer.ofCandidate c] := by
          rw [proposersOf_append, proposersOf_append_left hs]
          simp [proposersOf, List.getElem?_concat_length]
        rw [if_pos hb, ih (fun j hj => ?_) (by simp; omega), hsnoc]
        · simp [hb]
        · rcases List.mem_append.mp hj with hj | hj
          · exact hs' j hj
          · simp at hj; simp [hj]
      · rw [if_neg hb, ih hs' hm, proposersOf_append_left hs]
        simp [hb]
    · rw [if_neg hlt, proposersOf_append_left hs,
        List.take_left' (by rw [length_proposersOf hs]; omega)]

/-- **A fresh pick**: the proposers of the first `maxBlockProposers` candidates, in list order,
whose endorsor's balance reaches the endorsement. -/
theorem proposersOf_pickLoop_zero (L : List (Candidate A B)) :
    proposersOf L (pickLoop balance endorsement maxBlockProposers 0 L []) =
      ((L.filter fun c => decide (endorsement ≤ balance c.endorsor)).take maxBlockProposers).map
        Proposer.ofCandidate := by
  rw [List.map_take]
  exact proposersOf_pickLoop balance endorsement maxBlockProposers (P := []) nofun (Nat.zero_le _)

end Pick

/-! ## The structs -/

/-- A `Candidates` struct; `list` names the array its slice points to. -/
structure Candidates (A : Type) where
  list : ℕ
  masters : A → Option ℕ
  endorsors : A → Bool
  satisfied : List ℕ
  referenced : Bool

/-- What a `Candidates` is meant to be: a list of its own, its indexes and its cached pick. -/
structure CandidatesVal (A B : Type) where
  list : List (Candidate A B)
  masters : A → Option ℕ
  endorsors : A → Bool
  satisfied : List ℕ

/-- The arrays, the slices the caller holds and the `Candidates` structs allocated so far; slice `s`
points into the array `slices s`. -/
structure Store (A B : Type) where
  arrays : ℕ → List (Candidate A B)
  slices : ℕ → ℕ
  structs : ℕ → Candidates A
  nextArray : ℕ
  nextSlice : ℕ
  nextStruct : ℕ

/-- A call: the caller making a slice of candidates, as `AllCandidates` returns one, or a method
call; `s` numbers a slice of the caller, `c` the struct a method is called on. -/
inductive Call (A B : Type)
  | slice (list : List (Candidate A B))
  | newCandidates (s : ℕ)
  | copy (c : ℕ)
  | pick (c : ℕ) (balance : A → ℕ) (endorsement : ℕ)
  | update (c : ℕ) (addr : A) (active : Bool)
  | isEndorsor (c : ℕ) (addr : A)
  | invalidateCache (c : ℕ)

/-- What a call returns: the number of a new slice or struct, proposers, a flag, or nothing. -/
inductive Answer (A : Type)
  | slice (s : ℕ)
  | candidates (c : ℕ)
  | proposers (ps : List (Proposer A))
  | bool (b : Bool)
  | done
  deriving DecidableEq, Repr

/-- The slice a call passes to `NewCandidates`. -/
def Call.passed : Call A B → Option ℕ
  | .newCandidates s => some s
  | _ => none

namespace Store

/-- Nothing allocated. -/
def init : Store A B :=
  ⟨fun _ => [], fun _ => 0, fun _ => ⟨0, fun _ => none, fun _ => false, [], false⟩, 0, 0, 0⟩

/-- The value struct `c` holds, what its methods read: the list in its array, and its own fields. -/
def view (st : Store A B) (c : ℕ) : CandidatesVal A B :=
  ⟨st.arrays (st.structs c).list, (st.structs c).masters, (st.structs c).endorsors,
    (st.structs c).satisfied⟩

/-- The caller makes a slice holding `list`, on a new array. -/
def slice (st : Store A B) (list : List (Candidate A B)) : Store A B :=
  { st with
    arrays := Function.update st.arrays st.nextArray list
    slices := Function.update st.slices st.nextSlice st.nextArray
    nextArray := st.nextArray + 1
    nextSlice := st.nextSlice + 1 }

/-- `Update`'s copy on write: a referenced struct gets a copy of its array ("shallow copy the
list") and is no longer referenced. -/
def detach (st : Store A B) (c : ℕ) : Store A B :=
  let o := st.structs c
  if o.referenced then
    { st with
      arrays := Function.update st.arrays st.nextArray (st.arrays o.list)
      structs := Function.update st.structs c { o with list := st.nextArray, referenced := false }
      nextArray := st.nextArray + 1 }
  else st

/-- `NewCandidates(list)` on the caller's slice `s`: a new struct that keeps the slice itself, not a
copy, with the indexes of the candidates in it, and not referenced. -/
def newCandidates [DecidableEq A] (st : Store A B) (s : ℕ) : Store A B :=
  let index := indexLoop 0 (st.arrays (st.slices s)) (fun _ => none, fun _ => false)
  { st with
    structs := Function.update st.structs st.nextStruct ⟨st.slices s, index.1, index.2, [], false⟩
    nextStruct := st.nextStruct + 1 }

/-- `Copy`: `c.referenced = true`, and a new struct that copies `c`. -/
def copy (st : Store A B) (c : ℕ) : Store A B :=
  let o := { st.structs c with referenced := true }
  { st with
    structs := Function.update (Function.update st.structs c o) st.nextStruct o
    nextStruct := st.nextStruct + 1 }

/-- `c.satisfied = satisfied`. -/
def setSatisfied (st : Store A B) (c : ℕ) (satisfied : List ℕ) : Store A B :=
  { st with structs := Function.update st.structs c { st.structs c with satisfied } }

/-- Set the active flag of the candidate at index `i` of the array of struct `c`. -/
def setCandidate (st : Store A B) (c i : ℕ) (active : Bool) : Store A B :=
  let a := (st.structs c).list
  { st with arrays := Function.update st.arrays a (setActive (st.arrays a) i active) }

variable (maxBlockProposers : ℕ)

/-- A call, and its answer; `none` on a number no slice or struct has. -/
def exec [DecidableEq A] (st : Store A B) : Call A B → Option (Store A B × Answer A)
  | .slice list => some (st.slice list, .slice st.nextSlice)
  | .newCandidates s =>
    if s < st.nextSlice then some (st.newCandidates s, .candidates st.nextStruct) else none
  | .copy c => if c < st.nextStruct then some (st.copy c, .candidates st.nextStruct) else none
  | .pick c balance endorsement =>
    if c < st.nextStruct then
      let v := st.view c
      if v.satisfied.length = 0 then
        -- re-pick
        let satisfied := pickLoop balance endorsement maxBlockProposers 0 v.list []
        some (st.setSatisfied c satisfied, .proposers (proposersOf v.list satisfied))
      else some (st, .proposers (proposersOf v.list v.satisfied))
    else none
  | .update c addr active =>
    if c < st.nextStruct then
      match (st.view c).masters addr with
      | some i => some (((st.detach c).setCandidate c i active), .bool true)
      | none => some (st, .bool false)
    else none
  | .isEndorsor c addr =>
    if c < st.nextStruct then some (st, .bool ((st.view c).endorsors addr)) else none
  | .invalidateCache c =>
    if c < st.nextStruct then some (st.setSatisfied c [], .done) else none

/-- A run of calls, with their answers; `none` if one of them is on a number nothing has. -/
def run [DecidableEq A] (st : Store A B) : List (Call A B) → Option (Store A B × List (Answer A))
  | [] => some (st, [])
  | call :: calls =>
    (st.exec maxBlockProposers call).bind fun p =>
      (p.1.run calls).map fun q => (q.1, p.2 :: q.2)

end Store

/-! ## The values -/

/-- The caller's slices and the values, numbered by allocation. -/
structure ValStore (A B : Type) where
  slices : ℕ → List (Candidate A B)
  vals : ℕ → CandidatesVal A B
  nextSlice : ℕ
  next : ℕ

namespace ValStore

/-- Nothing allocated. -/
def init : ValStore A B := ⟨fun _ => [], fun _ => ⟨[], fun _ => none, fun _ => false, []⟩, 0, 0⟩

variable (maxBlockProposers : ℕ)

/-- The calls on values: `NewCandidates` and `Copy` make a value with a list of its own, and
`Update` changes the value it is called on only. -/
def exec [DecidableEq A] (vs : ValStore A B) : Call A B → Option (ValStore A B × Answer A)
  | .slice list =>
    some ({ vs with slices := Function.update vs.slices vs.nextSlice list, nextSlice := vs.nextSlice + 1 },
      .slice vs.nextSlice)
  | .newCandidates s =>
    if s < vs.nextSlice then
      let index := indexLoop 0 (vs.slices s) (fun _ => none, fun _ => false)
      some ({ vs with
          vals := Function.update vs.vals vs.next ⟨vs.slices s, index.1, index.2, []⟩
          next := vs.next + 1 }, .candidates vs.next)
    else none
  | .copy c =>
    if c < vs.next then
      some ({ vs with vals := Function.update vs.vals vs.next (vs.vals c), next := vs.next + 1 },
        .candidates vs.next)
    else none
  | .pick c balance endorsement =>
    if c < vs.next then
      let v := vs.vals c
      if v.satisfied.length = 0 then
        let satisfied := pickLoop balance endorsement maxBlockProposers 0 v.list []
        some ({ vs with vals := Function.update vs.vals c { v with satisfied } },
          .proposers (proposersOf v.list satisfied))
      else some (vs, .proposers (proposersOf v.list v.satisfied))
    else none
  | .update c addr active =>
    if c < vs.next then
      let v := vs.vals c
      match v.masters addr with
      | some i =>
        some ({ vs with vals := Function.update vs.vals c { v with list := setActive v.list i active } },
          .bool true)
      | none => some (vs, .bool false)
    else none
  | .isEndorsor c addr =>
    if c < vs.next then some (vs, .bool ((vs.vals c).endorsors addr)) else none
  | .invalidateCache c =>
    if c < vs.next then
      some ({ vs with vals := Function.update vs.vals c { vs.vals c with satisfied := [] } }, .done)
    else none

/-- A run of calls on values, with their answers. -/
def run [DecidableEq A] (vs : ValStore A B) : List (Call A B) → Option (ValStore A B × List (Answer A))
  | [] => some (vs, [])
  | call :: calls =>
    (vs.exec maxBlockProposers call).bind fun p =>
      (p.1.run calls).map fun q => (q.1, p.2 :: q.2)

end ValStore

/-! ## Sharing arrays -/

section Rel

variable {α β : Type} {r q : α → β → Prop}

theorem rel_some_left {a : α} {o : Option β} (h : Option.Rel r (some a) o) : ∃ b, o = some b ∧ r a b := by
  cases h with
  | some hab => exact ⟨_, rfl, hab⟩

end Rel

namespace Store

/-- Every struct's array and every slice's array is allocated. -/
structure Allocated (st : Store A B) : Prop where
  /-- Each struct is on an allocated array. -/
  structs : ∀ c < st.nextStruct, (st.structs c).list < st.nextArray
  /-- Each slice is on an allocated array. -/
  slices : ∀ s < st.nextSlice, st.slices s < st.nextArray

/-- The sharing discipline, given the slices `U` passed to `NewCandidates` so far: each slice is on
an array of its own, a slice not passed is on no struct's array, and a struct that shares its array
with another is referenced. -/
structure Cow (U : List ℕ) (st : Store A B) : Prop where
  alloc : st.Allocated
  /-- Two slices are on two arrays. -/
  apart : ∀ s < st.nextSlice, ∀ s' < st.nextSlice, st.slices s = st.slices s' → s = s'
  /-- No struct is on a slice not passed yet. -/
  unused : ∀ s < st.nextSlice, s ∉ U → ∀ c < st.nextStruct, (st.structs c).list ≠ st.slices s
  /-- A struct sharing its array with another is referenced. -/
  shared : ∀ c < st.nextStruct, ∀ d < st.nextStruct, c ≠ d →
    (st.structs c).list = (st.structs d).list → (st.structs c).referenced

/-- The structs hold the values, number by number, and a slice not passed yet holds its list. -/
structure Refines (U : List ℕ) (st : Store A B) (vs : ValStore A B) : Prop where
  next : st.nextStruct = vs.next
  nextSlice : st.nextSlice = vs.nextSlice
  /-- Each struct holds its value. -/
  view : ∀ c < st.nextStruct, st.view c = vs.vals c
  /-- Each slice not passed yet holds its list. -/
  slices : ∀ s < st.nextSlice, s ∉ U → st.arrays (st.slices s) = vs.slices s

theorem allocated_init : (init : Store A B).Allocated := ⟨nofun, nofun⟩

section Frame

variable {st st' : Store A B} {U : List ℕ}

/-- A struct whose fields and array are unchanged holds the same value. -/
theorem view_congr {d : ℕ} (h₁ : st'.structs d = st.structs d)
    (h₂ : st'.arrays (st.structs d).list = st.arrays (st.structs d).list) :
    st'.view d = st.view d := by
  simp [view, h₁, h₂]

theorem Allocated.of_lists (h : st.Allocated) (hn : st'.nextStruct = st.nextStruct)
    (ha : st'.nextArray = st.nextArray) (hs : st'.nextSlice = st.nextSlice)
    (hsl : st'.slices = st.slices) (hl : ∀ d, (st'.structs d).list = (st.structs d).list) :
    st'.Allocated :=
  ⟨fun d hd => by rw [hl, ha]; exact h.structs d (hn ▸ hd),
    fun s hs' => by rw [hsl, ha]; exact h.slices s (hs ▸ hs')⟩

/-- Changing neither the allocation, nor the slices, nor a struct's array or `referenced`, keeps
the discipline. -/
theorem Cow.of_lists (h : st.Cow U) (hn : st'.nextStruct = st.nextStruct)
    (ha : st'.nextArray = st.nextArray) (hs : st'.nextSlice = st.nextSlice)
    (hsl : st'.slices = st.slices) (hl : ∀ d, (st'.structs d).list = (st.structs d).list)
    (hr : ∀ d, (st'.structs d).referenced = (st.structs d).referenced) : st'.Cow U := by
  refine ⟨h.alloc.of_lists hn ha hs hsl hl, fun s h₁ s' h₂ => ?_, fun s h₁ hU d hd => ?_,
    fun d hd e he hde h' => ?_⟩
  · rw [hsl]; exact h.apart s (hs ▸ h₁) s' (hs ▸ h₂)
  · rw [hl, hsl]; exact h.unused s (hs ▸ h₁) hU d (hn ▸ hd)
  · rw [hr]; exact h.shared d (hn ▸ hd) e (hn ▸ he) hde (by rwa [hl, hl] at h')

variable {c : ℕ}

theorem view_setSatisfied (satisfied : List ℕ) (d : ℕ) :
    (st.setSatisfied c satisfied).view d =
      if d = c then { st.view c with satisfied } else st.view d := by
  by_cases h : d = c
  · subst h; simp [setSatisfied, view, Function.update_apply]
  · simp [setSatisfied, view, Function.update_apply, h]

theorem Cow.setSatisfied (h : st.Cow U) (satisfied : List ℕ) : (st.setSatisfied c satisfied).Cow U := by
  refine h.of_lists rfl rfl rfl rfl (fun d => ?_) (fun d => ?_) <;>
    by_cases h : d = c <;> simp [Store.setSatisfied, Function.update_apply, h]

theorem Allocated.setSatisfied (h : st.Allocated) (satisfied : List ℕ) :
    (st.setSatisfied c satisfied).Allocated :=
  h.of_lists rfl rfl rfl rfl fun d => by
    by_cases h : d = c <;> simp [Store.setSatisfied, Function.update_apply, h]

@[simp] theorem setCandidate_nextStruct (i : ℕ) (active : Bool) :
    (st.setCandidate c i active).nextStruct = st.nextStruct := rfl

@[simp] theorem setCandidate_nextSlice (i : ℕ) (active : Bool) :
    (st.setCandidate c i active).nextSlice = st.nextSlice := rfl

@[simp] theorem setCandidate_slices (i : ℕ) (active : Bool) :
    (st.setCandidate c i active).slices = st.slices := rfl

theorem Cow.setCandidate (h : st.Cow U) (i : ℕ) (active : Bool) : (st.setCandidate c i active).Cow U :=
  h.of_lists rfl rfl rfl rfl (fun _ => rfl) (fun _ => rfl)

theorem view_setCandidate (i : ℕ) (active : Bool) (d : ℕ) :
    (st.setCandidate c i active).view d =
      if (st.structs d).list = (st.structs c).list then
        { st.view d with list := setActive (st.view d).list i active }
      else st.view d := by
  by_cases h : (st.structs d).list = (st.structs c).list
  · simp [setCandidate, view, Function.update_apply, h]
  · simp [setCandidate, view, Function.update_apply, h]

end Frame

section Slice

variable {st : Store A B} {U : List ℕ} (list : List (Candidate A B))

@[simp] theorem slice_nextStruct : (st.slice list).nextStruct = st.nextStruct := rfl

@[simp] theorem slice_nextSlice : (st.slice list).nextSlice = st.nextSlice + 1 := rfl

theorem slice_slices (s : ℕ) :
    (st.slice list).slices s = if s = st.nextSlice then st.nextArray else st.slices s := by
  simp [Store.slice, Function.update_apply]

theorem Allocated.slice (h : st.Allocated) : (st.slice list).Allocated := by
  refine ⟨fun c hc => Nat.lt_succ_of_lt (h.structs c hc), fun s hs => ?_⟩
  rw [slice_slices]
  split
  · exact Nat.lt_succ_self _
  · exact Nat.lt_succ_of_lt (h.slices s (by simp at hs; omega))

/-- A new slice is on a new array, which no struct and no other slice is on. -/
theorem Cow.slice (h : st.Cow U) : (st.slice list).Cow U := by
  have hold : ∀ s < st.nextSlice + 1, s ≠ st.nextSlice → st.slices s < st.nextArray :=
    fun s hs hne => h.alloc.slices s (by omega)
  refine ⟨h.alloc.slice list, fun s h₁ s' h₂ hss => ?_, fun s h₁ hU d hd => ?_, h.shared⟩
  · rw [slice_slices, slice_slices] at hss
    simp only [slice_nextSlice] at h₁ h₂
    split_ifs at hss with hs hs'
    · rw [hs, hs']
    · exact absurd hss (hold s' h₂ hs').ne'
    · exact absurd hss (hold s h₁ hs).ne
    · exact h.apart s (by omega) s' (by omega) hss
  · rw [slice_slices]
    split
    · exact (h.alloc.structs d hd).ne
    · exact h.unused s (by simp at h₁; omega) hU d hd

theorem Allocated.view_slice (h : st.Allocated) {d : ℕ} (hd : d < st.nextStruct) :
    (st.slice list).view d = st.view d :=
  view_congr rfl (by simp [Store.slice, Function.update_apply, (h.structs d hd).ne])

theorem Refines.slice {vs : ValStore A B} (ha : st.Allocated) (hr : st.Refines U vs) :
    (st.slice list).Refines U
      { vs with slices := Function.update vs.slices vs.nextSlice list, nextSlice := vs.nextSlice + 1 } := by
  refine ⟨hr.next, by simp [hr.nextSlice], fun d hd => (ha.view_slice list hd).trans (hr.view d hd),
    fun s hs hU => ?_⟩
  rw [slice_slices]
  by_cases h : s = st.nextSlice
  · subst h
    simp [Store.slice, hr.nextSlice, Function.update_apply]
  · have hs' : s < st.nextSlice := by simp at hs; omega
    simp [Store.slice, Function.update_apply, h, (ha.slices s hs').ne, ← hr.nextSlice,
      hr.slices s hs' hU]

end Slice

section New

variable [DecidableEq A] {st : Store A B} {U : List ℕ} (s : ℕ)

@[simp] theorem newCandidates_nextStruct : (st.newCandidates s).nextStruct = st.nextStruct + 1 := rfl

theorem newCandidates_list (d : ℕ) :
    ((st.newCandidates s).structs d).list =
      if d = st.nextStruct then st.slices s else (st.structs d).list := by
  by_cases h : d = st.nextStruct <;> simp [Store.newCandidates, Function.update_apply, h]

/-- The new struct holds the slice's list, its indexes and no pick; the others are as they were. -/
theorem view_newCandidates (d : ℕ) :
    (st.newCandidates s).view d = if d = st.nextStruct then
      ⟨st.arrays (st.slices s), (indexLoop 0 (st.arrays (st.slices s)) (fun _ => none, fun _ => false)).1,
        (indexLoop 0 (st.arrays (st.slices s)) (fun _ => none, fun _ => false)).2, []⟩
      else st.view d := by
  by_cases h : d = st.nextStruct <;> simp [Store.newCandidates, view, Function.update_apply, h]

theorem Allocated.newCandidates (h : st.Allocated) (hs : s < st.nextSlice) :
    (st.newCandidates s).Allocated := by
  refine ⟨fun d hd => ?_, h.slices⟩
  rw [newCandidates_list]
  split
  · exact h.slices s hs
  · exact h.structs d (by simp at hd; omega)

/-- A new struct on a slice not passed before shares its array with no other struct. -/
theorem Cow.newCandidates (h : st.Cow U) (hs : s < st.nextSlice) (hU : s ∉ U) :
    (st.newCandidates s).Cow (s :: U) := by
  have hlt : ∀ d < st.nextStruct + 1, d ≠ st.nextStruct → d < st.nextStruct := fun d hd hne => by omega
  refine ⟨h.alloc.newCandidates s hs, h.apart, fun s' hs' hU' d hd => ?_, fun d hd e he hde hl => ?_⟩
  · rw [List.mem_cons, not_or] at hU'
    rw [newCandidates_list]
    split
    · exact fun h' => hU'.1 (h.apart s' hs' s hs h'.symm)
    · exact h.unused s' hs' hU'.2 d (hlt d hd ‹_›)
  · simp only [newCandidates_nextStruct] at hd he
    rw [newCandidates_list, newCandidates_list] at hl
    split_ifs at hl with hd' he' he'
    · exact absurd (hd'.trans he'.symm) hde
    · exact absurd hl.symm (h.unused s hs hU e (hlt e he he'))
    · exact absurd hl (h.unused s hs hU d (hlt d hd hd'))
    · simpa [Store.newCandidates, Function.update_apply, hd'] using
        h.shared d (hlt d hd hd') e (hlt e he he') hde hl

theorem Refines.newCandidates {vs : ValStore A B} (hr : st.Refines U vs) (hs : s < st.nextSlice)
    (hU : s ∉ U) :
    (st.newCandidates s).Refines (s :: U)
      { vs with
        vals := Function.update vs.vals vs.next
          ⟨vs.slices s, (indexLoop 0 (vs.slices s) (fun _ => none, fun _ => false)).1,
            (indexLoop 0 (vs.slices s) (fun _ => none, fun _ => false)).2, []⟩
        next := vs.next + 1 } := by
  refine ⟨by simp [hr.next], hr.nextSlice, fun d hd => ?_,
    fun s' hs' hU' => hr.slices s' hs' (List.not_mem_of_not_mem_cons hU')⟩
  rw [view_newCandidates]
  split_ifs with h
  · subst h
    simp [hr.next, hr.slices s hs hU, Function.update_apply]
  · have hd' : d < st.nextStruct := by simp at hd; omega
    simp [h, Function.update_apply, ← hr.next, hr.view d hd']

end New

section Copy

variable {st : Store A B} {U : List ℕ} {c : ℕ}

@[simp] theorem copy_nextStruct (c : ℕ) : (st.copy c).nextStruct = st.nextStruct + 1 := rfl

theorem copy_structs (hc : c < st.nextStruct) (d : ℕ) :
    (st.copy c).structs d =
      if d = st.nextStruct ∨ d = c then { st.structs c with referenced := true }
      else st.structs d := by
  by_cases h₁ : d = st.nextStruct
  · simp [Store.copy, h₁]
  · by_cases h₂ : d = c
    · subst h₂; simp [Store.copy, h₁]
    · simp [Store.copy, h₁, h₂]

theorem Allocated.copy (h : st.Allocated) (hc : c < st.nextStruct) : (st.copy c).Allocated := by
  refine ⟨fun d hd => ?_, h.slices⟩
  rw [copy_structs hc]
  split
  · exact h.structs c hc
  · exact h.structs d (by simp at hd; omega)

/-- A copy shares the array of the struct it copies, and both are referenced. -/
theorem Cow.copy (h : st.Cow U) (hc : c < st.nextStruct) : (st.copy c).Cow U := by
  refine ⟨h.alloc.copy hc, h.apart, fun s hs hU d hd => ?_, fun d hd e he hde hl => ?_⟩
  · rw [copy_structs hc]
    split
    · exact h.unused s hs hU c hc
    · exact h.unused s hs hU d (by simp at hd; omega)
  · by_cases hd' : d = st.nextStruct ∨ d = c
    · rw [copy_structs hc, if_pos hd']
    · rw [copy_structs hc, if_neg hd']
      rw [copy_structs hc, copy_structs hc, if_neg hd'] at hl
      push_neg at hd'
      have hd₂ : d < st.nextStruct := by simp at hd; omega
      by_cases he' : e = st.nextStruct ∨ e = c
      · rw [if_pos he'] at hl
        exact h.shared d hd₂ c hc hd'.2 hl
      · rw [if_neg he'] at hl
        push_neg at he'
        exact h.shared d hd₂ e (by simp at he; omega) hde hl

theorem view_copy (hc : c < st.nextStruct) (d : ℕ) :
    (st.copy c).view d = if d = st.nextStruct ∨ d = c then st.view c else st.view d := by
  simp only [view, copy_structs hc]
  split <;> rfl

end Copy

section Detach

variable {st : Store A B} {U : List ℕ} {c : ℕ}

@[simp] theorem detach_nextStruct : (st.detach c).nextStruct = st.nextStruct := by
  dsimp only [detach]; split <;> rfl

@[simp] theorem detach_nextSlice : (st.detach c).nextSlice = st.nextSlice := by
  dsimp only [detach]; split <;> rfl

@[simp] theorem detach_slices : (st.detach c).slices = st.slices := by
  dsimp only [detach]; split <;> rfl

/-- Copying on write writes a new array only. -/
theorem detach_arrays {a : ℕ} (ha : a < st.nextArray) : (st.detach c).arrays a = st.arrays a := by
  dsimp only [detach]; split
  · simp [Function.update_apply, ha.ne]
  · rfl

@[simp] theorem detach_masters (d : ℕ) : ((st.detach c).structs d).masters = (st.structs d).masters := by
  dsimp only [detach]; split
  · by_cases h : d = c
    · subst h; simp
    · simp [h]
  · rfl

/-- Copying on write leaves every struct's value as it was. -/
theorem Allocated.view_detach (h : st.Allocated) (hc : c < st.nextStruct) {d : ℕ}
    (hd : d < st.nextStruct) : (st.detach c).view d = st.view d := by
  dsimp only [detach]
  split
  · by_cases h' : d = c
    · subst h'; simp [view, Function.update_apply]
    · simp [view, h', (h.structs d hd).ne]
  · rfl

theorem Allocated.detach (h : st.Allocated) : (st.detach c).Allocated := by
  dsimp only [Store.detach]
  split
  · refine ⟨fun d hd => ?_, fun s hs => Nat.lt_succ_of_lt (h.slices s hs)⟩
    by_cases h' : d = c
    · subst h'; simp
    · simpa [h'] using Nat.lt_succ_of_lt (h.structs d hd)
  · exact h

/-- After copying on write, no other struct shares the array of `c`. -/
theorem Cow.detach (h : st.Cow U) (hc : c < st.nextStruct) :
    (st.detach c).Cow U ∧ ∀ d < st.nextStruct, d ≠ c →
      ((st.detach c).structs d).list ≠ ((st.detach c).structs c).list := by
  have ha := h.alloc.detach (c := c)
  dsimp only [Store.detach] at ha ⊢
  split
  next hr =>
    rw [if_pos hr] at ha
    refine ⟨⟨ha, h.apart, fun s hs hU d hd => ?_, fun d hd e he hde hl => ?_⟩, fun d hd hdc => ?_⟩
    · by_cases h' : d = c
      · subst h'; simpa using (h.alloc.slices s hs).ne'
      · simpa [h'] using h.unused s hs hU d hd
    · by_cases h₁ : d = c
      · subst h₁
        have : e ≠ d := Ne.symm hde
        simp [this] at hl
        exact absurd hl.symm (h.alloc.structs e he).ne
      · by_cases h₂ : e = c
        · subst h₂; simp [h₁] at hl; exact absurd hl (h.alloc.structs d hd).ne
        · simpa [h₁, h₂] using h.shared d hd e he hde (by simpa [h₁, h₂] using hl)
    · simpa [hdc] using (h.alloc.structs d hd).ne
  next hr =>
    rw [if_neg hr] at ha
    exact ⟨h, fun d hd hdc hl => hr (h.shared c hc d hd (Ne.symm hdc) hl.symm)⟩

end Detach

section Exec

variable [DecidableEq A] {st : Store A B} {vs : ValStore A B} {U : List ℕ}

omit [DecidableEq A] in
theorem Refines.setSatisfied (hr : st.Refines U vs) {c : ℕ} (satisfied : List ℕ) :
    (st.setSatisfied c satisfied).Refines U
      { vs with vals := Function.update vs.vals c { vs.vals c with satisfied } } := by
  refine ⟨hr.next, hr.nextSlice, fun d hd => ?_, hr.slices⟩
  rw [view_setSatisfied]
  by_cases h : d = c
  · subst h; simp [hr.view d hd]
  · simp [h, hr.view d hd]

omit [DecidableEq A] in
/-- `Update` through `c` changes the value of `c` only, and no slice not passed yet. -/
theorem Cow.refines_update (hs : st.Cow U) (hr : st.Refines U vs) {c : ℕ} (hc : c < st.nextStruct)
    (i : ℕ) (active : Bool) :
    ((st.detach c).setCandidate c i active).Refines U
      { vs with
        vals := Function.update vs.vals c { vs.vals c with list := setActive (vs.vals c).list i active } } := by
  obtain ⟨hs', hsep⟩ := hs.detach hc
  refine ⟨by simp [hr.next], by simpa using hr.nextSlice, fun d hd => ?_, fun s h₁ hU => ?_⟩
  · simp only [setCandidate_nextStruct, detach_nextStruct] at hd
    rw [view_setCandidate]
    by_cases h : d = c
    · subst h
      simp [hs.alloc.view_detach hd hd, hr.view d hd, Function.update_apply]
    · rw [if_neg (hsep d hd h), hs.alloc.view_detach hc hd, hr.view d hd]
      simp [h]
  · simp only [setCandidate_nextSlice, detach_nextSlice] at h₁
    have hne := hs'.unused s (by simpa using h₁) hU c (by simpa using hc)
    simp only [Store.setCandidate, detach_slices, Function.update_apply] at hne ⊢
    rw [if_neg (Ne.symm hne), detach_arrays (hs.alloc.slices s h₁), hr.slices s h₁ hU]

/-- **Every call keeps the sharing discipline and answers as on values**, when it passes no slice
passed before: from structs that hold the values, a call fails on both levels or on neither, gives
the same answer on both, and leaves structs that hold the new values. -/
theorem Cow.exec (hs : st.Cow U) (hr : st.Refines U vs) (maxBlockProposers : ℕ) (call : Call A B)
    (hU : ∀ s ∈ call.passed, s ∉ U) :
    Option.Rel (fun p q => p.2 = q.2 ∧ p.1.Cow (call.passed.toList ++ U) ∧
        p.1.Refines (call.passed.toList ++ U) q.1)
      (st.exec maxBlockProposers call) (vs.exec maxBlockProposers call) := by
  have hn := hr.next
  cases call with
  | slice list =>
    exact .some ⟨by simp [hr.nextSlice], hs.slice list, hr.slice list hs.alloc⟩
  | newCandidates s =>
    have hsU : s ∉ U := hU s rfl
    by_cases h : s < st.nextSlice
    · simp only [Store.exec, ValStore.exec, h, hr.nextSlice ▸ h, if_true]
      exact .some ⟨by simp [hn], hs.newCandidates s h hsU, hr.newCandidates s h hsU⟩
    · simp only [Store.exec, ValStore.exec, h, hr.nextSlice ▸ h, if_false]
      exact .none
  | copy c =>
    by_cases hc : c < st.nextStruct
    · simp only [Store.exec, ValStore.exec, hc, hn ▸ hc, if_true]
      refine .some ⟨by simp [hn], hs.copy hc, ⟨by simp [hn], hr.nextSlice, fun d hd => ?_, hr.slices⟩⟩
      rw [view_copy hc]
      by_cases h : d = st.nextStruct
      · subst h; simp [hr.view c hc, Function.update_apply, hn]
      · have hd' : d < st.nextStruct := by simp at hd; omega
        by_cases h' : d = c
        · subst h'; simp [hr.view d hd', h, Function.update_apply, ← hn]
        · simp [h, h', hr.view d hd', Function.update_apply, ← hn]
    · simp only [Store.exec, ValStore.exec, hc, hn ▸ hc, if_false]
      exact .none
  | pick c balance endorsement =>
    by_cases hc : c < st.nextStruct
    · simp only [Store.exec, ValStore.exec, hc, hn ▸ hc, if_true, hr.view c hc]
      split
      · exact .some ⟨rfl, hs.setSatisfied _, hr.setSatisfied _⟩
      · exact .some ⟨rfl, hs, hr⟩
    · simp only [Store.exec, ValStore.exec, hc, hn ▸ hc, if_false]
      exact .none
  | update c addr active =>
    by_cases hc : c < st.nextStruct
    · simp only [Store.exec, ValStore.exec, hc, hn ▸ hc, if_true, hr.view c hc]
      cases (vs.vals c).masters addr with
      | none => exact .some ⟨rfl, hs, hr⟩
      | some i =>
        exact .some ⟨rfl, (hs.detach hc).1.setCandidate i active, hs.refines_update hr hc i active⟩
    · simp only [Store.exec, ValStore.exec, hc, hn ▸ hc, if_false]
      exact .none
  | isEndorsor c addr =>
    by_cases hc : c < st.nextStruct
    · simp only [Store.exec, ValStore.exec, hc, hn ▸ hc, if_true, hr.view c hc]
      exact .some ⟨rfl, hs, hr⟩
    · simp only [Store.exec, ValStore.exec, hc, hn ▸ hc, if_false]
      exact .none
  | invalidateCache c =>
    by_cases hc : c < st.nextStruct
    · simp only [Store.exec, ValStore.exec, hc, hn ▸ hc, if_true]
      exact .some ⟨rfl, hs.setSatisfied _, hr.setSatisfied _⟩
    · simp only [Store.exec, ValStore.exec, hc, hn ▸ hc, if_false]
      exact .none

/-- Every run that passes each slice to `NewCandidates` at most once, and none passed before,
keeps the discipline and answers as on values. -/
theorem Cow.run (hs : st.Cow U) (hr : st.Refines U vs) (maxBlockProposers : ℕ)
    (calls : List (Call A B)) (hU : ∀ s ∈ calls.filterMap Call.passed, s ∉ U)
    (hnd : (calls.filterMap Call.passed).Nodup) :
    Option.Rel (fun p q => p.2 = q.2 ∧ ∃ U', p.1.Cow U' ∧ p.1.Refines U' q.1)
      (st.run maxBlockProposers calls) (vs.run maxBlockProposers calls) := by
  induction calls generalizing st vs U with
  | nil => exact .some ⟨rfl, U, hs, hr⟩
  | cons call calls ih =>
    have hsplit : ∀ s ∈ calls.filterMap Call.passed, s ∉ call.passed.toList ++ U := by
      intro s hsm hsU
      cases hp : call.passed with
      | none => rw [hp] at hsU; exact hU s (by simp [List.filterMap_cons, hp, hsm]) hsU
      | some s₀ =>
        rw [List.filterMap_cons, hp, List.nodup_cons] at hnd
        rw [hp, Option.toList_some, List.singleton_append, List.mem_cons] at hsU
        rcases hsU with rfl | hsU
        · exact hnd.1 hsm
        · exact hU s (by simp [List.filterMap_cons, hp, hsm]) hsU
    have hnd' : (calls.filterMap Call.passed).Nodup := by
      rw [List.filterMap_cons] at hnd
      split at hnd
      · exact hnd
      · exact (List.nodup_cons.mp hnd).2
    simp only [Store.run, ValStore.run]
    have hrel := hs.exec hr maxBlockProposers call
      fun s hp => hU s (by rw [List.filterMap_cons, Option.mem_def.mp hp]; exact List.mem_cons_self _ _)
    generalize st.exec maxBlockProposers call = x at hrel ⊢
    generalize vs.exec maxBlockProposers call = y at hrel ⊢
    cases hrel with
    | none => exact .none
    | some h =>
      obtain ⟨hans, hs', hr'⟩ := h
      simp only [Option.some_bind]
      have hrun := ih hs' hr' hsplit hnd'
      revert hrun
      generalize Store.run maxBlockProposers _ calls = u
      generalize ValStore.run maxBlockProposers _ calls = w
      intro hrun
      cases hrun with
      | none => exact .none
      | some h => exact .some ⟨by simp only [hans, h.1], h.2⟩

end Exec

end Store

/-- Three candidates, endorsed by `5`, `6` and `7`. -/
def threeCandidates : List (Candidate Word Word) :=
  [⟨⟨1⟩, ⟨5⟩, ⟨0⟩, true⟩, ⟨⟨2⟩, ⟨6⟩, ⟨0⟩, true⟩, ⟨⟨3⟩, ⟨7⟩, ⟨0⟩, true⟩]

/-- Endorsor `5` holds 1, every other endorsor 9. -/
def lowFive (e : Word) : ℕ := if e = ⟨5⟩ then 1 else 9

/-- Struct 0 is made from a slice of `threeCandidates` and picks, is copied to struct 1, and node
master `2` is made inactive through struct 1. -/
def copyUpdateCalls : List (Call Word Word) :=
  [.slice threeCandidates, .newCandidates 0, .pick 0 lowFive 5, .copy 0, .update 1 ⟨2⟩ false]

/-- With one slice passed twice, the structs and the values part: the second struct's pick sees
node master `2` inactive, the second value's does not. -/
example :
    (Store.init.run 1 [.slice threeCandidates, .newCandidates 0, .newCandidates 0,
        .update 0 ⟨2⟩ false, .pick 1 lowFive 5]).map Prod.snd =
      some [.slice 0, .candidates 0, .candidates 1, .bool true, .proposers [⟨⟨2⟩, false⟩]] ∧
    (ValStore.init.run 1 [.slice threeCandidates, .newCandidates 0, .newCandidates 0,
        .update 0 ⟨2⟩ false, .pick 1 lowFive 5]).map Prod.snd =
      some [.slice 0, .candidates 0, .candidates 1, .bool true, .proposers [⟨⟨2⟩, true⟩]] := by
  decide

/-! ## The cached pick -/

section Fresh

variable (balance : A → ℕ) (endorsement maxBlockProposers : ℕ)

/-- `Pick` reads `balance` and `endorsement`, whenever it is called. -/
def Call.PicksWith : Call A B → Prop
  | .pick _ b e => b = balance ∧ e = endorsement
  | _ => True

/-- The cached pick of a value is empty, or the pick of its list afresh. -/
def CandidatesVal.Fresh (v : CandidatesVal A B) : Prop :=
  v.satisfied = [] ∨ v.satisfied = pickLoop balance endorsement maxBlockProposers 0 v.list []

/-- Every struct's cached pick is fresh. -/
def Store.Fresh (st : Store A B) : Prop :=
  ∀ c < st.nextStruct, (st.view c).Fresh balance endorsement maxBlockProposers

variable {balance endorsement maxBlockProposers}

/-- A cached pick stays fresh under `Update`, which sets an active flag and no endorsor. -/
theorem CandidatesVal.Fresh.setActive {v : CandidatesVal A B}
    (h : v.Fresh balance endorsement maxBlockProposers) (i : ℕ) (active : Bool) :
    CandidatesVal.Fresh balance endorsement maxBlockProposers
      { v with list := Poa.setActive v.list i active } := by
  rcases h with h | h
  · exact .inl h
  · exact .inr (h.trans (pickLoop_congr _ _ _ (map_endorsor_setActive _ _ _).symm _ _))

theorem Store.fresh_init : (Store.init : Store A B).Fresh balance endorsement maxBlockProposers :=
  nofun

variable [DecidableEq A]

/-- Every call whose picks read `balance` and `endorsement` keeps the arrays allocated and every
cached pick fresh, slices passed twice included: an array is written only by `Update`, which
changes an active flag, never an endorsor. -/
theorem Store.Fresh.exec {st st' : Store A B} {call : Call A B} {a : Answer A}
    (ha : st.Allocated) (h : st.Fresh balance endorsement maxBlockProposers)
    (hcall : call.PicksWith balance endorsement)
    (he : st.exec maxBlockProposers call = some (st', a)) :
    st'.Allocated ∧ st'.Fresh balance endorsement maxBlockProposers := by
  cases call with
  | slice list =>
    obtain ⟨rfl, -⟩ := Prod.mk.inj (Option.some.inj he)
    exact ⟨ha.slice list, fun d hd => ha.view_slice list hd ▸ h d hd⟩
  | newCandidates s =>
    simp only [Store.exec] at he
    split at he
    · obtain ⟨rfl, -⟩ := Prod.mk.inj (Option.some.inj he)
      refine ⟨ha.newCandidates s ‹_›, fun d hd => ?_⟩
      rw [Store.view_newCandidates]
      split
      · exact .inl rfl
      · exact h d (by simp at hd; omega)
    · cases he
  | copy c =>
    simp only [Store.exec] at he
    split at he
    · obtain ⟨rfl, -⟩ := Prod.mk.inj (Option.some.inj he)
      refine ⟨ha.copy ‹_›, fun d hd => ?_⟩
      rw [Store.view_copy ‹_›]
      split
      · exact h c ‹_›
      · exact h d (by simp at hd; omega)
    · cases he
  | pick c b e =>
    obtain ⟨rfl, rfl⟩ := hcall
    simp only [Store.exec] at he
    split at he
    · split at he <;> obtain ⟨rfl, -⟩ := Prod.mk.inj (Option.some.inj he)
      · refine ⟨ha.setSatisfied _, fun d hd => ?_⟩
        rw [Store.view_setSatisfied]
        split
        · exact .inr rfl
        · exact h d hd
      · exact ⟨ha, h⟩
    · cases he
  | update c addr active =>
    simp only [Store.exec] at he
    split at he
    · split at he <;> obtain ⟨rfl, -⟩ := Prod.mk.inj (Option.some.inj he)
      · refine ⟨ha.detach.of_lists rfl rfl rfl rfl fun _ => rfl, fun d hd => ?_⟩
        simp only [Store.setCandidate_nextStruct, Store.detach_nextStruct] at hd
        rw [Store.view_setCandidate, ha.view_detach ‹_› hd]
        split
        · exact (h d hd).setActive _ _
        · exact h d hd
      · exact ⟨ha, h⟩
    · cases he
  | isEndorsor c addr =>
    simp only [Store.exec] at he
    split at he
    · obtain ⟨rfl, -⟩ := Prod.mk.inj (Option.some.inj he)
      exact ⟨ha, h⟩
    · cases he
  | invalidateCache c =>
    simp only [Store.exec] at he
    split at he
    · obtain ⟨rfl, -⟩ := Prod.mk.inj (Option.some.inj he)
      refine ⟨ha.setSatisfied _, fun d hd => ?_⟩
      rw [Store.view_setSatisfied]
      split
      · exact .inl rfl
      · exact h d hd
    · cases he

theorem Store.Fresh.run {st st' : Store A B} {calls : List (Call A B)} {as : List (Answer A)}
    (ha : st.Allocated) (h : st.Fresh balance endorsement maxBlockProposers)
    (hcalls : ∀ call ∈ calls, call.PicksWith balance endorsement)
    (hr : st.run maxBlockProposers calls = some (st', as)) :
    st'.Fresh balance endorsement maxBlockProposers := by
  induction calls generalizing st as with
  | nil =>
    simp only [Store.run, Option.some.injEq, Prod.mk.injEq] at hr
    exact hr.1 ▸ h
  | cons call calls ih =>
    simp only [Store.run, Option.bind_eq_some, Option.map_eq_some', Prod.mk.injEq] at hr
    obtain ⟨⟨st₁, a⟩, he, ⟨st₂, as'⟩, hr', rfl, -⟩ := hr
    obtain ⟨ha₁, h₁⟩ := h.exec ha (hcalls call (List.mem_cons_self _ _)) he
    exact ih ha₁ h₁ (fun c hc => hcalls c (List.mem_cons_of_mem _ hc)) hr'

end Fresh

/-- **The cached pick is fresh.** After any run of calls from nothing allocated whose picks all
read the same balances and endorsement, every struct's cached indexes are indexes of its list, and
`Pick` on it answers the proposers of the first `maxBlockProposers` candidates of its current list
whose endorsor's balance reaches the endorsement, with their current active flags: what a pick
afresh would answer, whatever `Copy`s, `Update`s and `Pick`s came between, and whether or not
structs share a slice. -/
theorem pick_cache_fresh [DecidableEq A] (balance : A → ℕ) (endorsement maxBlockProposers : ℕ)
    {calls : List (Call A B)} (hcalls : ∀ call ∈ calls, call.PicksWith balance endorsement)
    {st : Store A B} {answers : List (Answer A)}
    (h : Store.init.run maxBlockProposers calls = some (st, answers)) {c : ℕ}
    (hc : c < st.nextStruct) :
    (∀ j ∈ (st.view c).satisfied, j < (st.view c).list.length) ∧
      (st.exec maxBlockProposers (.pick c balance endorsement)).map Prod.snd =
        some (.proposers ((((st.view c).list.filter fun x => decide (endorsement ≤ balance x.endorsor)).take
          maxBlockProposers).map Proposer.ofCandidate)) := by
  have hfresh : (st.view c).Fresh balance endorsement maxBlockProposers :=
    Store.fresh_init.run Store.allocated_init hcalls h c hc
  refine ⟨fun j hj => ?_, ?_⟩
  · rcases hfresh with h₀ | h₀
    · simp [h₀] at hj
    · rw [h₀] at hj
      simpa using pickLoop_lt balance endorsement maxBlockProposers (i := 0) (s := []) nofun j hj
  · simp only [Store.exec, if_pos hc]
    split
    · simp [proposersOf_pickLoop_zero]
    · rcases hfresh with h₀ | h₀
      · simp_all
      · simp [h₀, proposersOf_pickLoop_zero]

theorem pick_cache_fresh_copyUpdate :
    (∀ call ∈ copyUpdateCalls, call.PicksWith lowFive 5) ∧
      ∃ st answers, Store.init.run 1 copyUpdateCalls = some (st, answers) ∧ 1 < st.nextStruct ∧
        (∀ j ∈ (st.view 1).satisfied, j < (st.view 1).list.length) ∧
        (st.exec 1 (.pick 1 lowFive 5)).map Prod.snd =
          some (.proposers ((((st.view 1).list.filter fun x => decide (5 ≤ lowFive x.endorsor)).take
            1).map Proposer.ofCandidate)) := by
  have hcalls : ∀ call ∈ copyUpdateCalls, call.PicksWith lowFive 5 := by
    simp [copyUpdateCalls, Call.PicksWith]
  refine ⟨hcalls, _, _, rfl, ?_⟩
  exact ⟨by decide, pick_cache_fresh lowFive 5 1 hcalls (by rfl) (by decide)⟩

/-- The update through the copy is seen by the copy's cached pick and not by the original's. -/
example :
    (Store.init.run 1 (copyUpdateCalls ++ [.pick 0 lowFive 5, .pick 1 lowFive 5])).map Prod.snd =
      some [.slice 0, .candidates 0, .proposers [⟨⟨2⟩, true⟩], .candidates 1, .bool true,
        .proposers [⟨⟨2⟩, true⟩], .proposers [⟨⟨2⟩, false⟩]] := by
  decide

/-- **The cache agrees with the contract.** After any calls on the `Auworkshareity` contract from
empty storage, with a non-zero endorsor or identity at every `Add`, `Pick` on a new `Candidates`
built from the slice `AllCandidates` returns answers the proposers of the candidates that the
contract's own `Candidates(endorsement, maxBlockProposers)` returns, in the same order. -/
theorem pick_authority [DecidableEq A] [Zero A] [DecidableEq B] [Zero B]
    (calls : List (Auworkshareity.Call A B)) (hv : ∀ c ∈ calls, c.Valid) (balance : A → ℕ)
    (endorsement maxBlockProposers : ℕ) (st : Store A B) :
    (Auworkshareity.allCandidates (Auworkshareity.Storage.empty.exec calls).2
        (Auworkshareity.Registry.empty.exec calls).2.listed.length).bind (fun list =>
      (((st.slice list).newCandidates st.nextSlice).exec maxBlockProposers
        (.pick st.nextStruct balance endorsement)).map Prod.snd) =
      (Auworkshareity.candidates (Auworkshareity.Storage.empty.exec calls).2 balance endorsement
          maxBlockProposers (Auworkshareity.Registry.empty.exec calls).2.listed.length).map
        fun l => .proposers (l.map Proposer.ofCandidate) := by
  obtain ⟨-, h⟩ := Auworkshareity.refines_empty.exec hv
  rw [h.allCandidates_eq le_rfl, Auworkshareity.candidates, h.head,
    h.candidatesLoop_eq balance endorsement maxBlockProposers (show _ = [] ++ _ from rfl) le_rfl
      (Nat.zero_le _)]
  simp [Store.exec, Store.view_newCandidates, Store.slice, Function.update_apply,
    proposersOf_pickLoop_zero]

theorem pick_authority_threeCalls :
    (∀ c ∈ Auworkshareity.threeCalls, c.Valid) ∧
      (Auworkshareity.allCandidates (Auworkshareity.Storage.empty.exec Auworkshareity.threeCalls).2
          (Auworkshareity.Registry.empty.exec Auworkshareity.threeCalls).2.listed.length).bind
        (fun list => ((((Store.init : Store Word Word).slice list).newCandidates 0).exec 1
          (.pick 0 lowFive 5)).map Prod.snd) =
        (Auworkshareity.candidates (Auworkshareity.Storage.empty.exec Auworkshareity.threeCalls).2
            lowFive 5 1 (Auworkshareity.Registry.empty.exec Auworkshareity.threeCalls).2.listed.length).map
          fun l => .proposers (l.map Proposer.ofCandidate) := by
  have hv : ∀ c ∈ Auworkshareity.threeCalls, c.Valid := by decide
  exact ⟨hv, pick_authority _ hv lowFive 5 1 Store.init⟩

end Poa

end Workshare
