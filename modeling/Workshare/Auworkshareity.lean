import Mathlib.Data.List.Nodup

/-!
# The candidate list of the `Auworkshareity` contract

The native `Auworkshareity` contract keeps its block-proposer candidates in contract storage as a
doubly-linked list: one `entry` per node master, holding the endorsor, the identity, the active
flag and the `Prev` and `Next` pointers, and two more slots for the head and the tail. `Add` links
a node at the tail, `Revoke` unlinks it and marks it inactive but keeps its entry, `Update` sets the
active flag of a linked node, and `Get` and `AllCandidates` read the list back.

Two corners of the code decide what the list can do. An entry that `IsEmpty` is stored as no bytes
at all, and `Add` takes a node master whose entry is empty to be new. And the sole node of a list
has no neighbours, so it is not `IsLinked`: `Revoke` and `Update` leave it alone, and `Get` asks the
head slot whether it is listed.

So the list survives every call while no listed node's entry can be empty. When every `Add` has a
non-zero endorsor or identity, the storage refines a registry that lists its nodes in order of
addition and remembers every node it ever added (`exec_refines`). A node added with both zero,
made inactive and then left alone on the list has an empty entry while it is listed, and `Add`
links it a second time, after itself (`add_relinks_listed`).

## Implementation notes

Storage reads and writes, and the RLP coding of entries and pointers, are taken never to fail: an
error of the state trie is not among the sources. `Candidates` reads endorsor balances from the
state, given as a function `balance`. The loops of
`AllCandidates` and `Candidates` do not end on a cyclic list; the model walks with fuel and returns
`none` when the fuel runs out.

## Main results

* `exec_refines` — with non-zero endorsors or identities, every sequence of calls from empty
  storage answers as the registry does, and the storage holds the registry's list, doubly linked
* `get_listed`, `allCandidates_eq` — `Get` and `AllCandidates` read the listed nodes back
* `add_relinks_listed` — a listed node with a zero endorsor and identity is added a second time
* `exec_candidates` — `Candidates` returns the first `limit` candidates of `AllCandidates` whose
  endorsor has the endorsement
-/

namespace Workshare

namespace Auworkshareity

/-- A stored candidate (`entry`): its endorsor, identity and active flag, and the node masters
before and after it on the list. -/
structure Entry (A B : Type) where
  endorsor : A
  identity : B
  active : Bool
  prev : Option A
  next : Option A
  deriving DecidableEq, Repr

/-- A candidate as `AllCandidates` returns it. -/
structure Candidate (A B : Type) where
  nodeMaster : A
  endorsor : A
  identity : B
  active : Bool
  deriving DecidableEq, Repr

/-- The contract's storage: the entry slot of every node master, where no bytes read as the zero
entry, and the head and tail slots. -/
structure Storage (A B : Type) where
  entries : A → Option (Entry A B)
  head : Option A
  tail : Option A

/-- A call of the contract's native methods. -/
inductive Call (A B : Type)
  | add (nodeMaster endorsor : A) (identity : B)
  | revoke (nodeMaster : A)
  | update (nodeMaster : A) (active : Bool)
  deriving DecidableEq, Repr

/-! ## The list a storage should hold -/

section Links

variable {A : Type} [DecidableEq A]

/-- The node after `x` on the list `L`: what its `Next` should hold. -/
def nextOn : List A → A → Option A
  | [], _ => none
  | y :: L, x => if x = y then L.head? else nextOn L x

/-- The node before `x` on the list `L`: what its `Prev` should hold. -/
def prevOn (L : List A) (x : A) : Option A := nextOn L.reverse x

theorem nextOn_of_not_mem {L : List A} {x : A} (h : x ∉ L) : nextOn L x = none := by
  induction L with
  | nil => rfl
  | cons y L ih =>
    rw [List.mem_cons, not_or] at h
    rw [nextOn, if_neg h.1, ih h.2]

theorem prevOn_of_not_mem {L : List A} {x : A} (h : x ∉ L) : prevOn L x = none :=
  nextOn_of_not_mem (by rwa [List.mem_reverse])

theorem nextOn_append (L₁ L₂ : List A) (x : A) :
    nextOn (L₁ ++ L₂) x =
      (nextOn L₁ x).or (if L₁.getLast? = some x then L₂.head? else nextOn L₂ x) := by
  induction L₁ with
  | nil => simp [nextOn]
  | cons y L₁ ih =>
    rw [List.cons_append, nextOn, nextOn, ih]
    by_cases hx : x = y
    · cases L₁ <;> simp [hx]
    · cases L₁ <;> simp [hx, Ne.symm hx, nextOn, List.getLast?_cons_cons]

/-- The node after `x`, where `x` stands between `L₁` and `L₂`. -/
theorem nextOn_middle {L₁ L₂ : List A} {x : A} (hx : x ∉ L₁) :
    nextOn (L₁ ++ x :: L₂) x = L₂.head? := by
  have : L₁.getLast? ≠ some x := fun h => hx (List.mem_of_getLast?_eq_some h)
  simp [nextOn_append, nextOn_of_not_mem hx, this, nextOn]

theorem prevOn_middle {L₁ L₂ : List A} {x : A} (hx : x ∉ L₂) :
    prevOn (L₁ ++ x :: L₂) x = L₁.getLast? := by
  rw [prevOn, List.reverse_append, List.reverse_cons, List.append_assoc, List.singleton_append,
    nextOn_middle (by rwa [List.mem_reverse]), List.head?_reverse]

/-- The last node of a list without repeats has nothing after it. -/
theorem nextOn_of_getLast? {L : List A} {x : A} (hL : L.Nodup) (h : L.getLast? = some x) :
    nextOn L x = none := by
  obtain ⟨L', rfl⟩ := List.getLast?_eq_some_iff.mp h
  rw [nextOn_middle fun hx => (List.nodup_append.mp hL).2.2 hx (List.mem_singleton_self x)]
  rfl

/-- `Add`'s change: the old last node gains a `Next`. -/
theorem nextOn_append_singleton {L : List A} (hL : L.Nodup) (x y : A) :
    nextOn (L ++ [x]) y = if L.getLast? = some y then some x else nextOn L y := by
  rw [nextOn_append]
  split_ifs with h
  · rw [nextOn_of_getLast? hL h]; rfl
  · have : nextOn [x] y = none := by by_cases hy : y = x <;> simp [nextOn, hy]
    rw [this, Option.or_none]

/-- `Add`'s change: the new node's `Prev` is the old last node. -/
theorem prevOn_append_singleton (L : List A) (x y : A) :
    prevOn (L ++ [x]) y = if y = x then L.getLast? else prevOn L y := by
  rw [prevOn, List.reverse_append, List.reverse_singleton, List.singleton_append, nextOn,
    List.head?_reverse]; rfl

/-- `Revoke`'s change: taking `x` out of the middle gives the last node of `L₁` a new `Next`. -/
theorem nextOn_erase_middle {L₁ L₂ : List A} {x y : A} (hL : L₁.Nodup) (hy : y ≠ x) :
    nextOn (L₁ ++ L₂) y = if L₁.getLast? = some y then L₂.head? else nextOn (L₁ ++ x :: L₂) y := by
  rw [nextOn_append, nextOn_append]
  split_ifs with h
  · rw [nextOn_of_getLast? hL h]; rfl
  · rw [nextOn, if_neg hy]

theorem prevOn_erase_middle {L₁ L₂ : List A} {x y : A} (hL : L₂.Nodup) (hy : y ≠ x) :
    prevOn (L₁ ++ L₂) y = if L₂.head? = some y then L₁.getLast? else prevOn (L₁ ++ x :: L₂) y := by
  have h := @nextOn_erase_middle _ _ L₂.reverse L₁.reverse x y (List.nodup_reverse.mpr hL) hy
  rw [List.getLast?_reverse, List.head?_reverse] at h
  simpa [prevOn, List.reverse_append] using h

omit [DecidableEq A] in
theorem not_mem_of_nodup_middle {L₁ L₂ : List A} {x : A} (h : (L₁ ++ x :: L₂).Nodup) :
    x ∉ L₁ ∧ x ∉ L₂ ∧ (L₁ ++ L₂).Nodup := by
  rw [List.nodup_middle, List.nodup_cons, List.mem_append, not_or] at h
  exact ⟨h.1.1, h.1.2, h.2⟩

end Links

variable {A B : Type} [DecidableEq A] [Zero A] [DecidableEq B] [Zero B]

/-! ## The contract -/

namespace Entry

/-- The entry `getEntry` decodes from no bytes: Go's zero value. -/
def zero : Entry A B := ⟨0, 0, false, none, none⟩

/-- `IsEmpty`: whether the entry can be treated as empty; it is then stored as no bytes. -/
def isEmpty (e : Entry A B) : Bool :=
  decide (e.endorsor = 0) && decide (e.identity = 0) && !e.active && e.prev.isNone && e.next.isNone

/-- `IsLinked`: whether the entry has a neighbour. -/
def isLinked (e : Entry A B) : Bool := e.prev.isSome || e.next.isSome

/-- The candidate `AllCandidates` reports for the node master `nodeMaster` with this entry. -/
def toCandidate (e : Entry A B) (nodeMaster : A) : Candidate A B :=
  ⟨nodeMaster, e.endorsor, e.identity, e.active⟩

theorem isEmpty_iff {e : Entry A B} : e.isEmpty = true ↔ e = zero := by
  cases e; simp [isEmpty, zero, Option.isNone_iff_eq_none, and_assoc]

end Entry

/-- Storage with nothing written. -/
def Storage.empty : Storage A B := ⟨fun _ => none, none, none⟩

/-- `getEntry`: the entry of a node master, the zero entry when its slot holds no bytes. -/
def getEntry (s : Storage A B) (nodeMaster : A) : Entry A B := (s.entries nodeMaster).getD .zero

/-- `setEntry`: an empty entry is written as no bytes. -/
def setEntry (s : Storage A B) (nodeMaster : A) (e : Entry A B) : Storage A B :=
  { s with entries := Function.update s.entries nodeMaster (if e.isEmpty then none else some e) }

/-- `Get`: whether the node master is listed, and its endorsor, identity and active flag. A node
that is not linked is listed when the head slot names it. -/
def get (s : Storage A B) (nodeMaster : A) : Bool × A × B × Bool :=
  let e := getEntry s nodeMaster
  if e.isLinked then (true, e.endorsor, e.identity, e.active)
  else (decide (s.head = some nodeMaster), e.endorsor, e.identity, e.active)

/-- `Add`: a node master whose entry is empty is linked at the tail, active. -/
def add (s : Storage A B) (nodeMaster endorsor : A) (identity : B) : Bool × Storage A B :=
  let e := getEntry s nodeMaster
  if !e.isEmpty then (false, s) else
    let tailPtr := s.tail
    let e := { e with endorsor := endorsor, identity := identity, active := true, prev := tailPtr }
    let s := { s with tail := some nodeMaster }
    let s := match tailPtr with
      | none => { s with head := some nodeMaster }
      | some t => setEntry s t { getEntry s t with next := some nodeMaster }
    (true, setEntry s nodeMaster e)

/-- `Revoke`: a linked node is unlinked and made inactive; its entry is not removed. -/
def revoke (s : Storage A B) (nodeMaster : A) : Bool × Storage A B :=
  let e := getEntry s nodeMaster
  if !e.isLinked then (false, s) else
    let s := match e.prev with
      | none => { s with head := e.next }
      | some p => setEntry s p { getEntry s p with next := e.next }
    let s := match e.next with
      | none => { s with tail := e.prev }
      | some n => setEntry s n { getEntry s n with prev := e.prev }
    (true, setEntry s nodeMaster { e with next := none, prev := none, active := false })

/-- `Update`: sets the active flag of a linked node. -/
def update (s : Storage A B) (nodeMaster : A) (active : Bool) : Bool × Storage A B :=
  let e := getEntry s nodeMaster
  if !e.isLinked then (false, s) else (true, setEntry s nodeMaster { e with active := active })

/-- The loop of `AllCandidates` from `ptr`, following `Next` for at most `fuel` nodes. -/
def candidatesFrom (s : Storage A B) : ℕ → Option A → Option (List (Candidate A B))
  | _, none => some []
  | 0, some _ => none
  | n + 1, some x =>
    let e := getEntry s x
    (candidatesFrom s n e.next).map (e.toCandidate x :: ·)

/-- `AllCandidates`: the candidates from the head on. -/
def allCandidates (s : Storage A B) (fuel : ℕ) : Option (List (Candidate A B)) :=
  candidatesFrom s fuel s.head

/-- The loop of `Candidates` from `ptr`: while there is a node and fewer than `limit` candidates
are found, keep the node when its endorsor's balance reaches `endorsement`, then follow `Next`; at
most `fuel` nodes. -/
def candidatesLoop (s : Storage A B) (balance : A → ℕ) (endorsement limit : ℕ) :
    ℕ → Option A → List (Candidate A B) → Option (List (Candidate A B))
  | _, none, acc => some acc
  | 0, some _, acc => if limit ≤ acc.length then some acc else none
  | n + 1, some x, acc =>
    if limit ≤ acc.length then some acc
    else
      let e := getEntry s x
      candidatesLoop s balance endorsement limit n e.next
        (if endorsement ≤ balance e.endorsor then acc ++ [e.toCandidate x] else acc)

/-- `Candidates(endorsement, limit)`: up to `limit` candidates, from the head on, whose endorsor's
balance in the state the contract reads is at least `endorsement`. -/
def candidates (s : Storage A B) (balance : A → ℕ) (endorsement limit fuel : ℕ) :
    Option (List (Candidate A B)) :=
  candidatesLoop s balance endorsement limit fuel s.head []

/-- `First`: the node master of the head slot. -/
def first (s : Storage A B) : Option A := s.head

/-- `Next`: the node master after `nodeMaster`, as its entry names it. -/
def next (s : Storage A B) (nodeMaster : A) : Option A := (getEntry s nodeMaster).next

/-- A call on the storage, with its boolean result. -/
def Storage.call (s : Storage A B) : Call A B → Bool × Storage A B
  | .add x e i => add s x e i
  | .revoke x => revoke s x
  | .update x a => update s x a

/-- The results of a sequence of calls, and the storage after them. -/
def Storage.exec (s : Storage A B) : List (Call A B) → List Bool × Storage A B
  | [] => ([], s)
  | c :: cs => let r := s.call c; let q := r.2.exec cs; (r.1 :: q.1, q.2)

/-! ## What each call writes -/

omit [DecidableEq A] [DecidableEq B] in
@[simp] theorem getEntry_empty (x : A) : getEntry (Storage.empty : Storage A B) x = .zero := rfl

omit [DecidableEq A] [DecidableEq B] in
@[simp] theorem getEntry_mk (s : Storage A B) (head tail : Option A) (y : A) :
    getEntry ⟨s.entries, head, tail⟩ y = getEntry s y := rfl

@[simp] theorem getEntry_setEntry (s : Storage A B) (x : A) (e : Entry A B) (y : A) :
    getEntry (setEntry s x e) y = if y = x then e else getEntry s y := by
  by_cases hy : y = x
  · subst hy
    cases h : e.isEmpty
    · simp [getEntry, setEntry, h]
    · simp [getEntry, setEntry, h, (Entry.isEmpty_iff.mp h).symm]
  · simp [getEntry, setEntry, hy]

@[simp] theorem setEntry_head (s : Storage A B) (x : A) (e : Entry A B) :
    (setEntry s x e).head = s.head := rfl

@[simp] theorem setEntry_tail (s : Storage A B) (x : A) (e : Entry A B) :
    (setEntry s x e).tail = s.tail := rfl

theorem add_of_not_isEmpty {s : Storage A B} {x : A} (h : (getEntry s x).isEmpty = false)
    (endorsor : A) (identity : B) : add s x endorsor identity = (false, s) := by
  simp [add, h]

theorem add_spec {s : Storage A B} {x : A} (h : (getEntry s x).isEmpty = true)
    (endorsor : A) (identity : B) :
    (add s x endorsor identity).1 = true ∧
      (add s x endorsor identity).2.head = (if s.tail = none then some x else s.head) ∧
      (add s x endorsor identity).2.tail = some x ∧
      ∀ y, getEntry (add s x endorsor identity).2 y =
        if y = x then ⟨endorsor, identity, true, s.tail, none⟩
        else if s.tail = some y then { getEntry s y with next := some x } else getEntry s y := by
  have he := Entry.isEmpty_iff.mp h
  cases ht : s.tail <;> simp [add, h, ht, he, Entry.zero, Entry.isEmpty]
  intro y
  split_ifs <;> subst_vars <;> simp_all

theorem revoke_of_not_isLinked {s : Storage A B} {x : A} (h : (getEntry s x).isLinked = false) :
    revoke s x = (false, s) := by
  simp [revoke, h]

theorem revoke_spec {s : Storage A B} {x : A} (h : (getEntry s x).isLinked = true) :
    (revoke s x).1 = true ∧
      (revoke s x).2.head =
        (if (getEntry s x).prev = none then (getEntry s x).next else s.head) ∧
      (revoke s x).2.tail =
        (if (getEntry s x).next = none then (getEntry s x).prev else s.tail) ∧
      ∀ y, getEntry (revoke s x).2 y =
        if y = x then { getEntry s x with next := none, prev := none, active := false }
        else { getEntry s y with
               next := if (getEntry s x).prev = some y then (getEntry s x).next
                 else (getEntry s y).next
               prev := if (getEntry s x).next = some y then (getEntry s x).prev
                 else (getEntry s y).prev } := by
  refine ⟨by simp [revoke, h], ?_, ?_, fun y => ?_⟩
  all_goals
    cases hp : (getEntry s x).prev <;> cases hn : (getEntry s x).next <;> simp [revoke, h, hp, hn]
  all_goals split_ifs <;> subst_vars <;> simp_all

theorem update_of_not_isLinked {s : Storage A B} {x : A} (h : (getEntry s x).isLinked = false)
    (active : Bool) : update s x active = (false, s) := by
  simp [update, h]

theorem update_of_isLinked {s : Storage A B} {x : A} (h : (getEntry s x).isLinked = true)
    (active : Bool) :
    update s x active = (true, setEntry s x { getEntry s x with active := active }) := by
  simp [update, h]

/-! ## The registry the storage refines -/

/-- What the candidate list is for: the listed node masters in order of addition, and every node
master ever added, which `Add` does not take again. -/
structure Registry (A : Type) where
  listed : List A
  added : List A
  deriving DecidableEq, Repr

namespace Registry

/-- The registry of empty storage. -/
def empty : Registry A := ⟨[], []⟩

/-- A node master is added once, at the end of the list. -/
def add (r : Registry A) (x : A) : Bool × Registry A :=
  if x ∈ r.added then (false, r) else (true, ⟨r.listed ++ [x], x :: r.added⟩)

/-- `x` is listed and has a neighbour: the sole node of a list is neither revoked nor updated. -/
def Linked (r : Registry A) (x : A) : Prop := x ∈ r.listed ∧ r.listed ≠ [x]

instance (r : Registry A) (x : A) : Decidable (r.Linked x) := inferInstanceAs (Decidable (_ ∧ _))

/-- A linked node master is taken off the list. -/
def revoke (r : Registry A) (x : A) : Bool × Registry A :=
  if r.Linked x then (true, ⟨r.listed.erase x, r.added⟩) else (false, r)

/-- Updating succeeds on a linked node master and leaves the list alone. -/
def update (r : Registry A) (x : A) : Bool × Registry A := (decide (r.Linked x), r)

/-- A call on the registry. -/
def call (r : Registry A) : Call A B → Bool × Registry A
  | .add x _ _ => r.add x
  | .revoke x => r.revoke x
  | .update x _ => r.update x

/-- The results of a sequence of calls, and the registry after them. -/
def exec (r : Registry A) : List (Call A B) → List Bool × Registry A
  | [] => ([], r)
  | c :: cs => let q := r.call c; let p := q.2.exec cs; (q.1 :: p.1, p.2)

end Registry

/-- A call that stores no empty entry for a listed node: an `Add` with a non-zero endorsor or
identity. -/
def Call.Valid : Call A B → Prop
  | .add _ endorsor identity => endorsor ≠ 0 ∨ identity ≠ 0
  | _ => True

instance : ∀ c : Call A B, Decidable c.Valid
  | .add _ endorsor identity => inferInstanceAs (Decidable (endorsor ≠ 0 ∨ identity ≠ 0))
  | .revoke _ => inferInstanceAs (Decidable True)
  | .update _ _ => inferInstanceAs (Decidable True)

/-- The storage holds the registry: the listed node masters doubly linked from the head slot to
the tail slot, every node master the registry added stored with a non-zero endorsor or identity,
and every other one with nothing but its links. -/
structure Refines (s : Storage A B) (r : Registry A) : Prop where
  nodup : r.listed.Nodup
  head : s.head = r.listed.head?
  tail : s.tail = r.listed.getLast?
  next : ∀ x, (getEntry s x).next = nextOn r.listed x
  prev : ∀ x, (getEntry s x).prev = prevOn r.listed x
  listed_added : ∀ x ∈ r.listed, x ∈ r.added
  filled : ∀ x ∈ r.added, (getEntry s x).endorsor ≠ 0 ∨ (getEntry s x).identity ≠ 0
  absent : ∀ x ∉ r.added,
    (getEntry s x).endorsor = 0 ∧ (getEntry s x).identity = 0 ∧ (getEntry s x).active = false

section Refinement

variable {s : Storage A B} {r : Registry A}

omit [DecidableEq B] in
theorem refines_empty : Refines (Storage.empty : Storage A B) Registry.empty where
  nodup := List.nodup_nil
  head := rfl
  tail := rfl
  next _ := rfl
  prev _ := rfl
  listed_added _ h := absurd h (List.not_mem_nil _)
  filled _ h := absurd h (List.not_mem_nil _)
  absent _ _ := ⟨rfl, rfl, rfl⟩

/-- An entry is empty exactly when the registry never added its node master. -/
theorem Refines.isEmpty_eq (h : Refines s r) (x : A) :
    (getEntry s x).isEmpty = decide (x ∉ r.added) := by
  by_cases hx : x ∈ r.added
  · rw [decide_eq_false (not_not.mpr hx), Bool.eq_false_iff]
    intro he
    have hz := h.filled x hx
    rw [Entry.isEmpty_iff.mp he] at hz
    exact hz.elim (· rfl) (· rfl)
  · have hl : x ∉ r.listed := fun hl => hx (h.listed_added x hl)
    obtain ⟨h₁, h₂, h₃⟩ := h.absent x hx
    simp [Entry.isEmpty, hx, h₁, h₂, h₃, h.next, h.prev, nextOn_of_not_mem hl, prevOn_of_not_mem hl]

omit [DecidableEq B] in
/-- An entry is linked exactly when its node master is listed with a neighbour. -/
theorem Refines.isLinked_eq (h : Refines s r) (x : A) :
    (getEntry s x).isLinked = decide (r.Linked x) := by
  by_cases hx : x ∈ r.listed
  · obtain ⟨L₁, L₂, hL⟩ := List.append_of_mem hx
    have hn := h.nodup
    rw [hL] at hn
    obtain ⟨h₁, h₂, -⟩ := not_mem_of_nodup_middle hn
    simp only [Entry.isLinked, h.next, h.prev, Registry.Linked, hL, nextOn_middle h₁,
      prevOn_middle h₂]
    cases L₁ <;> cases L₂ <;> simp
  · simp [Entry.isLinked, h.next, h.prev, Registry.Linked, hx, nextOn_of_not_mem hx,
      prevOn_of_not_mem hx]

theorem add_refines (h : Refines s r) {x endorsor : A} {identity : B}
    (hv : endorsor ≠ 0 ∨ identity ≠ 0) :
    (add s x endorsor identity).1 = (r.add x).1 ∧
      Refines (add s x endorsor identity).2 (r.add x).2 := by
  by_cases hx : x ∈ r.added
  · rw [add_of_not_isEmpty (by simp [h.isEmpty_eq, hx]), Registry.add, if_pos hx]
    exact ⟨rfl, h⟩
  have hl : x ∉ r.listed := fun hl => hx (h.listed_added x hl)
  obtain ⟨hok, hhead, htail, hget⟩ := add_spec (s := s) (x := x) (by simp [h.isEmpty_eq, hx]) endorsor identity
  rw [Registry.add, if_neg hx]
  refine ⟨hok, ⟨h.nodup.append (List.nodup_singleton x) (List.disjoint_singleton.mpr hl), ?_,
    by simp [htail], fun y => ?_, fun y => ?_, ?_, fun y hy => ?_, fun y hy => ?_⟩⟩
  · rw [hhead, h.tail, h.head]
    cases r.listed <;> simp
  · rw [hget, nextOn_append_singleton h.nodup, h.tail]
    by_cases hy : y = x
    · subst hy
      simp only [if_pos rfl, if_neg fun h' => hl (List.mem_of_getLast?_eq_some h')]
      exact (nextOn_of_not_mem hl).symm
    · split_ifs <;> simp [h.next]
  · rw [hget, prevOn_append_singleton, h.tail]
    split_ifs <;> simp [h.prev]
  · simpa using fun y hy => hy.elim (fun hy => Or.inr (h.listed_added y hy)) Or.inl
  · rw [hget]
    split_ifs with h₁
    · exact hv
    all_goals exact h.filled y ((List.mem_cons.mp hy).resolve_left h₁)
  · rw [List.mem_cons, not_or] at hy
    have : s.tail ≠ some y := by
      rw [h.tail]
      exact fun ht => hy.2 (h.listed_added y (List.mem_of_getLast?_eq_some ht))
    rw [hget, if_neg hy.1, if_neg this]
    exact h.absent y hy.2

theorem revoke_refines (h : Refines s r) (x : A) :
    (revoke s x).1 = (r.revoke x).1 ∧ Refines (revoke s x).2 (r.revoke x).2 := by
  by_cases hx : r.Linked x
  swap
  · rw [revoke_of_not_isLinked (by simp [h.isLinked_eq, hx]), Registry.revoke, if_neg hx]
    exact ⟨rfl, h⟩
  obtain ⟨L₁, L₂, hL⟩ := List.append_of_mem hx.1
  have hn := h.nodup
  rw [hL] at hn
  obtain ⟨h₁, h₂, hnd⟩ := not_mem_of_nodup_middle hn
  have hp : (getEntry s x).prev = L₁.getLast? := by rw [h.prev, hL, prevOn_middle h₂]
  have hn : (getEntry s x).next = L₂.head? := by rw [h.next, hL, nextOn_middle h₁]
  have hxa : x ∈ r.added := h.listed_added x hx.1
  obtain ⟨hok, hhead, htail, hget⟩ := revoke_spec (s := s) (x := x) (by simp [h.isLinked_eq, hx])
  rw [Registry.revoke, if_pos hx, hL, List.erase_append_right _ h₁, List.erase_cons_head]
  refine ⟨hok, ⟨hnd, ?_, ?_, fun y => ?_, fun y => ?_, fun y hy => ?_, fun y hy => ?_,
    fun y hy => ?_⟩⟩
  · rw [hhead, hp, hn, h.head, hL]
    cases L₁ <;> simp
  · rw [htail, hp, hn, h.tail, hL]
    cases L₂ <;> simp [List.getLast?_append]
  · rw [hget]
    by_cases hy : y = x
    · simp [hy, nextOn_of_not_mem (show x ∉ L₁ ++ L₂ by simp [h₁, h₂])]
    · rw [if_neg hy, nextOn_erase_middle (List.nodup_append.mp hnd).1 hy, hp, hn, ← hL, h.next]
  · rw [hget]
    by_cases hy : y = x
    · simp [hy, prevOn_of_not_mem (show x ∉ L₁ ++ L₂ by simp [h₁, h₂])]
    · rw [if_neg hy, prevOn_erase_middle (List.nodup_append.mp hnd).2.1 hy, hp, hn, ← hL, h.prev]
  · exact h.listed_added y (hL ▸ List.mem_append.mpr ((List.mem_append.mp hy).imp id (List.mem_cons_of_mem x)))
  · rw [hget]
    rcases eq_or_ne y x with rfl | hy'
    · rw [if_pos rfl]; exact h.filled y hy
    · rw [if_neg hy']; exact h.filled y hy
  · rw [hget, if_neg (show y ≠ x from fun e => hy (e ▸ hxa))]
    exact h.absent y hy

theorem update_refines (h : Refines s r) (x : A) (active : Bool) :
    (update s x active).1 = (r.update x).1 ∧ Refines (update s x active).2 (r.update x).2 := by
  by_cases hx : r.Linked x
  swap
  · rw [update_of_not_isLinked (by simp [h.isLinked_eq, hx])]
    exact ⟨by simp [Registry.update, hx], h⟩
  have hxa : x ∈ r.added := h.listed_added x hx.1
  rw [update_of_isLinked (by simp [h.isLinked_eq, hx])]
  refine ⟨by simp [Registry.update, hx], ⟨h.nodup, h.head, h.tail, fun y => ?_, fun y => ?_,
    h.listed_added, fun y hy => ?_, fun y hy => ?_⟩⟩
  · rw [getEntry_setEntry]
    split_ifs with hy'
    · subst hy'; exact h.next _
    · exact h.next y
  · rw [getEntry_setEntry]
    split_ifs with hy'
    · subst hy'; exact h.prev _
    · exact h.prev y
  · rw [getEntry_setEntry]
    split_ifs with hy'
    · subst hy'; exact h.filled _ hy
    · exact h.filled y hy
  · rw [getEntry_setEntry, if_neg (show y ≠ x from fun e => hy (e ▸ hxa))]
    exact h.absent y hy

theorem call_refines (h : Refines s r) {c : Call A B} (hv : c.Valid) :
    (s.call c).1 = (r.call c).1 ∧ Refines (s.call c).2 (r.call c).2 := by
  cases c with
  | add x endorsor identity => exact add_refines h hv
  | revoke x => exact revoke_refines h x
  | update x active => exact update_refines h x active

theorem Refines.exec (h : Refines s r) {cs : List (Call A B)} (hv : ∀ c ∈ cs, c.Valid) :
    (s.exec cs).1 = (r.exec cs).1 ∧ Refines (s.exec cs).2 (r.exec cs).2 := by
  induction cs generalizing s r with
  | nil => exact ⟨rfl, h⟩
  | cons c cs ih =>
    obtain ⟨h₁, h₂⟩ := call_refines h (hv c (List.mem_cons_self c cs))
    obtain ⟨h₃, h₄⟩ := ih h₂ fun c' hc' => hv c' (List.mem_cons_of_mem c hc')
    exact ⟨by simp only [Storage.exec, Registry.exec, h₁, h₃], h₄⟩

omit [DecidableEq B] in
/-- `Get` reports a node master listed exactly when the registry lists it. -/
theorem Refines.get_listed (h : Refines s r) (x : A) : (get s x).1 = decide (x ∈ r.listed) := by
  by_cases hl : r.Linked x
  · simp [get, h.isLinked_eq, hl, hl.1]
  · simp only [get, h.isLinked_eq, hl, decide_False, Bool.false_eq_true, if_false, h.head]
    refine decide_eq_decide.mpr ⟨List.mem_of_mem_head?, fun hx => ?_⟩
    rw [not_and_not_right.mp hl hx]; rfl

omit [DecidableEq B] in
/-- Walking from the head slot reads the listed node masters in order. -/
theorem Refines.candidatesFrom_eq (h : Refines s r) {L₁ L₂ : List A} (hL : r.listed = L₁ ++ L₂)
    {fuel : ℕ} (hf : L₂.length ≤ fuel) :
    candidatesFrom s fuel L₂.head? = some (L₂.map fun x => (getEntry s x).toCandidate x) := by
  induction L₂ generalizing L₁ fuel with
  | nil => cases fuel <;> rfl
  | cons y L₂ ih =>
    obtain ⟨n, rfl⟩ : ∃ n, fuel = n + 1 := ⟨fuel - 1, by simp at hf; omega⟩
    have hnd := h.nodup
    rw [hL] at hnd
    have hn : (getEntry s y).next = L₂.head? := by
      rw [h.next, hL, nextOn_middle (not_mem_of_nodup_middle hnd).1]
    rw [List.head?_cons, candidatesFrom, hn,
      ih (show r.listed = (L₁ ++ [y]) ++ L₂ by simp [hL]) (by simpa using hf)]
    rfl

omit [DecidableEq B] in
theorem Refines.allCandidates_eq (h : Refines s r) {fuel : ℕ} (hf : r.listed.length ≤ fuel) :
    allCandidates s fuel = some (r.listed.map fun x => (getEntry s x).toCandidate x) := by
  rw [allCandidates, h.head]
  exact h.candidatesFrom_eq (show r.listed = [] ++ r.listed from rfl) hf

omit [DecidableEq B] in
/-- Walking from a node of the list, `Candidates` keeps the listed nodes from there on whose
endorsor has the endorsement, until it holds `limit`. -/
theorem Refines.candidatesLoop_eq (h : Refines s r) (balance : A → ℕ) (endorsement limit : ℕ)
    {L₁ L₂ : List A} (hL : r.listed = L₁ ++ L₂) {fuel : ℕ} (hf : L₂.length ≤ fuel)
    {acc : List (Candidate A B)} (hacc : acc.length ≤ limit) :
    candidatesLoop s balance endorsement limit fuel L₂.head? acc =
      some ((acc ++ (L₂.map fun x => (getEntry s x).toCandidate x).filter
        fun c => decide (endorsement ≤ balance c.endorsor)).take limit) := by
  induction L₂ generalizing L₁ fuel acc with
  | nil => cases fuel <;> simp [candidatesLoop, List.take_of_length_le hacc]
  | cons y L₂ ih =>
    obtain ⟨n, rfl⟩ : ∃ n, fuel = n + 1 := ⟨fuel - 1, by simp at hf; omega⟩
    have hnd := h.nodup
    rw [hL] at hnd
    have hn : (getEntry s y).next = L₂.head? := by
      rw [h.next, hL, nextOn_middle (not_mem_of_nodup_middle hnd).1]
    rw [List.head?_cons, candidatesLoop]
    by_cases hlim : limit ≤ acc.length
    · rw [if_pos hlim, List.take_left' (le_antisymm hacc hlim)]
    · have hL' : r.listed = (L₁ ++ [y]) ++ L₂ := by simp [hL]
      rw [if_neg hlim]
      dsimp only
      rw [hn]
      by_cases hb : endorsement ≤ balance (getEntry s y).endorsor
      · rw [if_pos hb, ih hL' (by simpa using hf) (by simp; omega)]
        simp [Entry.toCandidate, hb]
      · rw [if_neg hb, ih hL' (by simpa using hf) hacc]
        simp [Entry.toCandidate, hb]

/-- `Add` succeeds only on a node master the registry never added, so never on a listed one. -/
theorem Refines.add_not_listed (h : Refines s r) {x endorsor : A} {identity : B}
    (hok : (add s x endorsor identity).1 = true) : x ∉ r.listed := by
  by_cases he : (getEntry s x).isEmpty
  · rw [h.isEmpty_eq, decide_eq_true_iff] at he
    exact fun hl => he (h.listed_added x hl)
  · rw [add_of_not_isEmpty (by simpa using he)] at hok
    exact absurd hok Bool.false_ne_true

/-- **The candidate list under non-empty entries.** After any calls from empty storage, with a
non-zero endorsor or identity at every `Add`: the calls answer as the registry's do; the storage
holds the registry's list, doubly linked from the head slot to the tail slot; `Get` reports
exactly the listed node masters as listed; `AllCandidates` returns them in order of addition; and
`Add` succeeds on none of them. -/
theorem exec_refines (calls : List (Call A B)) (hv : ∀ c ∈ calls, c.Valid) :
    (Storage.empty.exec calls).1 = (Registry.empty.exec calls).1 ∧
      Refines (Storage.empty.exec calls).2 (Registry.empty.exec calls).2 ∧
      (∀ x, (get (Storage.empty.exec calls).2 x).1 =
        decide (x ∈ (Registry.empty.exec calls).2.listed)) ∧
      allCandidates (Storage.empty.exec calls).2 (Registry.empty.exec calls).2.listed.length =
        some ((Registry.empty.exec calls).2.listed.map
          fun x => (getEntry (Storage.empty.exec calls).2 x).toCandidate x) ∧
      ∀ x endorsor identity, (add (Storage.empty.exec calls).2 x endorsor identity).1 = true →
        x ∉ (Registry.empty.exec calls).2.listed := by
  obtain ⟨hres, h⟩ := refines_empty.exec hv
  exact ⟨hres, h, h.get_listed, h.allCandidates_eq le_rfl, fun _ _ _ => h.add_not_listed⟩

end Refinement

/-! ## Traces

The traces name node masters, endorsors and identities by number: a `Word` is a numbered
address or identity, and word `0` is the zero value that `IsEmpty` tests for. -/

/-- A numbered address or identity. -/
structure Word where
  val : ℕ
  deriving DecidableEq, Repr

instance : Zero Word := ⟨⟨0⟩⟩

/-- Three nodes added with non-zero endorsors, the middle one revoked. -/
def threeCalls : List (Call Word Word) :=
  [.add ⟨1⟩ ⟨5⟩ ⟨0⟩, .add ⟨2⟩ ⟨6⟩ ⟨0⟩, .add ⟨3⟩ ⟨7⟩ ⟨0⟩, .revoke ⟨2⟩]

theorem exec_refines_threeCalls :
    (∀ c ∈ threeCalls, c.Valid) ∧ (Registry.empty.exec threeCalls).2.listed = [⟨1⟩, ⟨3⟩] ∧
      (Storage.empty.exec threeCalls).1 = (Registry.empty.exec threeCalls).1 ∧
      Refines (Storage.empty.exec threeCalls).2 (Registry.empty.exec threeCalls).2 := by
  have hv : ∀ c ∈ threeCalls, c.Valid := by decide
  exact ⟨hv, rfl, (exec_refines threeCalls hv).1, (exec_refines threeCalls hv).2.1⟩


/-! ## A listed node added a second time -/

/-- Node `1` with endorsor and identity `5`, node `2` with both zero; `2` is made inactive and `1`
revoked, which leaves `2` alone on the list with an empty entry. -/
def soleZeroCalls : List (Call Word Word) :=
  [.add ⟨1⟩ ⟨5⟩ ⟨5⟩, .add ⟨2⟩ ⟨0⟩ ⟨0⟩, .update ⟨2⟩ false, .revoke ⟨1⟩]

/-- **A listed node is added again.** After `soleZeroCalls` every call has succeeded and `Get`
reports `2` listed, yet its entry is empty, stored as no bytes, and `Add` takes `2` for new: it
links `2` after the tail, which is `2` itself, so the head's `Prev` names the head. -/
theorem add_relinks_listed :
    (Storage.empty.exec soleZeroCalls).1 = [true, true, true, true] ∧
      (get (Storage.empty.exec soleZeroCalls).2 ⟨2⟩).1 = true ∧
      (add (Storage.empty.exec soleZeroCalls).2 ⟨2⟩ ⟨0⟩ ⟨0⟩).1 = true ∧
      (add (Storage.empty.exec soleZeroCalls).2 ⟨2⟩ ⟨0⟩ ⟨0⟩).2.head = some ⟨2⟩ ∧
      (getEntry (add (Storage.empty.exec soleZeroCalls).2 ⟨2⟩ ⟨0⟩ ⟨0⟩).2 ⟨2⟩).prev = some ⟨2⟩ := by
  decide

/-! ## Candidates by endorsement -/

/-- **`Candidates` agrees with `AllCandidates`.** After any calls from empty storage with a
non-zero endorsor or identity at every `Add`, and for every balance, endorsement and limit,
`Candidates` ends and returns the first `limit` of the candidates `AllCandidates` returns whose
endorsor's balance reaches the endorsement. -/
theorem exec_candidates (calls : List (Call A B)) (hv : ∀ c ∈ calls, c.Valid) (balance : A → ℕ)
    (endorsement limit : ℕ) :
    candidates (Storage.empty.exec calls).2 balance endorsement limit
        (Registry.empty.exec calls).2.listed.length =
      (allCandidates (Storage.empty.exec calls).2 (Registry.empty.exec calls).2.listed.length).map
        fun l => (l.filter fun c => decide (endorsement ≤ balance c.endorsor)).take limit := by
  obtain ⟨-, h⟩ := refines_empty.exec hv
  rw [h.allCandidates_eq le_rfl, candidates, h.head]
  exact h.candidatesLoop_eq balance endorsement limit (show _ = [] ++ _ from rfl) le_rfl
    (Nat.zero_le _)

theorem exec_candidates_threeCalls :
    (∀ c ∈ threeCalls, c.Valid) ∧
      candidates (Storage.empty.exec threeCalls).2 (fun e => if e = ⟨5⟩ then 1 else 9) 5 1 2 =
        (allCandidates (Storage.empty.exec threeCalls).2 2).map
          fun l => (l.filter fun c =>
            decide (5 ≤ (fun e : Word => if e = ⟨5⟩ then 1 else 9) c.endorsor)).take 1 := by
  have hv : ∀ c ∈ threeCalls, c.Valid := by decide
  exact ⟨hv, exec_candidates threeCalls hv _ 5 1⟩

example :
    (candidates (Storage.empty.exec threeCalls).2 (fun e => if e = ⟨5⟩ then 1 else 9) 5 1 2).map
      (·.map Candidate.nodeMaster) = some [⟨3⟩] := by
  decide

end Auworkshareity

end Workshare
