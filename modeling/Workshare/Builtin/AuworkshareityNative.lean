import Workshare.Auworkshareity

/-!
# The native methods of the `Auworkshareity` contract

The builtin package binds the contract's native methods to the `Auworkshareity` storage. Each
native charges gas through `env.UseGas`, which panics with `ErrOutOfGas` when less is left, and
then reads or writes the list: `native_get`, `native_add` and `native_revoke` call `Get`, `Add` and
`Revoke`, and `native_isEndorsed` tells whether a listed node master's endorsor holds the proposer
endorsement. The list is read out one node master at a time with `native_first` and
`native_next`. Both answer the zero address where `First` and `Next` answer nothing.

So a caller walking the list from `native_first` through `native_next` until the zero address
sees the listed node masters up to the first zero address among them. A node master listed with
the zero address hides itself and every node master after it (`walk_listed`). `native_isEndorsed`
agrees with `Candidates`: a node master is endorsed exactly when `Candidates`, asked for as many
candidates as are listed, returns it (`isEndorsed_candidates`).

## Implementation notes

A native runs in `NativeM`, which holds the gas left; `none` is the `ErrOutOfGas` that
`Environment.Call` recovers. A native that has written the storage and then runs out of gas
answers `none`; the revert of the write is the EVM's, outside the sources. The gas constants of
the `workshare` package are not among the sources, and are the fields of `GasTable`. The
proposer endorsement is read from `Params`, whose storage is not among the sources either, and is
the argument `endorsement`. Endorsor balances are the function `balance`, as in `Candidates`.
`ParseArgs` and the ABI coding of the output are taken never to fail.

## Main results

* `walk_listed` — the walk by `native_first` and `native_next` returns the listed node masters up
  to the first zero address, and charges `SloadGas` per call
* `isEndorsed_candidates` — `native_isEndorsed` answers whether `Candidates` returns the node master
-/

namespace Workshare

namespace Builtin

open Auworkshareity

/-- The gas constants the natives charge: `SloadGas`, `SstoreSetGas`, `SstoreResetGas` and
`GetBalanceGas`. -/
structure GasTable where
  sloadGas : ℕ
  sstoreSetGas : ℕ
  sstoreResetGas : ℕ
  getBalanceGas : ℕ

/-- A native method: it runs on the gas left, and `none` is out of gas. -/
abbrev NativeM := StateT ℕ Option

/-- `env.UseGas(gas)`: out of gas when less than `gas` is left. -/
def useGas (gas : ℕ) : NativeM Unit := fun left => if gas ≤ left then some ((), left - gas) else none

theorem run_useGas_bind {α : Type} (gas left : ℕ) (k : Unit → NativeM α) :
    (useGas gas >>= k).run left = if gas ≤ left then (k ()).run (left - gas) else none := by
  simp only [StateT.run, bind, StateT.bind, useGas]
  split <;> rfl

@[simp] theorem run_pure {α : Type} (a : α) (left : ℕ) : (pure a : NativeM α).run left = some (a, left) :=
  rfl

variable {A B : Type} [DecidableEq A] [Zero A] [DecidableEq B] [Zero B] (g : GasTable)

/-! ## The natives -/

/-- `native_get`. -/
def nativeGet (s : Storage A B) (nodeMaster : A) : NativeM (Bool × A × B × Bool) := do
  useGas (g.sloadGas * 2)
  return Auworkshareity.get s nodeMaster

/-- `native_add`: the store gas is charged only when `Add` succeeds. -/
def nativeAdd (s : Storage A B) (nodeMaster endorsor : A) (identity : B) :
    NativeM (Bool × Storage A B) := do
  useGas g.sloadGas
  let (ok, s) := add s nodeMaster endorsor identity
  if ok then
    useGas g.sstoreSetGas
    useGas g.sstoreResetGas
  return (ok, s)

/-- `native_revoke`: three resets are charged only when `Revoke` succeeds. -/
def nativeRevoke (s : Storage A B) (nodeMaster : A) : NativeM (Bool × Storage A B) := do
  useGas g.sloadGas
  let (ok, s) := revoke s nodeMaster
  if ok then useGas (g.sstoreResetGas * 3)
  return (ok, s)

/-- `native_first`: the zero address when the list is empty. -/
def nativeFirst (s : Storage A B) : NativeM A := do
  useGas g.sloadGas
  return (first s).getD 0

/-- `native_next`: the zero address when the entry names no next node master. -/
def nativeNext (s : Storage A B) (nodeMaster : A) : NativeM A := do
  useGas g.sloadGas
  return (next s nodeMaster).getD 0

/-- `native_isEndorsed`: a listed node master whose endorsor's balance reaches the endorsement. -/
def nativeIsEndorsed (s : Storage A B) (balance : A → ℕ) (endorsement : ℕ) (nodeMaster : A) :
    NativeM Bool := do
  useGas (g.sloadGas * 2)
  let (listed, endorsor, _, _) := Auworkshareity.get s nodeMaster
  if !listed then return false
  useGas g.getBalanceGas
  let bal := balance endorsor
  useGas g.sloadGas
  return decide (endorsement ≤ bal)

/-! ## Walking the list -/

/-- A caller's walk with the natives from node master `x`: stop at the zero address, else take `x`
and go on from `native_next`, for at most `fuel` node masters. -/
def walkFrom (s : Storage A B) : ℕ → A → NativeM (List A)
  | 0, _ => pure []
  | fuel + 1, x =>
    if x = 0 then pure []
    else do
      let y ← nativeNext g s x
      let rest ← walkFrom s fuel y
      return x :: rest

/-- The walk from `native_first`. -/
def walk (s : Storage A B) (fuel : ℕ) : NativeM (List A) := do
  let x ← nativeFirst g s
  walkFrom g s fuel x

section Walk

variable {s : Storage A B} {r : Registry A}

omit [DecidableEq B] in
/-- From a listed node master on, the walk returns the node masters from there up to the first
zero address, and charges one `SloadGas` for each. -/
theorem walkFrom_eq (h : Refines s r) {L₁ L₂ : List A} (hL : r.listed = L₁ ++ L₂)
    {fuel : ℕ} (hf : L₂.length ≤ fuel) (gas : ℕ) :
    (walkFrom g s fuel (L₂.head?.getD 0)).run gas =
      if (L₂.takeWhile fun x => decide (x ≠ 0)).length * g.sloadGas ≤ gas then
        some (L₂.takeWhile fun x => decide (x ≠ 0),
          gas - (L₂.takeWhile fun x => decide (x ≠ 0)).length * g.sloadGas)
      else none := by
  induction L₂ generalizing L₁ fuel gas with
  | nil => cases fuel <;> simp [walkFrom]
  | cons y L₂ ih =>
    obtain ⟨n, rfl⟩ : ∃ n, fuel = n + 1 := ⟨fuel - 1, by simp at hf; omega⟩
    by_cases hy : y = 0
    · simp [walkFrom, hy]
    · have hnd := h.nodup
      rw [hL] at hnd
      have hn : (next s y).getD 0 = L₂.head?.getD 0 := by
        rw [next, h.next, hL, nextOn_middle (not_mem_of_nodup_middle hnd).1]
      have ih' := ih (show r.listed = (L₁ ++ [y]) ++ L₂ by simp [hL]) (by simpa using hf)
      simp only [List.head?_cons, Option.getD_some, walkFrom, if_neg hy, nativeNext, bind_assoc,
        run_useGas_bind, pure_bind, hn]
      have htw : (y :: L₂).takeWhile (fun x => decide (x ≠ 0)) =
          y :: L₂.takeWhile fun x => decide (x ≠ 0) :=
        List.takeWhile_cons_of_pos (by simpa using hy)
      simp only [StateT.run_bind, ih', htw, List.length_cons, Nat.succ_mul]
      by_cases hg : g.sloadGas ≤ gas
      · by_cases hw : (L₂.takeWhile fun x => decide (x ≠ 0)).length * g.sloadGas ≤ gas - g.sloadGas
        · rw [if_pos hg, if_pos hw, if_pos (by omega), Nat.sub_sub, Nat.add_comm g.sloadGas]
          rfl
        · rw [if_pos hg, if_neg hw, if_neg (by omega)]
          rfl
      · rw [if_neg hg, if_neg (by omega)]

omit [DecidableEq B] in
theorem walk_eq (h : Refines s r) (gas : ℕ) :
    (walk g s r.listed.length).run gas =
      if ((r.listed.takeWhile fun x => decide (x ≠ 0)).length + 1) * g.sloadGas ≤ gas then
        some (r.listed.takeWhile fun x => decide (x ≠ 0),
          gas - ((r.listed.takeWhile fun x => decide (x ≠ 0)).length + 1) * g.sloadGas)
      else none := by
  have hw := walkFrom_eq g h (show r.listed = [] ++ r.listed from rfl) le_rfl
  simp only [walk, nativeFirst, bind_assoc, run_useGas_bind, pure_bind, first, h.head, hw,
    Nat.succ_mul]
  by_cases hg : g.sloadGas ≤ gas
  · by_cases hr : (r.listed.takeWhile fun x => decide (x ≠ 0)).length * g.sloadGas ≤ gas - g.sloadGas
    · rw [if_pos hg, if_pos hr, if_pos (by omega), Nat.sub_sub, Nat.add_comm g.sloadGas]
    · rw [if_pos hg, if_neg hr, if_neg (by omega)]
  · rw [if_neg hg, if_neg (by omega)]

end Walk

/-- **The natives walk the list up to the first zero address.** After any calls on the contract from
empty storage, with a non-zero endorsor or identity at every `Add`, a caller that starts from
`native_first` and follows `native_next` until the zero address gets the listed node masters in
order up to the first zero address among them. It pays one `SloadGas` per call, and runs out of gas
exactly when less than that is left. -/
theorem walk_listed (calls : List (Call A B)) (hv : ∀ c ∈ calls, c.Valid) (gas : ℕ) :
    (walk g (Storage.empty.exec calls).2 (Registry.empty.exec calls).2.listed.length).run gas =
      if (((Registry.empty.exec calls).2.listed.takeWhile fun x => decide (x ≠ 0)).length + 1) *
          g.sloadGas ≤ gas then
        some ((Registry.empty.exec calls).2.listed.takeWhile fun x => decide (x ≠ 0),
          gas - (((Registry.empty.exec calls).2.listed.takeWhile fun x => decide (x ≠ 0)).length + 1) *
            g.sloadGas)
      else none :=
  walk_eq g (refines_empty.exec hv).2 gas

/-- Node masters `1`, `0` and `3`, each with a non-zero endorsor. -/
def zeroMidCalls : List (Call Word Word) :=
  [.add ⟨1⟩ ⟨5⟩ ⟨0⟩, .add ⟨0⟩ ⟨6⟩ ⟨0⟩, .add ⟨3⟩ ⟨7⟩ ⟨0⟩]

/-- The gas constants of the `workshare` package. -/
def workshareGas : GasTable := ⟨200, 20000, 5000, 400⟩

theorem walk_listed_zeroMid :
    (∀ c ∈ zeroMidCalls, c.Valid) ∧
      (walk workshareGas (Storage.empty.exec zeroMidCalls).2 3).run 1000 = some ([⟨1⟩], 600) := by
  have hv : ∀ c ∈ zeroMidCalls, c.Valid := by decide
  exact ⟨hv, walk_listed workshareGas zeroMidCalls hv 1000⟩

/-! ## `native_isEndorsed` and `Candidates` -/

omit [DecidableEq B] in
/-- `Get` reports the entry's endorsor, identity and active flag, listed or not. -/
theorem get_eq_entry (s : Storage A B) (nodeMaster : A) :
    Auworkshareity.get s nodeMaster = ((Auworkshareity.get s nodeMaster).1,
      (getEntry s nodeMaster).endorsor, (getEntry s nodeMaster).identity,
      (getEntry s nodeMaster).active) := by
  unfold Auworkshareity.get
  dsimp only
  split <;> rfl

omit [DecidableEq A] [DecidableEq B] in
/-- The node masters among the candidates with the endorsement. -/
theorem mem_candidates_iff {s : Storage A B} {L : List A} {balance : A → ℕ} {endorsement : ℕ}
    {nodeMaster : A} :
    nodeMaster ∈ ((L.map fun x => (getEntry s x).toCandidate x).filter
        fun c => decide (endorsement ≤ balance c.endorsor)).map Candidate.nodeMaster ↔
      nodeMaster ∈ L ∧ endorsement ≤ balance (getEntry s nodeMaster).endorsor := by
  simp only [List.mem_map, List.mem_filter, decide_eq_true_eq]
  constructor
  · rintro ⟨_, ⟨⟨x, hx, rfl⟩, hb⟩, rfl⟩
    exact ⟨hx, hb⟩
  · rintro ⟨hx, hb⟩
    exact ⟨_, ⟨⟨nodeMaster, hx, rfl⟩, hb⟩, rfl⟩

/-- **`native_isEndorsed` agrees with `Candidates`.** After any calls on the contract from empty
storage, with a non-zero endorsor or identity at every `Add`, `Candidates(endorsement, n)` for
the number `n` of listed node masters returns, and `native_isEndorsed` answers whether it
returned the node master. It charges `2 * SloadGas`, and `GetBalanceGas + SloadGas` more for a
listed node master, and runs out of gas exactly when less than that is left. -/
theorem isEndorsed_candidates (calls : List (Call A B)) (hv : ∀ c ∈ calls, c.Valid)
    (balance : A → ℕ) (endorsement : ℕ) (nodeMaster : A) (gas : ℕ) :
    ∃ cands, candidates (Storage.empty.exec calls).2 balance endorsement
        (Registry.empty.exec calls).2.listed.length (Registry.empty.exec calls).2.listed.length =
          some cands ∧
      (nativeIsEndorsed g (Storage.empty.exec calls).2 balance endorsement nodeMaster).run gas =
        if g.sloadGas * 2 + (if nodeMaster ∈ (Registry.empty.exec calls).2.listed then
            g.getBalanceGas + g.sloadGas else 0) ≤ gas then
          some (decide (nodeMaster ∈ cands.map Candidate.nodeMaster),
            gas - (g.sloadGas * 2 + if nodeMaster ∈ (Registry.empty.exec calls).2.listed then
              g.getBalanceGas + g.sloadGas else 0))
        else none := by
  obtain ⟨-, h⟩ := refines_empty.exec hv
  have hc := h.candidatesLoop_eq balance endorsement (Registry.empty.exec calls).2.listed.length
    (show _ = [] ++ _ from rfl) le_rfl (show ([] : List (Candidate A B)).length ≤ _ from Nat.zero_le _)
  rw [List.nil_append,
    List.take_of_length_le ((List.length_filter_le _ _).trans (List.length_map _ _).le)] at hc
  refine ⟨_, by rw [candidates, h.head]; exact hc, ?_⟩
  have hget : Auworkshareity.get (Storage.empty.exec calls).2 nodeMaster =
      (decide (nodeMaster ∈ (Registry.empty.exec calls).2.listed),
        (getEntry (Storage.empty.exec calls).2 nodeMaster).endorsor,
        (getEntry (Storage.empty.exec calls).2 nodeMaster).identity,
        (getEntry (Storage.empty.exec calls).2 nodeMaster).active) := by
    rw [get_eq_entry, h.get_listed]
  simp only [nativeIsEndorsed, bind_assoc, run_useGas_bind, hget, mem_candidates_iff]
  by_cases hl : nodeMaster ∈ (Registry.empty.exec calls).2.listed
  · simp only [hl, decide_True, Bool.not_true, Bool.false_eq_true, if_false, if_true, true_and,
      run_useGas_bind, pure_bind, run_pure]
    by_cases h₁ : g.sloadGas * 2 ≤ gas
    · by_cases h₂ : g.getBalanceGas ≤ gas - g.sloadGas * 2
      · by_cases h₃ : g.sloadGas ≤ gas - g.sloadGas * 2 - g.getBalanceGas
        · rw [if_pos h₁, if_pos h₂, if_pos h₃, if_pos (by omega), Nat.sub_sub, Nat.sub_sub]
        · rw [if_pos h₁, if_pos h₂, if_neg h₃, if_neg (by omega)]
      · rw [if_pos h₁, if_neg h₂, if_neg (by omega)]
    · rw [if_neg h₁, if_neg (by omega)]
  · simp only [hl, decide_False, Bool.not_false, if_true, if_false, false_and, Nat.add_zero,
      pure_bind, run_pure]

theorem isEndorsed_candidates_threeCalls :
    (∀ c ∈ threeCalls, c.Valid) ∧
      ∃ cands, candidates (Storage.empty.exec threeCalls).2 (fun e => if e = ⟨5⟩ then 1 else 9) 5
          (Registry.empty.exec threeCalls).2.listed.length
          (Registry.empty.exec threeCalls).2.listed.length = some cands ∧
        (nativeIsEndorsed workshareGas (Storage.empty.exec threeCalls).2
            (fun e => if e = ⟨5⟩ then 1 else 9) 5 ⟨3⟩).run 1000 =
          if workshareGas.sloadGas * 2 + (if (⟨3⟩ : Word) ∈ (Registry.empty.exec threeCalls).2.listed
              then workshareGas.getBalanceGas + workshareGas.sloadGas else 0) ≤ 1000 then
            some (decide ((⟨3⟩ : Word) ∈ cands.map Candidate.nodeMaster),
              1000 - (workshareGas.sloadGas * 2 +
                if (⟨3⟩ : Word) ∈ (Registry.empty.exec threeCalls).2.listed then
                  workshareGas.getBalanceGas + workshareGas.sloadGas else 0))
          else none := by
  have hv : ∀ c ∈ threeCalls, c.Valid := by decide
  exact ⟨hv, isEndorsed_candidates workshareGas threeCalls hv _ 5 ⟨3⟩ 1000⟩

end Builtin

end Workshare
