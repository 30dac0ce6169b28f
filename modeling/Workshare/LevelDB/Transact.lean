import Mathlib.Data.List.Basic

/-!
# Backing off between the attempts of a compaction

`compactionTransact` runs a compaction until an attempt succeeds. With backoff enabled, after each
failed attempt it resets the wait to `backoffMin` if the attempt's work counter passed the largest
counter seen so far (`lastCnt`), arms the timer with the wait, and grows the wait: it multiplies
it by `backoffMul` and clamps it at `backoffMax`, as long as it is below `backoffMax`.

The three constants are `time.Duration`s, nanoseconds in an `int64`, and `backoffMul` is
`2 * time.Second`, not `2`. The first growth takes one second to `2 * 10^18` nanoseconds, which
the clamp brings down to `backoffMax`, so the wait goes from one second straight to eight: the
timer is armed with `backoffMin` after the first attempt and after every attempt that made
progress, and with `backoffMax` after every other.

## Implementation notes

Only the backoff variables are modelled: the attempt itself, the error status and the exits on
close are not, as they do not touch them. A work counter (a Go `int` that only increments) is a
natural number. A duration is an integer, and `backoff *= backoffMul` is `int64` multiplication,
which wraps (`mulInt64`); no reachable product wraps.

## Main results

* `failed_spec` — one failed attempt from a wait of `backoffMin` or `backoffMax`
* `armedAll_of_max` — the waits armed from a wait of `backoffMax`, for every run of counters
* `armedAll_init` — the waits armed from the start of `compactionTransact`
-/

namespace Workshare

namespace LevelDB

/-- `backoffMin = 1 * time.Second`, in nanoseconds. -/
def backoffMin : ℤ := 1000000000

/-- `backoffMax = 8 * time.Second`. -/
def backoffMax : ℤ := 8000000000

/-- `backoffMul = 2 * time.Second`. -/
def backoffMul : ℤ := 2000000000

/-- Go's `int64` product: the integer product wrapped into `[-2^63, 2^63)`. -/
def mulInt64 (a b : ℤ) : ℤ :=
  (a * b + 9223372036854775808) % 18446744073709551616 - 9223372036854775808

/-- The variables the retry loop of `compactionTransact` carries from one attempt to the next. -/
structure Backoff where
  backoff : ℤ
  lastCnt : ℕ
  deriving DecidableEq, Repr

namespace Backoff

/-- `backoff = backoffMin`, `lastCnt = 0`. -/
def init : Backoff := ⟨backoffMin, 0⟩

/-- The backoff step after a failed attempt whose counter ended at `cnt`: reset on progress, arm
the timer (the first component is the duration passed to `backoffT.Reset`), and grow the wait. -/
def failed (s : Backoff) (cnt : ℕ) : ℤ × Backoff :=
  let s : Backoff := if s.lastCnt < cnt then ⟨backoffMin, cnt⟩ else s
  let backoff :=
    if s.backoff < backoffMax then
      let b := mulInt64 s.backoff backoffMul
      if backoffMax < b then backoffMax else b
    else s.backoff
  (s.backoff, { s with backoff })

/-- The durations armed after a run of failed attempts with these counters. -/
def armedAll : Backoff → List ℕ → List ℤ
  | _, [] => []
  | s, c :: cs => (s.failed c).1 :: armedAll (s.failed c).2 cs

/-- The largest counter seen after a run of attempts, as `lastCnt` tracks it from `m`. -/
def maxCnt (m : ℕ) : List ℕ → ℕ
  | [] => m
  | c :: cs => maxCnt (if m < c then c else m) cs

/-- The first growth: one second times `backoffMul` is past `backoffMax`, with no wrap. -/
theorem backoffMax_lt_mulInt64 : backoffMax < mulInt64 backoffMin backoffMul := by decide

/-- **One failed attempt** from a wait of `backoffMin` or `backoffMax` arms `backoffMin` on
progress and the wait otherwise, and leaves a wait of `backoffMax` and the larger counter. -/
theorem failed_spec (s : Backoff) (hs : s.backoff = backoffMin ∨ s.backoff = backoffMax)
    (cnt : ℕ) :
    s.failed cnt = (if s.lastCnt < cnt then backoffMin else s.backoff,
      ⟨backoffMax, if s.lastCnt < cnt then cnt else s.lastCnt⟩) := by
  have hgrow := backoffMax_lt_mulInt64
  by_cases hc : s.lastCnt < cnt
  · simp [failed, hc, hgrow, show backoffMin < backoffMax by decide]
  · rcases hs with h | h <;> simp [failed, hc, h, hgrow, show backoffMin < backoffMax by decide]

/-- **Every run from a wait of `backoffMax`**: the `n`-th attempt arms `backoffMin` if its counter
passed every counter before it and `lastCnt`, and `backoffMax` otherwise. -/
theorem armedAll_of_max (l : ℕ) (cs : List ℕ) :
    armedAll ⟨backoffMax, l⟩ cs = (List.range cs.length).map fun n =>
      if maxCnt l (cs.take n) < cs.getD n 0 then backoffMin else backoffMax := by
  induction cs generalizing l with
  | nil => rfl
  | cons c cs ih =>
    rw [armedAll, failed_spec _ (.inr rfl), ih, List.length_cons, List.range_succ_eq_map]
    simp [Function.comp_def, maxCnt]

/-- **The waits of `compactionTransact`**: after failed attempt `n` (from `0`) the timer is armed
with `backoffMin` if `n = 0` or the attempt's counter passed every earlier counter and `0`, and
with `backoffMax` otherwise; it never leaves `[backoffMin, backoffMax]`. -/
theorem armedAll_init (cs : List ℕ) :
    armedAll init cs = ((List.range cs.length).map fun n =>
      if n = 0 ∨ maxCnt 0 (cs.take n) < cs.getD n 0 then backoffMin else backoffMax) ∧
      ∀ d ∈ armedAll init cs, backoffMin ≤ d ∧ d ≤ backoffMax := by
  have hlaw : armedAll init cs = (List.range cs.length).map fun n =>
      if n = 0 ∨ maxCnt 0 (cs.take n) < cs.getD n 0 then backoffMin else backoffMax := by
    cases cs with
    | nil => rfl
    | cons c cs =>
      rw [armedAll, failed_spec _ (.inl rfl), armedAll_of_max, List.length_cons,
        List.range_succ_eq_map]
      simp [Function.comp_def, maxCnt, init]
  refine ⟨hlaw, fun d hd => ?_⟩
  rw [hlaw] at hd
  obtain ⟨n, -, rfl⟩ := List.mem_map.mp hd
  split <;> decide

/-- The law the spec states for the timer, modelled from the spec to be compared with
`armedAll`: after failed attempt `n` the wait is `min (backoffMin * 2^k, backoffMax)`, where `k`
counts the failed attempts since the last one whose counter exceeded every earlier counter. The
arguments are the largest counter so far, if any, and `k` before this attempt. -/
def specArmedLoop : Option ℕ → ℕ → List ℕ → List ℤ
  | _, _, [] => []
  | best, k, c :: cs =>
    let progress := best.all (· < c)
    let k := if progress then 0 else k + 1
    let wait := backoffMin * (Nat.iterate (2 * ·) k 1 : ℕ)
    (if wait ≤ backoffMax then wait else backoffMax) ::
      specArmedLoop (if progress then some c else best) k cs

/-- The spec's law from the start of `compactionTransact`. -/
def specArmed (cs : List ℕ) : List ℤ := specArmedLoop none 0 cs

/-- **The wait jumps from one second to eight.** Two failed attempts whose counters are `1` and
`1`: the second made no progress, so the spec's law arms two seconds, but the code arms
`backoffMax`, since `backoffMul` is two seconds and the first growth is clamped. -/
theorem compactionTransact_backoff_jumps :
    armedAll init [1, 1] = [backoffMin, backoffMax] ∧
      specArmed [1, 1] = [backoffMin, 2 * backoffMin] ∧ 2 * backoffMin < backoffMax := by
  decide

end Backoff

end LevelDB

end Workshare
