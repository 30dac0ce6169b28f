import Workshare.LevelDB.ErrorStatus

/-!
# The table compaction goroutine and its commands

A compaction is requested by a command on a goroutine's command channel: `cAuto` asks for an
automatic compaction, and with an ack channel (`compTriggerWait`) waits for it; `cRange`
(`compTriggerRange`) asks for the compaction of a key range and waits for its error. A command
answers its requester with `ack`, which sends on the ack channel if there is one.

`tCompaction` serves table compactions in a loop. At its head it asks `tableNeedCompaction`. If a
compaction is needed, its `select` takes a command, a pause request from `memCompaction`, or the
close, or goes on at once (`default`), and then, if writes can resume, answers the waiting
commands. If none is needed, it answers every waiting command first and blocks in the `select`.
A `cAuto` with an ack channel is answered at once if writes can resume (`resumeWrite`: level 0
is below the write-pause trigger), and kept in `waitQ` otherwise; a `cRange` is answered with the
error of `tableRangeCompaction`. Each pass ends with `tableAutoCompaction`. When the goroutine
ends, by returning or by the panic of `compactionExitTransact`, its deferred function answers
every waiting command, and the command it was serving, with `ErrClosed`.

## Implementation notes

What a pass asks of the rest of the DB (`tableNeedCompaction`, `resumeWrite`, the case the
`select` takes, and whether `tableRangeCompaction` and `tableAutoCompaction` return or exit) is a
`TRound`. `pauseCompaction` is two events: the `select` takes the pause request and the goroutine
blocks sending on the resume channel, until `memCompaction` takes that send (`resume`) or
`closeC` is closed (`pauseClosed`). An ack channel is a number, and `ErrClosed` is one of the
other errors. `acks` records every `ack` the goroutine makes, with its command and its error, in
order; `waitQ` is emptied on exit, when no command waits any more.

## Main results

* `TState.Inv.step` — `waitQ` holds only commands that wait, and is empty once the loop exits
* `TState.step_answered` — what one event answers or queues
* `tCompaction_acks_once` — every command with an ack channel is answered once, with its range
  compaction's error, `nil` or `ErrClosed`, and is answered or waiting, never both
-/

namespace Workshare

namespace LevelDB

variable {K : Type}

/-- `ErrClosed`, one of the other errors. -/
def errClosed : CompErr := .other 0

/-- A compaction command, with the channel its `ack` sends on, if any. -/
inductive CCmd (K : Type)
  /-- `cAuto{ackC}`: with an ack channel, a command that waits for the compaction. -/
  | cAuto (ackC : Option ℕ)
  /-- `cRange{level, min, max, ackC}`: compact the user keys from `umin` to `umax`. -/
  | cRange (level : ℤ) (umin umax : Option K) (ackC : Option ℕ)
  deriving DecidableEq, Repr

namespace CCmd

/-- The command's `ackC`. -/
def ackC : CCmd K → Option ℕ
  | .cAuto ackC | .cRange _ _ _ ackC => ackC

/-- `cAuto.ack` and `cRange.ack`: send `err` on the ack channel, if there is one (a send to a
requester that has gone panics and is recovered). `acks` is the log of every ack made. -/
def ack (x : CCmd K) (err : Option CompErr) (acks : List (CCmd K × Option CompErr)) :
    List (CCmd K × Option CompErr) :=
  if x.ackC.isSome then acks ++ [(x, err)] else acks

/-- A `cAuto` with an ack channel, the commands `tCompaction` keeps waiting. -/
def waits : CCmd K → Bool
  | .cAuto ackC => ackC.isSome
  | .cRange .. => false

theorem ackC_isSome_of_waits {x : CCmd K} (h : x.waits) : x.ackC.isSome := by
  cases x <;> simp_all [waits, ackC]

end CCmd

/-- `for i := range waitQ { waitQ[i].ack(err) }`. -/
def ackAll (err : Option CompErr) :
    List (CCmd K) → List (CCmd K × Option CompErr) → List (CCmd K × Option CompErr)
  | [], acks => acks
  | x :: xs, acks => ackAll err xs (x.ack err acks)

theorem ackAll_eq (err : Option CompErr) (xs : List (CCmd K)) (acks : List (CCmd K × Option CompErr)) :
    ackAll err xs acks = acks ++ (xs.filter fun x => x.ackC.isSome).map (·, err) := by
  induction xs generalizing acks with
  | nil => simp [ackAll]
  | cons x xs ih => by_cases h : x.ackC.isSome <;> simp [ackAll, ih, CCmd.ack, h]

/-- Where `tCompaction` is: at the head of its loop, blocked in `pauseCompaction`, or ended. -/
inductive TPc
  | top
  | paused
  | exited
  deriving DecidableEq, Repr

/-- The state of `tCompaction` between events. -/
structure TState (K : Type) where
  pc : TPc
  waitQ : List (CCmd K)
  acks : List (CCmd K × Option CompErr)
  deriving DecidableEq, Repr

/-- The case the loop's `select` takes. -/
inductive TSelect (K : Type)
  /-- `x = <-db.tcompCmdC`. -/
  | cmd (x : CCmd K)
  /-- `ch := <-db.tcompPauseC`. -/
  | pause
  /-- `<-db.closeC`. -/
  | close
  /-- `default:`, only when a compaction is needed. -/
  | idle
  deriving DecidableEq, Repr

/-- What one pass through the loop finds. -/
structure TRound (K : Type) where
  /-- `db.tableNeedCompaction()`. -/
  need : Bool
  sel : TSelect K
  /-- `db.resumeWrite()` before answering the waiting commands, when a compaction is needed. -/
  resumeQ : Bool
  /-- `db.resumeWrite()` for a `cAuto` with an ack channel. -/
  resumeX : Bool
  /-- What `db.tableRangeCompaction` returns for a `cRange`, or `none` if it exits. -/
  range : Option (Option CompErr)
  /-- Whether `db.tableAutoCompaction()` returns rather than exits. -/
  autoDone : Bool
  deriving DecidableEq, Repr

/-- An event of `tCompaction`. -/
inductive TEvent (K : Type)
  /-- A pass through the loop from its head. -/
  | round (r : TRound K)
  /-- `memCompaction` takes the send of `pauseCompaction` on its resume channel. -/
  | resume
  /-- `pauseCompaction` takes `<-db.closeC`. -/
  | pauseClosed
  deriving DecidableEq, Repr

namespace TEvent

/-- The command the event takes from `db.tcompCmdC`, if any. -/
def received : TEvent K → Option (CCmd K)
  | .round ⟨_, .cmd x, _, _, _, _⟩ => some x
  | _ => none

/-- A `cRange` the event takes, with the error its range compaction returns, if it returns. -/
def rangeResult : TEvent K → Option (CCmd K × Option CompErr)
  | .round ⟨_, .cmd (.cRange level umin umax ackC), _, _, some err, _⟩ =>
    some (.cRange level umin umax ackC, err)
  | _ => none

end TEvent

namespace TState

/-- The loop starts at its head, with no waiting command. -/
def init : TState K := ⟨.top, [], []⟩

/-- Answer every waiting command with `nil` and empty `waitQ`. -/
def releaseWaitQ (s : TState K) : TState K :=
  { s with waitQ := [], acks := ackAll none s.waitQ s.acks }

/-- The deferred function of `tCompaction`, with the command `x` it was serving: answer every
waiting command, and `x`, with `ErrClosed`. -/
def exit (s : TState K) (x : Option (CCmd K)) : TState K :=
  let acks := ackAll (some errClosed) s.waitQ s.acks
  { pc := .exited, waitQ := [],
    acks := match x with
      | some x => x.ack (some errClosed) acks
      | none => acks }

/-- `db.tableAutoCompaction()`, which ends the pass or exits. -/
def autoCompaction (s : TState K) (r : TRound K) : TState K :=
  if r.autoDone then s else s.exit none

/-- Serve the command the `select` took, if any, then `tableAutoCompaction`. -/
def serve (s : TState K) (r : TRound K) : Option (CCmd K) → TState K
  | none => s.autoCompaction r
  | some x =>
    match x with
    | .cAuto ackC =>
      (if ackC.isSome then
        -- check the write pause state before caching it
        if r.resumeX then { s with acks := x.ack none s.acks } else { s with waitQ := s.waitQ ++ [x] }
      else s).autoCompaction r
    | .cRange .. =>
      match r.range with
      | some err => { s with acks := x.ack err s.acks }.autoCompaction r
      | none => s.exit (some x)

/-- One pass through the loop from its head; `none` where the goroutine is not at the head, or
where its `select` has no ready case. -/
def round (s : TState K) (r : TRound K) : Option (TState K) :=
  if s.pc = .top then
    if r.need then
      -- resume write operation as soon as possible
      let resumed := if !s.waitQ.isEmpty && r.resumeQ then s.releaseWaitQ else s
      match r.sel with
      | .cmd x => some (resumed.serve r (some x))
      | .pause => some { s with pc := .paused }
      | .close => some (s.exit none)
      | .idle => some (resumed.serve r none)
    else
      let s := s.releaseWaitQ
      match r.sel with
      | .cmd x => some (s.serve r (some x))
      | .pause => some { s with pc := .paused }
      | .close => some (s.exit none)
      | .idle => none
  else none

/-- The events the goroutine takes in state `s`. -/
def step (s : TState K) : TEvent K → Option (TState K)
  | .round r => s.round r
  | .resume => if s.pc = .paused then some { s with pc := .top } else none
  | .pauseClosed => if s.pc = .paused then some (s.exit none) else none

/-- The state after a run of events, if the goroutine takes every one. -/
def run (s : TState K) : List (TEvent K) → Option (TState K)
  | [] => some s
  | ev :: evs => (s.step ev).bind fun s => s.run evs

@[simp] theorem run_nil (s : TState K) : s.run [] = some s := rfl

theorem run_cons {s s' : TState K} {ev : TEvent K} {evs : List (TEvent K)} :
    s.run (ev :: evs) = some s' ↔ ∃ s₁, s.step ev = some s₁ ∧ s₁.run evs = some s' := by
  simp [run, Option.bind_eq_some]

theorem run_append {s s' : TState K} {evs evs' : List (TEvent K)} :
    s.run (evs ++ evs') = some s' ↔ ∃ s₁, s.run evs = some s₁ ∧ s₁.run evs' = some s' := by
  induction evs generalizing s with
  | nil => simp
  | cons ev evs ih =>
    simp only [List.cons_append, run_cons, ih]
    exact ⟨fun ⟨a, ha, b, hb, hc⟩ => ⟨b, ⟨a, ha, hb⟩, hc⟩, fun ⟨b, ⟨a, ha, hb⟩, hc⟩ => ⟨a, ha, b, hb, hc⟩⟩

/-! ### Waiting commands -/

/-- `waitQ` holds only commands that wait, and is empty once the loop has ended. -/
structure Inv (s : TState K) : Prop where
  waits : ∀ x ∈ s.waitQ, x.waits
  exited : s.pc = .exited → s.waitQ = []

theorem inv_init : (init : TState K).Inv := ⟨nofun, fun _ => rfl⟩

section Steps

variable {s : TState K}

theorem Inv.exit (x : Option (CCmd K)) : (s.exit x).Inv := ⟨nofun, fun _ => rfl⟩

theorem inv_releaseWaitQ (s : TState K) : s.releaseWaitQ.Inv := ⟨nofun, fun _ => rfl⟩

theorem Inv.autoCompaction {s : TState K} (hs : s.Inv) (r : TRound K) :
    (s.autoCompaction r).Inv := by
  unfold TState.autoCompaction
  split
  · exact hs
  · exact Inv.exit none

theorem Inv.withAcks (hs : s.Inv) (acks : List (CCmd K × Option CompErr)) :
    Inv { s with acks } := ⟨hs.1, hs.2⟩

theorem Inv.push (hs : s.Inv) (hpc : s.pc = .top) {x : CCmd K} (hx : x.waits) :
    Inv { s with waitQ := s.waitQ ++ [x] } := by
  refine ⟨fun y hy => ?_, by simp [hpc]⟩
  rcases List.mem_append.1 hy with hy | hy
  · exact hs.waits y hy
  · rwa [List.mem_singleton.1 hy]

theorem Inv.serve (hs : s.Inv) (hpc : s.pc = .top) (r : TRound K) (x : Option (CCmd K)) :
    (s.serve r x).Inv := by
  rcases x with _ | ⟨ackC⟩ | ⟨level, umin, umax, ackC⟩
  · exact hs.autoCompaction r
  · simp only [TState.serve]
    refine Inv.autoCompaction ?_ r
    split_ifs with ha
    · exact hs.withAcks _
    · exact hs.push hpc ha
    · exact hs
  · simp only [TState.serve]
    split
    · exact (hs.withAcks _).autoCompaction r
    · exact Inv.exit _

end Steps

theorem Inv.round {s s' : TState K} (hs : s.Inv) {r : TRound K} (h : s.round r = some s') :
    s'.Inv := by
  unfold TState.round at h
  by_cases hpc : s.pc = .top
  swap
  · simp [hpc] at h
  by_cases hneed : r.need = true
  · rw [if_pos hpc, if_pos hneed] at h
    -- the waiting commands are answered, or not, before the command is served
    have hres : (if !s.waitQ.isEmpty && r.resumeQ then s.releaseWaitQ else s).Inv ∧
        (if !s.waitQ.isEmpty && r.resumeQ then s.releaseWaitQ else s).pc = .top := by
      split
      · exact ⟨inv_releaseWaitQ s, hpc⟩
      · exact ⟨hs, hpc⟩
    cases hsel : r.sel <;> simp only [hsel, Option.some.injEq] at h <;> subst h
    · exact hres.1.serve hres.2 r _
    · exact ⟨hs.1, nofun⟩
    · exact Inv.exit none
    · exact hres.1.serve hres.2 r none
  · rw [if_pos hpc, if_neg hneed] at h
    cases hsel : r.sel <;> simp only [hsel, Option.some.injEq, reduceCtorEq] at h <;> subst h
    · exact (inv_releaseWaitQ s).serve hpc r _
    · exact ⟨nofun, nofun⟩
    · exact Inv.exit none

/-- **Every event keeps the invariant.** -/
theorem Inv.step {s s' : TState K} (hs : s.Inv) {ev : TEvent K} (h : s.step ev = some s') :
    s'.Inv := by
  cases ev with
  | round r => exact hs.round h
  | resume =>
    simp only [TState.step, Option.ite_none_right_eq_some, Option.some.injEq] at h
    obtain ⟨-, rfl⟩ := h
    exact ⟨hs.1, nofun⟩
  | pauseClosed =>
    simp only [TState.step, Option.ite_none_right_eq_some, Option.some.injEq] at h
    obtain ⟨-, rfl⟩ := h
    exact Inv.exit none

theorem Inv.run {s s' : TState K} (hs : s.Inv) {evs : List (TEvent K)} (h : s.run evs = some s') :
    s'.Inv := by
  induction evs generalizing s with
  | nil => cases h; exact hs
  | cons ev evs ih =>
    obtain ⟨s₁, h₁, h⟩ := run_cons.1 h
    exact ih (hs.step h₁) h

/-! ### Where a pass ends -/

theorem serve_pc {s : TState K} (r : TRound K) (x : Option (CCmd K)) :
    (s.serve r x).pc = s.pc ∨ (s.serve r x).pc = .exited := by
  have hauto : ∀ t : TState K, (t.autoCompaction r).pc = t.pc ∨ (t.autoCompaction r).pc = .exited :=
    fun t => by unfold TState.autoCompaction; split <;> simp [TState.exit]
  rcases x with _ | ⟨ackC⟩ | ⟨level, umin, umax, ackC⟩
  · exact hauto s
  · simp only [TState.serve]
    split_ifs <;> exact hauto _
  · simp only [TState.serve]
    split
    · exact hauto _
    · exact .inr rfl

/-- A pass starts at the loop's head and ends blocked in `pauseCompaction` exactly when its
`select` took a pause request. -/
theorem round_pc {s s' : TState K} {r : TRound K} (h : s.round r = some s') :
    s.pc = .top ∧ (s'.pc = .paused ↔ r.sel = .pause) := by
  unfold TState.round at h
  by_cases hpc : s.pc = .top
  swap
  · simp [hpc] at h
  refine ⟨hpc, ?_⟩
  have hserve : ∀ (t : TState K) x, t.pc = .top → (t.serve r x).pc ≠ .paused := fun t x ht => by
    rcases serve_pc (s := t) r x with h | h <;> rw [h] <;> simp [ht]
  obtain ⟨need, sel, resumeQ, resumeX, range, autoDone⟩ := r
  by_cases hneed : need = true
  · rw [if_pos hpc, if_pos hneed] at h
    have hres : (if !s.waitQ.isEmpty && resumeQ then s.releaseWaitQ else s).pc = .top := by
      split <;> exact hpc
    cases sel <;> simp only [Option.some.injEq] at h <;> subst h
    · simpa using hserve _ _ hres
    · simp
    · simp [TState.exit]
    · simpa using hserve _ _ hres
  · rw [if_pos hpc, if_neg hneed] at h
    cases sel <;> simp only [Option.some.injEq, reduceCtorEq] at h <;> subst h
    · simpa using hserve s.releaseWaitQ _ hpc
    · simp
    · simp [TState.exit]

/-! ### Answered or waiting -/

/-- The commands answered so far, then those waiting. -/
def ledger (s : TState K) : List (CCmd K) := s.acks.map Prod.fst ++ s.waitQ

/-- The commands of `xs` that have an ack channel. -/
def ackable (xs : List (CCmd K)) : List (CCmd K) := xs.filter fun x => x.ackC.isSome

@[simp] theorem ackable_nil : ackable ([] : List (CCmd K)) = [] := rfl

theorem ackable_append (xs ys : List (CCmd K)) : ackable (xs ++ ys) = ackable xs ++ ackable ys :=
  List.filter_append _ _

section Ledger

variable {s : TState K}

theorem Inv.ackable_waitQ (hs : s.Inv) : ackable s.waitQ = s.waitQ :=
  List.filter_eq_self.2 fun x hx => CCmd.ackC_isSome_of_waits (hs.waits x hx)

theorem map_fst_ack (x : CCmd K) (err : Option CompErr) (acks : List (CCmd K × Option CompErr)) :
    (x.ack err acks).map Prod.fst = acks.map Prod.fst ++ ackable [x] := by
  by_cases h : x.ackC.isSome <;> simp [CCmd.ack, ackable, h]

theorem map_fst_ackAll (err : Option CompErr) (xs : List (CCmd K))
    (acks : List (CCmd K × Option CompErr)) :
    (ackAll err xs acks).map Prod.fst = acks.map Prod.fst ++ ackable xs := by
  simp [ackAll_eq, ackable, Function.comp_def]

theorem Inv.ledger_releaseWaitQ (hs : s.Inv) : s.releaseWaitQ.ledger = s.ledger := by
  simp [ledger, releaseWaitQ, map_fst_ackAll, hs.ackable_waitQ]

theorem Inv.ledger_exit (hs : s.Inv) (x : Option (CCmd K)) :
    (s.exit x).ledger = s.ledger ++ ackable x.toList := by
  rcases x with _ | x <;> simp [ledger, TState.exit, map_fst_ack, map_fst_ackAll, hs.ackable_waitQ]

theorem Inv.ledger_autoCompaction (hs : s.Inv) (r : TRound K) :
    (s.autoCompaction r).ledger = s.ledger := by
  unfold TState.autoCompaction
  split
  · rfl
  · simp [hs.ledger_exit]

theorem Inv.ledger_serve (hs : s.Inv) (hpc : s.pc = .top) (r : TRound K) (x : Option (CCmd K)) :
    List.Perm (s.serve r x).ledger (s.ledger ++ ackable x.toList) := by
  rcases x with _ | ⟨ackC⟩ | ⟨level, umin, umax, ackC⟩
  · simp [TState.serve, hs.ledger_autoCompaction]
  · simp only [TState.serve]
    by_cases ha : ackC.isSome
    · by_cases hx : r.resumeX
      · -- answered at once
        rw [if_pos ha, if_pos hx, (hs.withAcks _).ledger_autoCompaction]
        simp only [ledger, map_fst_ack, ackable, List.filter_singleton, CCmd.ackC, ha, cond_true,
          Option.toList_some, List.append_assoc]
        exact List.Perm.append_left _ List.perm_append_comm
      · -- kept waiting
        rw [if_pos ha, if_neg hx,
          (hs.push hpc (show (CCmd.cAuto ackC : CCmd K).waits from ha)).ledger_autoCompaction]
        simp [ledger, ackable, CCmd.ackC, ha]
    · rw [if_neg ha, hs.ledger_autoCompaction]
      simp [ackable, CCmd.ackC, ha]
  · simp only [TState.serve]
    split
    · rw [(hs.withAcks _).ledger_autoCompaction]
      simpa [ledger, map_fst_ack] using List.Perm.append_left _ List.perm_append_comm
    · rw [hs.ledger_exit]

theorem Inv.ledger_round (hs : s.Inv) {r : TRound K} {s' : TState K}
    (h : s.round r = some s') :
    List.Perm s'.ledger (s.ledger ++ ackable (TEvent.round r).received.toList) := by
  unfold TState.round at h
  by_cases hpc : s.pc = .top
  swap
  · simp [hpc] at h
  by_cases hneed : r.need = true
  · rw [if_pos hpc, if_pos hneed] at h
    have hres : (if !s.waitQ.isEmpty && r.resumeQ then s.releaseWaitQ else s).Inv ∧
        (if !s.waitQ.isEmpty && r.resumeQ then s.releaseWaitQ else s).pc = .top ∧
        (if !s.waitQ.isEmpty && r.resumeQ then s.releaseWaitQ else s).ledger = s.ledger := by
      split
      · exact ⟨inv_releaseWaitQ s, hpc, hs.ledger_releaseWaitQ⟩
      · exact ⟨hs, hpc, rfl⟩
    obtain ⟨hi, hp, hl⟩ := hres
    obtain ⟨need, sel, resumeQ, resumeX, range, autoDone⟩ := r
    cases sel <;> simp only [Option.some.injEq] at h <;> subst h
    · simpa only [hl] using hi.ledger_serve hp _ _
    · simp [ledger, TEvent.received]
    · simp [hs.ledger_exit, TEvent.received]
    · simpa only [hl] using hi.ledger_serve hp _ none
  · rw [if_pos hpc, if_neg hneed] at h
    obtain ⟨need, sel, resumeQ, resumeX, range, autoDone⟩ := r
    cases sel <;> simp only [Option.some.injEq, reduceCtorEq] at h <;> subst h
    · simpa only [hs.ledger_releaseWaitQ] using (inv_releaseWaitQ s).ledger_serve hpc _ _
    · simp [ledger, releaseWaitQ, map_fst_ackAll, hs.ackable_waitQ, TEvent.received]
    · simp [(inv_releaseWaitQ s).ledger_exit, hs.ledger_releaseWaitQ, TEvent.received]

/-- **What one event answers or queues**: the commands answered or waiting after it are those
before it and the command it takes, if that has an ack channel. -/
theorem step_answered (hs : s.Inv) {ev : TEvent K} {s' : TState K} (h : s.step ev = some s') :
    List.Perm s'.ledger (s.ledger ++ ackable ev.received.toList) := by
  cases ev with
  | round r => exact hs.ledger_round h
  | resume =>
    simp only [TState.step, Option.ite_none_right_eq_some, Option.some.injEq] at h
    obtain ⟨-, rfl⟩ := h
    simp [ledger, TEvent.received]
  | pauseClosed =>
    simp only [TState.step, Option.ite_none_right_eq_some, Option.some.injEq] at h
    obtain ⟨-, rfl⟩ := h
    simp [hs.ledger_exit, TEvent.received]

theorem run_answered (hs : s.Inv) {evs : List (TEvent K)} {s' : TState K}
    (h : s.run evs = some s') :
    List.Perm s'.ledger (s.ledger ++ ackable (evs.filterMap TEvent.received)) := by
  induction evs generalizing s with
  | nil => cases h; simp
  | cons ev evs ih =>
    obtain ⟨s₁, h₁, h⟩ := run_cons.1 h
    refine (ih (hs.step h₁) h).trans ?_
    have hfm : (ev :: evs).filterMap TEvent.received =
        ev.received.toList ++ evs.filterMap TEvent.received := by
      cases hr : ev.received <;> simp [List.filterMap_cons, hr]
    rw [hfm, ackable_append, ← List.append_assoc]
    exact (step_answered hs h₁).append_right _

end Ledger

/-! ### The answers -/

/-- An answer `tCompaction` may give: `ErrClosed`, `nil` to a waiting `cAuto`, or one of the
`results` of the range compactions. -/
def AnswerOk (results : List (CCmd K × Option CompErr)) (p : CCmd K × Option CompErr) : Prop :=
  p.2 = some errClosed ∨ (p.1.waits ∧ p.2 = none) ∨ p ∈ results

theorem mem_ack {x : CCmd K} {err : Option CompErr} {acks : List (CCmd K × Option CompErr)}
    {p : CCmd K × Option CompErr} (h : p ∈ x.ack err acks) : p ∈ acks ∨ p = (x, err) := by
  unfold CCmd.ack at h
  split at h
  · simpa using h
  · exact .inl h

theorem mem_ackAll {err : Option CompErr} {xs : List (CCmd K)}
    {acks : List (CCmd K × Option CompErr)} {p : CCmd K × Option CompErr}
    (h : p ∈ ackAll err xs acks) : p ∈ acks ∨ (p.1 ∈ xs ∧ p.2 = err) := by
  rw [ackAll_eq] at h
  rcases List.mem_append.1 h with h | h
  · exact .inl h
  · obtain ⟨x, hx, rfl⟩ := List.mem_map.1 h
    exact .inr ⟨(List.mem_filter.1 hx).1, rfl⟩

section Answers

variable {R : List (CCmd K × Option CompErr)} {s : TState K}

theorem acksOk_exit (ha : ∀ p ∈ s.acks, AnswerOk R p) (x : Option (CCmd K)) :
    ∀ p ∈ (s.exit x).acks, AnswerOk R p := by
  have hall : ∀ p ∈ ackAll (some errClosed) s.waitQ s.acks, AnswerOk R p := fun p hp =>
    (mem_ackAll hp).elim (ha p) fun h => .inl h.2
  rcases x with _ | x
  · exact hall
  · exact fun p hp => (mem_ack hp).elim (hall p) fun h => .inl (by rw [h])

theorem acksOk_autoCompaction (ha : ∀ p ∈ s.acks, AnswerOk R p) (r : TRound K) :
    ∀ p ∈ (s.autoCompaction r).acks, AnswerOk R p := by
  unfold TState.autoCompaction
  split
  · exact ha
  · exact acksOk_exit ha none

theorem Inv.acksOk_releaseWaitQ (hs : s.Inv) (ha : ∀ p ∈ s.acks, AnswerOk R p) :
    ∀ p ∈ s.releaseWaitQ.acks, AnswerOk R p := fun p hp =>
  (mem_ackAll hp).elim (ha p) fun h => .inr (.inl ⟨hs.waits _ h.1, h.2⟩)

/-- Serving a command answers it with `nil` if it waits, with the error of its range compaction,
or with `ErrClosed`. -/
theorem acksOk_serve (ha : ∀ p ∈ s.acks, AnswerOk R p) (r : TRound K) (x : Option (CCmd K))
    (hR : ∀ level umin umax ackC err, x = some (.cRange level umin umax ackC) →
      r.range = some err → (.cRange level umin umax ackC, err) ∈ R) :
    ∀ p ∈ (s.serve r x).acks, AnswerOk R p := by
  rcases x with _ | ⟨ackC⟩ | ⟨level, umin, umax, ackC⟩
  · exact acksOk_autoCompaction ha r
  · simp only [TState.serve]
    refine acksOk_autoCompaction ?_ r
    split_ifs with hc hx
    · exact fun p hp => (mem_ack hp).elim (ha p) fun h => .inr (.inl (by rw [h]; exact ⟨hc, rfl⟩))
    · exact ha
    · exact ha
  · simp only [TState.serve]
    split
    next err hr =>
      refine acksOk_autoCompaction (fun p hp => ?_) r
      exact (mem_ack hp).elim (ha p) fun h => .inr (.inr (h ▸ hR _ _ _ _ _ rfl hr))
    next => exact acksOk_exit ha _

theorem Inv.acksOk_round (hs : s.Inv) (ha : ∀ p ∈ s.acks, AnswerOk R p) {r : TRound K}
    {s' : TState K} (h : s.round r = some s')
    (hR : ∀ p, (TEvent.round r).rangeResult = some p → p ∈ R) :
    ∀ p ∈ s'.acks, AnswerOk R p := by
  unfold TState.round at h
  by_cases hpc : s.pc = .top
  swap
  · simp [hpc] at h
  obtain ⟨need, sel, resumeQ, resumeX, range, autoDone⟩ := r
  -- a `cRange` taken by the select is answered with this round's range result
  have hx : ∀ x, sel = .cmd x → ∀ level umin umax ackC err, some x = some (.cRange level umin umax ackC) →
      range = some err → (.cRange level umin umax ackC, err) ∈ R := by
    rintro x rfl level umin umax ackC err hx rfl
    cases hx
    exact hR _ rfl
  by_cases hneed : need = true
  · rw [if_pos hpc, if_pos hneed] at h
    have hres : (if !s.waitQ.isEmpty && resumeQ then s.releaseWaitQ else s).acks = s.acks ∨
        (if !s.waitQ.isEmpty && resumeQ then s.releaseWaitQ else s) = s.releaseWaitQ := by
      split
      · exact .inr rfl
      · exact .inl rfl
    have ha' : ∀ p ∈ (if !s.waitQ.isEmpty && resumeQ then s.releaseWaitQ else s).acks,
        AnswerOk R p := by
      rcases hres with he | he
      · rwa [he]
      · rw [he]; exact hs.acksOk_releaseWaitQ ha
    cases sel <;> simp only [Option.some.injEq] at h <;> subst h
    · exact acksOk_serve ha' _ _ (hx _ rfl)
    · exact ha
    · exact acksOk_exit ha none
    · exact acksOk_serve ha' _ none nofun
  · rw [if_pos hpc, if_neg hneed] at h
    cases sel <;> simp only [Option.some.injEq, reduceCtorEq] at h <;> subst h
    · exact acksOk_serve (hs.acksOk_releaseWaitQ ha) _ _ (hx _ rfl)
    · exact hs.acksOk_releaseWaitQ ha
    · exact acksOk_exit (hs.acksOk_releaseWaitQ ha) none

theorem Inv.acksOk_run (hs : s.Inv) (ha : ∀ p ∈ s.acks, AnswerOk R p) {evs : List (TEvent K)}
    {s' : TState K} (h : s.run evs = some s')
    (hR : ∀ ev ∈ evs, ∀ p, ev.rangeResult = some p → p ∈ R) :
    ∀ p ∈ s'.acks, AnswerOk R p := by
  induction evs generalizing s with
  | nil => cases h; exact ha
  | cons ev evs ih =>
    obtain ⟨s₁, h₁, h⟩ := run_cons.1 h
    refine ih (hs.step h₁) ?_ h fun ev' hev => hR ev' (List.mem_cons_of_mem _ hev)
    cases ev with
    | round r => exact hs.acksOk_round ha h₁ (hR _ (List.mem_cons_self _ _))
    | resume =>
      simp only [TState.step, Option.ite_none_right_eq_some, Option.some.injEq] at h₁
      obtain ⟨-, rfl⟩ := h₁
      exact ha
    | pauseClosed =>
      simp only [TState.step, Option.ite_none_right_eq_some, Option.some.injEq] at h₁
      obtain ⟨-, rfl⟩ := h₁
      exact acksOk_exit ha none

/-- What every run of `tCompaction` from its start has answered: the ledger, the shape of `waitQ`
and the answers themselves. -/
theorem run_acks {evs : List (TEvent K)} {s : TState K} (h : TState.init.run evs = some s) :
    List.Perm (s.acks.map Prod.fst ++ s.waitQ) (TState.ackable (evs.filterMap TEvent.received)) ∧
      (∀ x ∈ s.waitQ, x.waits) ∧ (s.pc = .exited → s.waitQ = []) ∧
      ∀ p ∈ s.acks, TState.AnswerOk (evs.filterMap TEvent.rangeResult) p := by
  have hs := TState.inv_init.run h
  refine ⟨?_, hs.waits, hs.exited, ?_⟩
  · simpa [TState.ledger, TState.init] using TState.run_answered TState.inv_init h
  · refine TState.inv_init.acksOk_run (by simp [TState.init]) h fun ev hev p hp => ?_
    exact List.mem_filterMap.2 ⟨ev, hev, hp⟩

end Answers

end TState

/-- **Every command is answered once.** In every run of `tCompaction` from its start, the commands
it has answered, with those waiting in `waitQ`, are exactly the commands with an ack channel it
took, each as often as it took it; `waitQ` holds only `cAuto`s with an ack channel, and is empty
once the goroutine has ended, when every such command has been answered. Each answer is `nil` to
a waiting `cAuto`, the error a range compaction returned to its `cRange`, or `ErrClosed`. -/
theorem tCompaction_acks_once {evs : List (TEvent K)} {s : TState K}
    (h : TState.init.run evs = some s) :
    List.Perm (s.acks.map Prod.fst ++ s.waitQ) (TState.ackable (evs.filterMap TEvent.received)) ∧
      (∀ x ∈ s.waitQ, x.waits) ∧ (s.pc = .exited → s.waitQ = []) ∧
      ∀ p ∈ s.acks, TState.AnswerOk (evs.filterMap TEvent.rangeResult) p :=
  TState.run_acks h

/-- A writer waits while level 0 is full and is released on the next pass, a range compaction is
answered with its error, and a second writer is answered `ErrClosed` when the goroutine exits. -/
def waitRangeExit : List (TEvent ℕ) :=
  [.round ⟨true, .cmd (.cAuto (some 1)), false, false, none, true⟩,
    .round ⟨false, .cmd (.cRange (-1) none none (some 2)), false, false, some none, true⟩,
    .round ⟨true, .cmd (.cAuto (some 3)), false, false, none, false⟩]

theorem tCompaction_acks_once_waitRangeExit :
    ∃ s, TState.init.run waitRangeExit = some s ∧
      List.Perm (s.acks.map Prod.fst ++ s.waitQ)
        (TState.ackable (waitRangeExit.filterMap TEvent.received)) ∧
      (∀ x ∈ s.waitQ, x.waits) ∧ (s.pc = .exited → s.waitQ = []) ∧
      ∀ p ∈ s.acks, TState.AnswerOk (waitRangeExit.filterMap TEvent.rangeResult) p :=
  ⟨_, rfl, tCompaction_acks_once rfl⟩

example : TState.init.run waitRangeExit = some ⟨.exited, [],
    [(.cAuto (some 1), none), (.cRange (-1) none none (some 2), none),
      (.cAuto (some 3), some errClosed)]⟩ := rfl

end LevelDB

end Workshare
