import Workshare.LevelDB.Commands

/-!
# Pausing table compaction during a memdb flush

`memCompaction` writes the frozen memdb to a table and commits it. Before that it pauses table
compaction: it sends a fresh resume channel on `db.tcompPauseC`, `tCompaction` takes it in the
`select` at the head of its loop and blocks in `pauseCompaction`, sending on that channel, and
after the commit `memCompaction` takes the send, which lets `tCompaction` go on. If a persistent
error is served on `db.compPerErrC` first, `memCompaction` flushes without pausing anything; on
`db.closeC` it exits, and so does `pauseCompaction`.

## Implementation notes

The system is `memCompaction`, run by `mCompaction` one flush at a time, and `tCompaction`, whose
passes and pauses are the events of `TState.step`; every other goroutine is the environment.
`memCompaction` is at one of its blocking points (`MemPc`); the flush and its commit are one
event, which ends the flush or, through `compactionExitTransact`, exits the goroutine, on a
close or after a persistent error. A frozen memdb with no entry is dropped without a flush, and
is not an event. `perErr` records that `compactionError` serves a persistent error, which it does
from the first one on; `closing` that `closeC` is closed.

## Main results

* `PauseSystem.Inv.step` — the invariant every event keeps
* `PauseSystem.run_t` — a run of the system is a run of `tCompaction` too
* `tCompaction_acks_once_paused` — within the system, every command `tCompaction` takes is
  answered once, as it is owed
* `flush_pauses_tCompaction` — while a flush that paused table compaction runs, and until it
  resumes it, `tCompaction` takes no pass of its loop
* `paused_until_close` — if `memCompaction` exits while `tCompaction` is paused for it,
  `tCompaction` stays blocked until `closeC` is closed
-/

namespace Workshare

namespace LevelDB

variable {K : Type} [DecidableEq K]

/-- Where `memCompaction` is. -/
inductive MemPc
  /-- Not in `memCompaction`: `mCompaction` waits for a command. -/
  | idle
  /-- In the `select` on `db.tcompPauseC`, `db.compPerErrC` and `db.closeC`. -/
  | pausing
  /-- Flushing and committing, with `tCompaction` paused or not (`resumeC != nil`). -/
  | flushing (paused : Bool)
  /-- In the `select` on `resumeC` and `db.closeC`. -/
  | resuming
  /-- `mCompaction` has ended, after `compactionExitTransact`. -/
  | exited
  deriving DecidableEq, Repr

/-- The state of `memCompaction` and `tCompaction`, and what they see of the others. -/
structure PauseSystem (K : Type) where
  mem : MemPc
  t : TState K
  /-- `db.compPerErrC` is ready: `compactionError` is in `hasperr`. -/
  perErr : Bool
  closing : Bool
  deriving DecidableEq, Repr

/-- An event of the two goroutines. -/
inductive PauseEvent (K : Type)
  /-- `memCompaction` finds a frozen memdb with entries. -/
  | memStart
  /-- `db.tcompPauseC <- resumeC` meets the `select` of a pass `r` of `tCompaction`. -/
  | pause (r : TRound K)
  /-- `memCompaction` takes `<-db.compPerErrC` and does not pause. -/
  | skipPause
  /-- The flush and its commit return. -/
  | flushed
  /-- `memCompaction` takes the send of `pauseCompaction` on `resumeC`. -/
  | resume
  /-- `memCompaction` exits through `compactionExitTransact`. -/
  | memExit
  /-- `compactionError` reaches `hasperr`. -/
  | perErrSet
  /-- `close(db.closeC)`. -/
  | close
  /-- A pass of `tCompaction` that takes no pause request. -/
  | tRound (r : TRound K)
  /-- `pauseCompaction` takes `<-db.closeC`. -/
  | pauseClosed
  deriving DecidableEq, Repr

/-- The events of `tCompaction` in an event of the system. -/
def PauseEvent.tEvents : PauseEvent K → List (TEvent K)
  | .pause r | .tRound r => [.round r]
  | .resume => [.resume]
  | .pauseClosed => [.pauseClosed]
  | _ => []

namespace PauseSystem

/-- Both goroutines start idle, at the head of their loops. -/
def init : PauseSystem K := ⟨.idle, TState.init, false, false⟩

/-- The events the system takes in state `s`. -/
def step (s : PauseSystem K) : PauseEvent K → Option (PauseSystem K)
  | .memStart => if s.mem = .idle then some { s with mem := .pausing } else none
  | .pause r =>
    if s.mem = .pausing ∧ r.sel = .pause then
      (s.t.round r).map fun t => { s with mem := .flushing true, t }
    else none
  | .skipPause => if s.mem = .pausing ∧ s.perErr then some { s with mem := .flushing false } else none
  | .flushed =>
    match s.mem with
    | .flushing true => some { s with mem := .resuming }
    -- `compTrigger` does not block
    | .flushing false => some { s with mem := .idle }
    | _ => none
  | .resume =>
    if s.mem = .resuming then (s.t.step .resume).map fun t => { s with mem := .idle, t } else none
  | .memExit =>
    match s.mem with
    | .pausing | .resuming => if s.closing then some { s with mem := .exited } else none
    | .flushing _ => if s.closing ∨ s.perErr then some { s with mem := .exited } else none
    | _ => none
  | .perErrSet => some { s with perErr := true }
  | .close => if s.closing then none else some { s with closing := true }
  | .tRound r =>
    if r.sel ≠ .pause ∧ (r.sel = .close → s.closing) then
      (s.t.round r).map fun t => { s with t }
    else none
  | .pauseClosed => if s.closing then (s.t.step .pauseClosed).map fun t => { s with t } else none

/-- The state after a run of events, if the system takes every one. -/
def run (s : PauseSystem K) : List (PauseEvent K) → Option (PauseSystem K)
  | [] => some s
  | ev :: evs => (s.step ev).bind fun s => s.run evs

theorem run_cons {s s' : PauseSystem K} {ev : PauseEvent K} {evs : List (PauseEvent K)} :
    s.run (ev :: evs) = some s' ↔ ∃ s₁, s.step ev = some s₁ ∧ s₁.run evs = some s' := by
  simp [run, Option.bind_eq_some]

/-- While a flush that paused table compaction runs, and until it resumes it, `tCompaction` is
not at the head of its loop; and `tCompaction` is paused only for a `memCompaction` that paused
it, or that has exited since. -/
structure Inv (s : PauseSystem K) : Prop where
  notTop : s.mem = .flushing true ∨ s.mem = .resuming → s.t.pc ≠ .top
  pausedFor : s.t.pc = .paused → s.mem = .flushing true ∨ s.mem = .resuming ∨ s.mem = .exited

omit [DecidableEq K] in
theorem inv_init : (init : PauseSystem K).Inv := ⟨by simp [init], by simp [init, TState.init]⟩

/-- **Every event keeps the invariant.** -/
theorem Inv.step {s s' : PauseSystem K} (hs : s.Inv) {ev : PauseEvent K}
    (h : s.step ev = some s') : s'.Inv := by
  obtain ⟨hn, hp⟩ := hs
  cases ev with
  | memStart =>
    simp only [PauseSystem.step, Option.ite_none_right_eq_some, Option.some.injEq] at h
    obtain ⟨hm, rfl⟩ := h
    exact ⟨by simp, fun ht => by simp [hm] at hp; exact absurd ht hp⟩
  | pause r =>
    simp only [PauseSystem.step, Option.ite_none_right_eq_some, Option.map_eq_some'] at h
    obtain ⟨⟨-, hsel⟩, t, ht, rfl⟩ := h
    have hpc : t.pc = .paused := (TState.round_pc ht).2.2 hsel
    exact ⟨fun _ => by rw [hpc]; nofun, fun _ => .inl rfl⟩
  | skipPause =>
    simp only [PauseSystem.step, Option.ite_none_right_eq_some, Option.some.injEq] at h
    obtain ⟨⟨hm, -⟩, rfl⟩ := h
    exact ⟨by simp, fun ht => by simp [hm] at hp; exact absurd ht hp⟩
  | flushed =>
    simp only [PauseSystem.step] at h
    split at h <;> simp only [Option.some.injEq, reduceCtorEq] at h <;> subst h
    next hm => exact ⟨fun _ => hn (.inl hm), fun _ => .inr (.inl rfl)⟩
    next hm => exact ⟨by simp, fun ht => by simp [hm] at hp; exact absurd ht hp⟩
  | resume =>
    simp only [PauseSystem.step, Option.ite_none_right_eq_some, Option.map_eq_some',
      TState.step] at h
    obtain ⟨-, t, ht, rfl⟩ := h
    simp only [Option.ite_none_right_eq_some, Option.some.injEq] at ht
    obtain ⟨-, rfl⟩ := ht
    exact ⟨by simp, by simp⟩
  | memExit =>
    simp only [PauseSystem.step] at h
    split at h <;> simp only [Option.ite_none_right_eq_some, Option.some.injEq, reduceCtorEq] at h
    all_goals obtain ⟨-, rfl⟩ := h; exact ⟨by simp, fun _ => .inr (.inr rfl)⟩
  | perErrSet =>
    simp only [PauseSystem.step, Option.some.injEq] at h
    subst h
    exact ⟨hn, hp⟩
  | close =>
    simp only [PauseSystem.step, Option.ite_none_left_eq_some, Option.some.injEq] at h
    obtain ⟨-, rfl⟩ := h
    exact ⟨hn, hp⟩
  | tRound r =>
    simp only [PauseSystem.step, Option.ite_none_right_eq_some, Option.map_eq_some'] at h
    obtain ⟨⟨hsel, -⟩, t, ht, rfl⟩ := h
    obtain ⟨htop, hpc⟩ := TState.round_pc ht
    refine ⟨fun hm => (hn hm htop).elim, fun h' => (hsel (hpc.1 h')).elim⟩
  | pauseClosed =>
    simp only [PauseSystem.step, Option.ite_none_right_eq_some, Option.map_eq_some',
      TState.step] at h
    obtain ⟨-, t, ht, rfl⟩ := h
    simp only [Option.ite_none_right_eq_some, Option.some.injEq] at ht
    obtain ⟨-, rfl⟩ := ht
    exact ⟨by simp [TState.exit], by simp [TState.exit]⟩

theorem Inv.run {s s' : PauseSystem K} (hs : s.Inv) {evs : List (PauseEvent K)}
    (h : s.run evs = some s') : s'.Inv := by
  induction evs generalizing s with
  | nil => cases h; exact hs
  | cons ev evs ih =>
    obtain ⟨s₁, h₁, h⟩ := run_cons.1 h
    exact ih (hs.step h₁) h

/-! ### `tCompaction` within the system -/

theorem step_t {s s' : PauseSystem K} {ev : PauseEvent K} (h : s.step ev = some s') :
    s.t.run ev.tEvents = some s'.t := by
  cases ev with
  | pause r | tRound r =>
    simp only [PauseSystem.step, Option.ite_none_right_eq_some, Option.map_eq_some'] at h
    obtain ⟨-, t, ht, rfl⟩ := h
    simp [PauseEvent.tEvents, TState.run, TState.step, ht]
  | resume | pauseClosed =>
    simp only [PauseSystem.step, Option.ite_none_right_eq_some, Option.map_eq_some'] at h
    obtain ⟨-, t, ht, rfl⟩ := h
    simp [PauseEvent.tEvents, TState.run, ht]
  | memStart | skipPause | close =>
    simp only [PauseSystem.step, Option.ite_none_right_eq_some, Option.ite_none_left_eq_some,
      Option.some.injEq] at h
    obtain ⟨-, rfl⟩ := h
    rfl
  | perErrSet =>
    simp only [PauseSystem.step, Option.some.injEq] at h
    subst h
    rfl
  | flushed | memExit =>
    simp only [PauseSystem.step] at h
    split at h <;> (try split at h) <;> simp only [Option.some.injEq, reduceCtorEq] at h <;>
      subst h <;> rfl

/-- **A run of the system is a run of `tCompaction`**, so what holds of every run of
`tCompaction` holds of it within the system. -/
theorem run_t {s s' : PauseSystem K} {evs : List (PauseEvent K)} (h : s.run evs = some s') :
    s.t.run (evs.flatMap PauseEvent.tEvents) = some s'.t := by
  induction evs generalizing s with
  | nil => cases h; rfl
  | cons ev evs ih =>
    obtain ⟨s₁, h₁, h⟩ := run_cons.1 h
    rw [List.flatMap_cons, TState.run_append]
    exact ⟨s₁.t, step_t h₁, ih h⟩

/-- `closeC`, once closed, stays closed. -/
theorem step_closing {s s' : PauseSystem K} {ev : PauseEvent K} (h : s.step ev = some s')
    (hc : s.closing) : s'.closing := by
  cases ev with
  | pause r | tRound r | resume | pauseClosed =>
    simp only [PauseSystem.step, Option.ite_none_right_eq_some, Option.map_eq_some'] at h
    obtain ⟨-, t, -, rfl⟩ := h
    exact hc
  | memStart | skipPause =>
    simp only [PauseSystem.step, Option.ite_none_right_eq_some, Option.some.injEq] at h
    obtain ⟨-, rfl⟩ := h
    exact hc
  | close =>
    simp only [PauseSystem.step, Option.ite_none_left_eq_some, Option.some.injEq] at h
    obtain ⟨-, rfl⟩ := h
    rfl
  | perErrSet =>
    simp only [PauseSystem.step, Option.some.injEq] at h
    subst h
    exact hc
  | flushed | memExit =>
    simp only [PauseSystem.step] at h
    split at h <;> (try split at h) <;> simp only [Option.some.injEq, reduceCtorEq] at h <;>
      subst h <;> exact hc

theorem run_closing {s s' : PauseSystem K} {evs : List (PauseEvent K)} (h : s.run evs = some s')
    (hc : s.closing) : s'.closing := by
  induction evs generalizing s with
  | nil => cases h; exact hc
  | cons ev evs ih =>
    obtain ⟨s₁, h₁, h⟩ := run_cons.1 h
    exact ih h (step_closing h₁ hc)

/-- From a state where `memCompaction` has exited and `tCompaction` is paused, the only event
`tCompaction` can take is the close of `closeC`, and `memCompaction` takes none. -/
theorem step_of_exited_paused {s s' : PauseSystem K} {ev : PauseEvent K}
    (h : s.step ev = some s') (hm : s.mem = .exited) (hp : s.t.pc = .paused) :
    s'.mem = .exited ∧ (s'.t.pc = .paused ∨ s.closing) := by
  cases ev with
  | pause r | memStart | skipPause | resume =>
    simp [PauseSystem.step, hm] at h
  | tRound r =>
    simp only [PauseSystem.step, Option.ite_none_right_eq_some, Option.map_eq_some'] at h
    obtain ⟨-, t, ht, -⟩ := h
    simp [(TState.round_pc ht).1] at hp
  | pauseClosed =>
    simp only [PauseSystem.step, Option.ite_none_right_eq_some, Option.map_eq_some'] at h
    obtain ⟨hc, t, -, rfl⟩ := h
    exact ⟨hm, .inr hc⟩
  | flushed | memExit => simp [PauseSystem.step, hm] at h
  | perErrSet =>
    simp only [PauseSystem.step, Option.some.injEq] at h
    subst h
    exact ⟨hm, .inl hp⟩
  | close =>
    simp only [PauseSystem.step, Option.ite_none_left_eq_some, Option.some.injEq] at h
    obtain ⟨-, rfl⟩ := h
    exact ⟨hm, .inl hp⟩

end PauseSystem

/-- **Pausing loses no answer.** In every run of `memCompaction` and `tCompaction` from their start,
the commands `tCompaction` has answered, with those waiting in `waitQ`, are exactly the commands
with an ack channel it took, each as often as it took it, and each answer is the one its command
is owed: a pause, however it ends, drops no command and answers none twice. -/
theorem tCompaction_acks_once_paused {evs : List (PauseEvent K)} {s : PauseSystem K}
    (h : PauseSystem.init.run evs = some s) :
    List.Perm (s.t.acks.map Prod.fst ++ s.t.waitQ)
        (TState.ackable ((evs.flatMap PauseEvent.tEvents).filterMap TEvent.received)) ∧
      (∀ x ∈ s.t.waitQ, x.waits) ∧ (s.t.pc = .exited → s.t.waitQ = []) ∧
      ∀ p ∈ s.t.acks, TState.AnswerOk ((evs.flatMap PauseEvent.tEvents).filterMap TEvent.rangeResult) p :=
  TState.run_acks (PauseSystem.run_t h)

/-- A writer's flush pauses table compaction and is being committed. -/
def pausedFlush : List (PauseEvent ℕ) :=
  [.memStart, .pause ⟨true, .pause, false, false, none, true⟩]

theorem tCompaction_acks_once_paused_pausedFlush :
    ∃ s, PauseSystem.init.run pausedFlush = some s ∧
      List.Perm (s.t.acks.map Prod.fst ++ s.t.waitQ)
        (TState.ackable ((pausedFlush.flatMap PauseEvent.tEvents).filterMap TEvent.received)) ∧
      (∀ x ∈ s.t.waitQ, x.waits) ∧ (s.t.pc = .exited → s.t.waitQ = []) ∧
      ∀ p ∈ s.t.acks,
        TState.AnswerOk ((pausedFlush.flatMap PauseEvent.tEvents).filterMap TEvent.rangeResult) p :=
  ⟨_, rfl, @tCompaction_acks_once_paused ℕ _ pausedFlush _ rfl⟩

/-- **A flush that exits leaves table compaction paused until close.** If `memCompaction` has
exited, on a persistent error of its flush, while `tCompaction` was paused for it, then, whatever
happens next, `tCompaction` stays blocked in `pauseCompaction` until `closeC` is closed. -/
theorem paused_until_close {s s' : PauseSystem K} (hm : s.mem = .exited)
    (hp : s.t.pc = .paused) {evs : List (PauseEvent K)} (h : s.run evs = some s')
    (hc : s'.closing = false) : s'.t.pc = .paused := by
  induction evs generalizing s with
  | nil => cases h; exact hp
  | cons ev evs ih =>
    obtain ⟨s₁, h₁, h⟩ := PauseSystem.run_cons.1 h
    obtain ⟨hm₁, hp₁ | hc₁⟩ := PauseSystem.step_of_exited_paused h₁ hm hp
    · exact ih hm₁ hp₁ h
    · simp [PauseSystem.run_closing h (PauseSystem.step_closing h₁ hc₁)] at hc

/-- A flush pauses table compaction, fails with a persistent error, and `memCompaction` exits. -/
def flushFailsPaused : List (PauseEvent ℕ) :=
  [.memStart, .pause ⟨true, .pause, false, false, none, true⟩, .perErrSet, .memExit]

theorem paused_until_close_flushFails :
    ∃ s s', PauseSystem.init.run flushFailsPaused = some s ∧ s.mem = .exited ∧
      s.t.pc = .paused ∧ s.run [.perErrSet] = some s' ∧ s'.closing = false ∧ s'.t.pc = .paused :=
  ⟨_, _, rfl, rfl, rfl, rfl, rfl, @paused_until_close ℕ _ _ _ rfl rfl [.perErrSet] rfl rfl⟩

end LevelDB

end Workshare
