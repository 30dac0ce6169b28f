import Mathlib.Data.List.Basic

/-!
# The compaction error status

`compactionError` is the goroutine that holds a DB's compaction error status. It sits in one of
three loops, each a `select`: `noerr` takes errors sent on `db.compErrSetC`; `haserr` also serves
the transient error it holds on `db.compErrC`; `hasperr`, reached on `ErrReadOnly` or a corruption,
takes no more errors, serves the persistent one on `db.compErrC` and `db.compPerErrC`, and takes
the write lock so that writes stop. It returns when `db.closeC` is closed, releasing the write
lock if it took it ("or Close will hang").

The other goroutines meet it on these channels: `compactionTransact` reports each attempt's error
with a `select` on `compErrSetC`, `compPerErrC` and `closeC`, and stops at the first failed attempt
after a persistent error; `compTriggerWait` and `compTriggerRange` return the error served on
`compErrC`; writers take and release `writeLockC`.

## Implementation notes

Every channel here but `writeLockC` is unbuffered, so an exchange is one event that both sides
take together, and a `select` offers the events of its ready cases, in any order (Go picks among
ready cases at random). `ErrSystem.step` says which events the system accepts in a state and what
each does; a run is a list of events, and every property is over every run. `writeLockC` has room
for one value: a value in it is the write lock, held by `compactionError` or by a writer, and a
writer only releases a lock it took. The three kinds of error `compactionError` and
`compactionTransact` tell apart are the constructors of `CompErr`.

## Main results

* `ErrSystem.Inv.step` — the invariant every event keeps
* `compactionError_refines` — the status the goroutine holds is the abstract register of
  `absStep`, in both directions
* `writeLock_released` — `compactionError` holds the write lock exactly from its `lockWrite` to its
  return, only after a persistent error, and can always return once `closeC` is closed
* `transact_exits_after_persistent` — after a persistent error, every failed attempt of
  `compactionTransact` exits
-/

namespace Workshare

namespace LevelDB

/-- A compaction error, as `compactionError` and `compactionTransact` tell errors apart:
`ErrReadOnly`, an error `errors.IsCorrupted` holds of, or another. -/
inductive CompErr
  | readOnly
  | corrupted (n : ℕ)
  | other (n : ℕ)
  deriving DecidableEq, Repr

namespace CompErr

/-- `errors.IsCorrupted(err)`. -/
def isCorrupted : CompErr → Bool
  | .corrupted _ => true
  | _ => false

/-- `err == ErrReadOnly, errors.IsCorrupted(err)`: the errors that make the status persistent. -/
def persistent : CompErr → Bool
  | .other _ => false
  | _ => true

end CompErr

/-- Where `compactionError` is: in which loop, with the error `err` it holds there, or returned. -/
inductive ErrLabel
  | noerr
  | haserr (err : CompErr)
  | hasperr (err : CompErr)
  | returned
  deriving DecidableEq, Repr

/-- Who holds the write lock, the one slot of `db.writeLockC`. -/
inductive LockHolder
  | free
  | compactionError
  | writer
  deriving DecidableEq, Repr

/-- The state of `compactionError` and of the channels it shares. -/
structure ErrSystem where
  label : ErrLabel
  /-- `db.compWriteLocking`. -/
  compWriteLocking : Bool
  lock : LockHolder
  /-- Whether `db.closeC` is closed. -/
  closing : Bool
  deriving DecidableEq, Repr

/-- An exchange on the channels of `compactionError`. -/
inductive ErrEvent
  /-- `db.compErrSetC <- err` meets `err = <-db.compErrSetC`. -/
  | setErr (err : Option CompErr)
  /-- `<-db.compErrC` gets `err`. -/
  | getErr (err : CompErr)
  /-- `<-db.compPerErrC` gets `err`. -/
  | getPerErr (err : CompErr)
  /-- `compactionError`'s `db.writeLockC <- struct{}{}`. -/
  | lockWrite
  /-- A writer's send to `db.writeLockC`. -/
  | writerLock
  /-- A writer's receive from `db.writeLockC`, releasing the lock it took. -/
  | writerUnlock
  /-- `close(db.closeC)`. -/
  | close
  /-- Another goroutine's `select` takes `<-db.closeC`. -/
  | closeSeen
  /-- `compactionError` takes `<-db.closeC` and returns. -/
  | exit
  deriving DecidableEq, Repr

namespace ErrLabel

/-- The loop `noerr` and `haserr` go to after `err = <-db.compErrSetC`. -/
def afterSet : Option CompErr → ErrLabel
  | none => .noerr
  | some err => if err.persistent then .hasperr err else .haserr err

/-- Whether the loop receives on `db.compErrSetC`. -/
def takesSet : ErrLabel → Bool
  | .noerr | .haserr _ => true
  | _ => false

/-- The error the loop sends on `db.compErrC`, if it has that case. -/
def served : ErrLabel → Option CompErr
  | .haserr err | .hasperr err => some err
  | _ => none

/-- The error the loop sends on `db.compPerErrC`, and the loop with the write lock case. -/
def perServed : ErrLabel → Option CompErr
  | .hasperr err => some err
  | _ => none

/-- The loops hold the errors that lead to them: a transient one in `haserr`, a persistent one in
`hasperr`. -/
def Ok : ErrLabel → Prop
  | .haserr err => err.persistent = false
  | .hasperr err => err.persistent = true
  | _ => True

@[simp] theorem afterSet_ok (err : Option CompErr) : (afterSet err).Ok := by
  cases err with
  | none => trivial
  | some err => by_cases h : err.persistent <;> simp [afterSet, Ok, h]

@[simp] theorem afterSet_ne_returned (err : Option CompErr) : afterSet err ≠ .returned := by
  cases err with
  | none => nofun
  | some err => by_cases h : err.persistent <;> simp [afterSet, h]

theorem perServed_of_takesSet {l : ErrLabel} (h : l.takesSet) :
    l.perServed = none ∧ l ≠ .returned := by
  cases l <;> simp_all [takesSet, perServed]

theorem ne_returned_of_perServed {l : ErrLabel} (h : l.perServed.isSome) : l ≠ .returned := by
  cases l <;> simp_all [perServed]

@[simp] theorem served_afterSet (err : Option CompErr) : (afterSet err).served = err := by
  cases err with
  | none => rfl
  | some err => by_cases h : err.persistent <;> simp [afterSet, served, h]

/-- A loop that holds an error serves it on `db.compErrC`, and on `db.compPerErrC` too exactly when
it is persistent. -/
theorem Ok.perServed_iff {l : ErrLabel} (hl : l.Ok) {err : CompErr} (h : l.served = some err) :
    l.perServed = some err ↔ err.persistent := by
  cases l <;> simp_all [Ok, served, ErrLabel.perServed]

end ErrLabel

namespace ErrSystem

/-- The DB opens with no error, the write lock free and `closeC` open. -/
def init : ErrSystem := ⟨.noerr, false, .free, false⟩

/-- The events the system accepts in state `s`, and the state each leads to; `none` for an event
no goroutine can take there. -/
def step (s : ErrSystem) : ErrEvent → Option ErrSystem
  | .setErr err => if s.label.takesSet then some { s with label := .afterSet err } else none
  | .getErr err => if s.label.served = some err then some s else none
  | .getPerErr err => if s.label.perServed = some err then some s else none
  | .lockWrite =>
    if s.label.perServed.isSome && s.lock = .free then
      some { s with compWriteLocking := true, lock := .compactionError }
    else none
  | .writerLock => if s.lock = .free then some { s with lock := .writer } else none
  | .writerUnlock => if s.lock = .writer then some { s with lock := .free } else none
  | .close => if s.closing then none else some { s with closing := true }
  | .closeSeen => if s.closing then some s else none
  | .exit =>
    if s.closing && s.label != .returned then
      if s.label.perServed.isSome && s.compWriteLocking then
        -- `<-db.writeLockC` waits for a value in the slot
        if s.lock = .free then none else some { s with label := .returned, lock := .free }
      else some { s with label := .returned }
    else none

section Events

variable {s s' : ErrSystem}

theorem step_setErr {err : Option CompErr} :
    s.step (.setErr err) = some s' ↔ s.label.takesSet ∧ { s with label := .afterSet err } = s' := by
  simp [step]

theorem step_getErr {err : CompErr} :
    s.step (.getErr err) = some s' ↔ s.label.served = some err ∧ s = s' := by
  simp [step]

theorem step_getPerErr {err : CompErr} :
    s.step (.getPerErr err) = some s' ↔ s.label.perServed = some err ∧ s = s' := by
  simp [step]

theorem step_lockWrite :
    s.step .lockWrite = some s' ↔ s.label.perServed.isSome ∧ s.lock = .free ∧
      { s with compWriteLocking := true, lock := .compactionError } = s' := by
  simp [step, and_assoc]

theorem step_writerLock :
    s.step .writerLock = some s' ↔ s.lock = .free ∧ { s with lock := .writer } = s' := by
  simp [step]

theorem step_writerUnlock :
    s.step .writerUnlock = some s' ↔ s.lock = .writer ∧ { s with lock := .free } = s' := by
  simp [step]

theorem step_close :
    s.step .close = some s' ↔ s.closing = false ∧ { s with closing := true } = s' := by
  simp [step]

theorem step_closeSeen : s.step .closeSeen = some s' ↔ s.closing ∧ s = s' := by
  simp [step]

theorem step_exit :
    s.step .exit = some s' ↔ s.closing ∧ s.label ≠ .returned ∧
      if s.label.perServed.isSome ∧ s.compWriteLocking then
        s.lock ≠ .free ∧ { s with label := .returned, lock := .free } = s'
      else { s with label := .returned } = s' := by
  simp only [step, Bool.and_eq_true, bne_iff_ne, ne_eq]
  by_cases hc : s.closing = true ∧ ¬s.label = .returned
  · rw [if_pos hc]
    by_cases hw : s.label.perServed.isSome = true ∧ s.compWriteLocking = true
    · rw [if_pos hw, if_pos hw]
      by_cases hl : s.lock = .free <;> simp [hc, hl]
    · rw [if_neg hw, if_neg hw]
      simp [hc]
  · rw [if_neg hc]
    simp only [reduceCtorEq, false_iff]
    exact fun h => hc ⟨h.1, h.2.1⟩

end Events

/-- The state after a run of events, if the system accepts every one. -/
def run (s : ErrSystem) : List ErrEvent → Option ErrSystem
  | [] => some s
  | ev :: evs => (s.step ev).bind fun s => s.run evs

@[simp] theorem run_nil (s : ErrSystem) : s.run [] = some s := rfl

theorem run_cons {s s' : ErrSystem} {ev : ErrEvent} {evs : List ErrEvent} :
    s.run (ev :: evs) = some s' ↔ ∃ s₁, s.step ev = some s₁ ∧ s₁.run evs = some s' := by
  simp [run, Option.bind_eq_some]

theorem run_append {s s' : ErrSystem} {evs evs' : List ErrEvent} :
    s.run (evs ++ evs') = some s' ↔ ∃ s₁, s.run evs = some s₁ ∧ s₁.run evs' = some s' := by
  induction evs generalizing s with
  | nil => simp
  | cons ev evs ih =>
    simp only [List.cons_append, run_cons, ih]
    exact ⟨fun ⟨a, ha, b, hb, hc⟩ => ⟨b, ⟨a, ha, hb⟩, hc⟩, fun ⟨b, ⟨a, ha, hb⟩, hc⟩ => ⟨a, ha, b, hb, hc⟩⟩

/-- The invariant of every reachable state. -/
structure Inv (s : ErrSystem) : Prop where
  label_ok : s.label.Ok
  /-- `compactionError` holds the write lock exactly from its `lockWrite` to its return. -/
  lock_iff : s.lock = .compactionError ↔ s.compWriteLocking ∧ s.label ≠ .returned
  /-- It takes the lock only in `hasperr`, which it leaves only to return. -/
  locking : s.compWriteLocking → s.label.perServed.isSome ∨ s.label = .returned
  returned_closing : s.label = .returned → s.closing

theorem inv_init : init.Inv := ⟨trivial, by simp [init], by simp [init], by simp [init]⟩

/-- **Every event keeps the invariant.** -/
theorem Inv.step {s s' : ErrSystem} (hs : s.Inv) {ev : ErrEvent} (h : s.step ev = some s') :
    s'.Inv := by
  obtain ⟨hok, hlock, hlocking, hret⟩ := hs
  cases ev with
  | setErr err =>
    obtain ⟨ht, rfl⟩ := step_setErr.1 h
    obtain ⟨hp, hr⟩ := ErrLabel.perServed_of_takesSet ht
    have hcw : s.compWriteLocking = false := by simpa [hp, hr] using mt hlocking
    exact ⟨ErrLabel.afterSet_ok err, by simpa [hcw] using hlock, by simp [hcw], by simp⟩
  | getErr err => obtain ⟨-, rfl⟩ := step_getErr.1 h; exact ⟨hok, hlock, hlocking, hret⟩
  | getPerErr err => obtain ⟨-, rfl⟩ := step_getPerErr.1 h; exact ⟨hok, hlock, hlocking, hret⟩
  | closeSeen => obtain ⟨-, rfl⟩ := step_closeSeen.1 h; exact ⟨hok, hlock, hlocking, hret⟩
  | lockWrite =>
    obtain ⟨hp, -, rfl⟩ := step_lockWrite.1 h
    have hr := ErrLabel.ne_returned_of_perServed hp
    exact ⟨hok, by simpa using hr, fun _ => .inl hp, fun h => (hr h).elim⟩
  | writerLock =>
    obtain ⟨hg, rfl⟩ := step_writerLock.1 h
    exact ⟨hok, by simpa [hg] using hlock, hlocking, hret⟩
  | writerUnlock =>
    obtain ⟨hg, rfl⟩ := step_writerUnlock.1 h
    exact ⟨hok, by simpa [hg] using hlock, hlocking, hret⟩
  | close => obtain ⟨-, rfl⟩ := step_close.1 h; exact ⟨hok, hlock, hlocking, fun _ => rfl⟩
  | exit =>
    obtain ⟨hc, -, h⟩ := step_exit.1 h
    split_ifs at h with hw
    · obtain ⟨-, rfl⟩ := h
      exact ⟨trivial, by simp, fun _ => .inr rfl, fun _ => hc⟩
    · subst h
      -- the lock was not `compactionError`'s, or it would be in `hasperr` with `compWriteLocking`
      refine ⟨trivial, ⟨fun hce => ?_, fun h => (h.2 rfl).elim⟩, fun _ => .inr rfl, fun _ => hc⟩
      obtain ⟨hcw, hr⟩ := hlock.1 hce
      exact (hw ⟨(hlocking hcw).resolve_right hr, hcw⟩).elim

theorem Inv.run {s s' : ErrSystem} (hs : s.Inv) {evs : List ErrEvent} (h : s.run evs = some s') :
    s'.Inv := by
  induction evs generalizing s with
  | nil => cases h; exact hs
  | cons ev evs ih =>
    obtain ⟨s₁, h₁, h⟩ := run_cons.1 h
    exact ih (hs.step h₁) h

theorem label_exit {s s' : ErrSystem} (h : s.step .exit = some s') : s'.label = .returned := by
  obtain ⟨-, -, h⟩ := step_exit.1 h
  split_ifs at h
  · rw [← h.2]
  · rw [← h]

/-- **What an event does to the label**: only a set taken in `noerr` or `haserr` and the return
move `compactionError`. -/
theorem label_step {s s' : ErrSystem} {ev : ErrEvent} (h : s.step ev = some s') :
    s'.label = s.label ∨ (s.label.takesSet ∧ ∃ err, ev = .setErr err ∧ s'.label = .afterSet err) ∨
      s'.label = .returned := by
  cases ev with
  | setErr err =>
    obtain ⟨ht, rfl⟩ := step_setErr.1 h
    exact .inr (.inl ⟨ht, err, rfl, rfl⟩)
  | exit => exact .inr (.inr (label_exit h))
  | _ =>
    simp only [ErrSystem.step] at h
    split at h <;> cases h
    exact .inl rfl

/-- Once `compactionError` takes no more sets, in `hasperr` or returned, it never does again. -/
theorem run_not_takesSet {s s' : ErrSystem} (hs : s.label.takesSet = false) {evs : List ErrEvent}
    (h : s.run evs = some s') : s'.label.takesSet = false := by
  induction evs generalizing s with
  | nil => cases h; exact hs
  | cons ev evs ih =>
    obtain ⟨s₁, h₁, h⟩ := run_cons.1 h
    refine ih ?_ h
    rcases label_step h₁ with he | ⟨ht, -⟩ | he
    · rwa [he]
    · simp [hs] at ht
    · rw [he]; rfl

theorem run_returned {s s' : ErrSystem} (hs : s.label = .returned) {evs : List ErrEvent}
    (h : s.run evs = some s') : s'.label = .returned := by
  induction evs generalizing s with
  | nil => cases h; exact hs
  | cons ev evs ih =>
    obtain ⟨s₁, h₁, h⟩ := run_cons.1 h
    refine ih ?_ h
    rcases label_step h₁ with he | ⟨ht, -⟩ | he
    · rwa [he]
    · simp [hs, ErrLabel.takesSet] at ht
    · exact he

end ErrSystem

/-! ## The status as a register -/

/-- What the compaction error status is for, as a register: a set replaces the error until a
persistent error arrives, which stays and takes no more sets; the error is served on `compErrC`
while there is one, and on `compPerErrC` once it is persistent. Other events leave it. -/
def absStep (st : Option CompErr) : ErrEvent → Option (Option CompErr)
  | .setErr err => if st.any CompErr.persistent then none else some err
  | .getErr err => if st = some err then some st else none
  | .getPerErr err => if st = some err ∧ err.persistent then some st else none
  | _ => some st

/-- The register after a run of events, if it accepts every one. -/
def absRun (st : Option CompErr) : List ErrEvent → Option (Option CompErr)
  | [] => some st
  | ev :: evs => (absStep st ev).bind fun st => absRun st evs

/-- The exchanges on the status: sets and the two serves. -/
def ErrEvent.onStatus : ErrEvent → Bool
  | .setErr _ | .getErr _ | .getPerErr _ => true
  | _ => false

namespace ErrSystem

/-- **One step refines the register**: every event the goroutine takes without returning is one
the register takes, from the error the goroutine serves to the one it serves next. -/
theorem Inv.absStep_served {s s' : ErrSystem} (hs : s.Inv) {ev : ErrEvent}
    (h : s.step ev = some s') (hr : s'.label ≠ .returned) :
    absStep s.label.served ev = some s'.label.served := by
  cases ev with
  | setErr err =>
    obtain ⟨ht, rfl⟩ := step_setErr.1 h
    have hok := hs.label_ok
    rw [ErrLabel.served_afterSet]
    cases hl : s.label <;> simp_all [absStep, ErrLabel.takesSet, ErrLabel.served, ErrLabel.Ok]
  | getErr err =>
    obtain ⟨he, rfl⟩ := step_getErr.1 h
    simp [absStep, he]
  | getPerErr err =>
    obtain ⟨he, rfl⟩ := step_getPerErr.1 h
    have hok := hs.label_ok
    cases hl : s.label <;> simp_all [absStep, ErrLabel.served, ErrLabel.perServed, ErrLabel.Ok]
  | exit => exact (hr (label_exit h)).elim
  | _ =>
    rcases label_step h with he | ⟨-, _, hev, -⟩ | he
    · rw [he]; rfl
    · cases hev
    · exact (hr he).elim

/-- **The register's exchanges are all offered**: in a state where `compactionError` runs, every
set or serve the register takes from the error served, the goroutine takes too, to the same
error. -/
theorem Inv.step_of_absStep {s : ErrSystem} (hs : s.Inv) (hr : s.label ≠ .returned)
    {ev : ErrEvent} (hev : ev.onStatus) {st : Option CompErr}
    (h : absStep s.label.served ev = some st) :
    ∃ s', s.step ev = some s' ∧ s'.label.served = st := by
  have hok := hs.label_ok
  cases ev with
  | setErr err =>
    simp only [absStep, Option.ite_none_left_eq_some, Option.some.injEq] at h
    obtain ⟨hp, rfl⟩ := h
    refine ⟨{ s with label := .afterSet err }, ?_, ErrLabel.served_afterSet err⟩
    cases hl : s.label <;>
      simp_all [ErrSystem.step, ErrLabel.takesSet, ErrLabel.served, ErrLabel.Ok]
  | getErr err =>
    simp only [absStep, Option.ite_none_right_eq_some, Option.some.injEq] at h
    obtain ⟨he, rfl⟩ := h
    exact ⟨s, by simp [ErrSystem.step, he], rfl⟩
  | getPerErr err =>
    simp only [absStep, Option.ite_none_right_eq_some, Option.some.injEq] at h
    obtain ⟨⟨he, hp⟩, rfl⟩ := h
    exact ⟨s, by simp [ErrSystem.step, (hok.perServed_iff he).2 hp], rfl⟩
  | _ => simp [ErrEvent.onStatus] at hev

theorem Inv.absRun_served {s s' : ErrSystem} (hs : s.Inv) {evs : List ErrEvent}
    (h : s.run evs = some s') (hr : s'.label ≠ .returned) :
    absRun s.label.served evs = some s'.label.served := by
  induction evs generalizing s with
  | nil => cases h; rfl
  | cons ev evs ih =>
    obtain ⟨s₁, h₁, h⟩ := run_cons.1 h
    have hr₁ : s₁.label ≠ .returned := fun h₁ => hr (run_returned h₁ h)
    simp only [absRun, hs.absStep_served h₁ hr₁, Option.some_bind]
    exact ih (hs.step h₁) h

end ErrSystem

/-- **`compactionError` implements the status register.** After every run of events from an open
DB in which it has not returned, the register accepts the run and holds the error the goroutine
serves; and every set or serve the register would take next, the goroutine offers, to the same
error. So a goroutine waiting on `compErrC` gets the last error set, or the first persistent one,
and never nil; `compPerErrC` serves only persistent errors; and a set is taken exactly while the
status is not persistent. -/
theorem compactionError_refines {evs : List ErrEvent} {s : ErrSystem}
    (h : ErrSystem.init.run evs = some s) (hr : s.label ≠ .returned) :
    absRun none evs = some s.label.served ∧
      ∀ ev, ev.onStatus → ∀ st, absStep s.label.served ev = some st →
        ∃ s', s.step ev = some s' ∧ s'.label.served = st :=
  ⟨ErrSystem.inv_init.absRun_served h hr,
    fun _ hev _ hst => (ErrSystem.inv_init.run h).step_of_absStep hr hev hst⟩


/-- A run that sets a transient error and then serves it. -/
theorem compactionError_refines_transient :
    ErrSystem.init.run [.setErr (some (.other 1)), .getErr (.other 1)] =
        some ⟨.haserr (.other 1), false, .free, false⟩ ∧
      ErrLabel.haserr (.other 1) ≠ .returned ∧
      absRun none [.setErr (some (.other 1)), .getErr (.other 1)] = some (some (.other 1)) ∧
      ∀ ev, ev.onStatus → ∀ st, absStep (some (.other 1)) ev = some st →
        ∃ s', ErrSystem.step ⟨.haserr (.other 1), false, .free, false⟩ ev = some s' ∧
          s'.label.served = st :=
  ⟨rfl, nofun, @compactionError_refines [.setErr (some (.other 1)), .getErr (.other 1)] _ rfl nofun⟩

/-! ## The write lock -/

/-- **The write lock is released on return.** After every run of events from an open DB,
`compactionError` holds the write lock exactly from its `lockWrite` until it returns, so no writer
takes the lock in between; it took the lock only after a persistent error; and once `closeC` is
closed it can always return, and leaves the lock not held by itself. -/
theorem writeLock_released {evs : List ErrEvent} {s : ErrSystem}
    (h : ErrSystem.init.run evs = some s) :
    (s.lock = .compactionError ↔ s.compWriteLocking ∧ s.label ≠ .returned) ∧
      (s.compWriteLocking →
        ∃ err, err.persistent ∧ (s.label = .hasperr err ∨ s.label = .returned)) ∧
      (s.closing → s.label ≠ .returned →
        ∃ s', s.step .exit = some s' ∧ s'.lock ≠ .compactionError) := by
  have hs := ErrSystem.inv_init.run h
  refine ⟨hs.lock_iff, fun hw => ?_, fun hc hr => ?_⟩
  · rcases hs.locking hw with hp | hr
    · obtain ⟨err, he⟩ := Option.isSome_iff_exists.1 hp
      have hok := hs.label_ok
      cases hl : s.label <;> simp_all [ErrLabel.perServed, ErrLabel.Ok]
    · exact ⟨.readOnly, rfl, .inr hr⟩
  · have hstep : ∃ s', s.step .exit = some s' := by
      by_cases hw : s.label.perServed.isSome && s.compWriteLocking
      · have hce : s.lock = .compactionError := hs.lock_iff.2 ⟨by simp_all, hr⟩
        simp [ErrSystem.step, hc, hr, hw, hce]
      · simp [ErrSystem.step, hc, hr, hw]
    obtain ⟨s', h'⟩ := hstep
    exact ⟨s', h', fun hce => ((hs.step h').lock_iff.1 hce).2 (ErrSystem.label_exit h')⟩

theorem writeLock_released_readOnly :
    ErrSystem.init.run [.setErr (some .readOnly), .lockWrite] =
        some ⟨.hasperr .readOnly, true, .compactionError, false⟩ ∧
      ((LockHolder.compactionError = .compactionError ↔
          true ∧ ErrLabel.hasperr .readOnly ≠ .returned) ∧
        (true → ∃ err, err.persistent ∧
          (ErrLabel.hasperr .readOnly = .hasperr err ∨ ErrLabel.hasperr .readOnly = .returned)) ∧
        (false → ErrLabel.hasperr .readOnly ≠ .returned →
          ∃ s', ErrSystem.step ⟨.hasperr .readOnly, true, .compactionError, false⟩ .exit = some s' ∧
            s'.lock ≠ .compactionError)) :=
  ⟨rfl, @writeLock_released [.setErr (some .readOnly), .lockWrite] _ rfl⟩

/-! ## Reporting an attempt's error -/

/-- What `compactionTransact` does after its `select` reported an attempt's error. -/
inductive TransactNext
  | returns
  /-- Goes on to the backoff and the next attempt. -/
  | retries
  /-- `compactionExitTransact`. -/
  | exits
  deriving DecidableEq, Repr

/-- What `compactionTransact` does after the case `ev` of its `select` reported the error `err` of
an attempt; `none` if `ev` is not a case of that `select`. -/
def reportNext (err : Option CompErr) : ErrEvent → Option TransactNext
  | .setErr e =>
    if e = err then
      some <| match err with
        | none => .returns
        | some err => if err.isCorrupted then .exits else .retries
    else none
  | .getPerErr _ => some (if err.isSome then .exits else .returns)
  | .closeSeen => some .exits
  | _ => none

/-- **A persistent error stops every later failed attempt.** In every run, once a persistent
error has been set, whatever happens after it, an attempt of `compactionTransact` that failed
exits when it reports its error: `compactionError` takes no more sets, so the `select` can only
take `compPerErrC` or `closeC`. -/
theorem transact_exits_after_persistent {pre post : List ErrEvent} {perr : CompErr}
    (hp : perr.persistent) {ev : ErrEvent} {err : CompErr} {next : TransactNext}
    (hrun : ErrSystem.init.run (pre ++ .setErr (some perr) :: post ++ [ev]) ≠ none)
    (hnext : reportNext (some err) ev = some next) : next = .exits := by
  obtain ⟨s, hs⟩ := Option.ne_none_iff_exists'.1 hrun
  obtain ⟨s₀, -, h⟩ := ErrSystem.run_append.1 (by simpa only [List.append_assoc] using hs)
  obtain ⟨s₁, h₁, h⟩ := ErrSystem.run_cons.1 h
  obtain ⟨s₂, h₂, h⟩ := ErrSystem.run_append.1 h
  obtain ⟨s₃, h₃, -⟩ := ErrSystem.run_cons.1 h
  have ht : s₂.label.takesSet = false := by
    refine ErrSystem.run_not_takesSet ?_ h₂
    rw [← (ErrSystem.step_setErr.1 h₁).2]
    simp [ErrLabel.afterSet, hp, ErrLabel.takesSet]
  cases ev with
  | setErr e => simp [ErrSystem.step_setErr, ht] at h₃
  | getPerErr _ | closeSeen => simp_all [reportNext]
  | _ => simp [reportNext] at hnext

theorem transact_exits_after_readOnly :
    CompErr.readOnly.persistent ∧
      ErrSystem.init.run ([] ++ .setErr (some .readOnly) :: [] ++ [.getPerErr .readOnly]) ≠ none ∧
      reportNext (some (.other 0)) (.getPerErr .readOnly) = some .exits ∧
      TransactNext.exits = .exits :=
  ⟨rfl, by decide, rfl,
    @transact_exits_after_persistent [] [] .readOnly rfl (.getPerErr .readOnly) (.other 0) .exits
      (by decide) rfl⟩

end LevelDB

end Workshare
