import Workshare.LevelDB.Writer

/-!
# The build pipeline

A build runs as three goroutines. `run` hands the kept entries, in `bufferedIter` batches, to
`writeLoop` over the channel `iterC` (capacity 16); `writeLoop` appends them to tables and hands
each table it closes to `flushLoop` over `twC` (capacity 8); `flushLoop` finishes each table and adds
it to the record at `sourceLevel + 1`. When a stage returns, its deferred function closes the
channel it writes, drops the table it holds, and waits for the next stage's result; `run`'s own
deferred function, on an error, removes the files of the tables in the record and resets it.

`Pipe` is the state of the three, the two channels, the record and the files the attempt created;
`Step` is every operation one of them can take next, guards included, so a run of the pipeline is any
interleaving of them. Failures of I/O (`create`, `append`, `finish`, the input iterator) and the exit
at the pause check are steps too.

## Implementation notes

* The batches `run` will hand off are given up front (`producing`); how `run` computes them is
  `Workshare.LevelDB.Build`, and their boundaries are arbitrary here.
* `tWriter.finish`, `tWriter.drop` and `tOps.create` live in `table.go`, which is not among the
  sources. As in that file, `drop` removes the table's file, a failed `create` makes none, and
  `finish` never removes one: it closes the writer, whether it fails or not. Removing a file with a
  number not in storage does nothing, as removing a file twice does.
* `select` between a send and a receive on `errC` picks either ready case; a stage's result reaches
  `errC` only after its deferred function, so only `run` ever takes that case early.
* Removing files never fails here, so `revert` does not stop half-way.

## Main results

* `Pipe.Step.healthy_of_healthy` — an error, once raised, is never forgotten
* `Pipe.Step.inv` — the invariant: what is written is the sequential writer on what was consumed
* `pipeline_writes_sequential` — a build that returns nil adds exactly the tables of the sequential
  writer, at `sourceLevel + 1`, none empty
* `pipeline_leaks_table` — a table whose `finish` fails stays in storage after the attempt failed
-/

namespace Workshare

namespace LevelDB

variable {K V : Type}

/-- The capacity of `iterC`, `make(chan *bufferedIter, 16)`. -/
def iterCCap : ℕ := 16

/-- The capacity of `twC`, `make(chan *tWriter, 8)`. -/
def twCCap : ℕ := 8

/-- A table being written (`tWriter`): its file number and the entries appended so far. -/
structure TWriter (K V : Type) where
  num : ℕ
  entries : List (Entry K V)
  deriving DecidableEq

/-- `tw.append(key, value)`. -/
def TWriter.appendEntry (t : TWriter K V) (k : Kept K V) : TWriter K V := ⟨t.num, t.entries ++ [k.entry]⟩

/-- The table files the attempt created that are still in storage, and the next file number
`allocFileNum` hands out. -/
structure Storage where
  files : List ℕ
  nextNum : ℕ
  deriving DecidableEq

/-- `tOps.create`: a new file, and its number. -/
def Storage.create (st : Storage) : Storage × ℕ := (⟨st.files ++ [st.nextNum], st.nextNum + 1⟩, st.nextNum)

/-- `stor.Remove` of each of the files `ns`. -/
def Storage.removeAll (st : Storage) (ns : List ℕ) : Storage := { st with files := st.files.removeAll ns }

/-- Where `run` is: in its loop with the batches still to hand off; returned, or unwinding by
`errCompactionTransactExiting`, with its deferred function waiting for `writeLoop`; or done. -/
inductive RunPhase (K V : Type)
  | producing (todo : List (List (Kept K V)))
  | exiting (err unwinding : Bool)
  | finished (err unwinding : Bool)
  deriving DecidableEq

/-- Where `writeLoop` is: in its loop, with the rest of the current batch and the open table;
returned, before its deferred function; waiting for `flushLoop`; or done. -/
inductive WritePhase (K V : Type)
  | running (cur : List (Kept K V)) (tw : Option (TWriter K V))
  | exiting (err : Bool) (tw : Option (TWriter K V))
  | waiting (err : Bool)
  | finished (err : Bool)
  deriving DecidableEq

/-- Where `flushLoop` is: in its loop; returned with an error, its deferred function dropping what
`twC` still brings; or done. -/
inductive FlushPhase
  | running
  | draining
  | finished (err : Bool)
  deriving DecidableEq

/-- `run` has neither failed nor unwound. -/
def RunPhase.ok : RunPhase K V → Bool
  | .producing _ => true
  | .exiting err unwinding | .finished err unwinding => !err && !unwinding

/-- `writeLoop` has not failed. -/
def WritePhase.ok : WritePhase K V → Bool
  | .running _ _ => true
  | .exiting err _ | .waiting err | .finished err => !err

/-- `flushLoop` has not failed. -/
def FlushPhase.ok : FlushPhase → Bool
  | .running => true
  | .draining => false
  | .finished err => !err

/-- The rest of `writeLoop`'s current batch. -/
def WritePhase.cur : WritePhase K V → List (Kept K V)
  | .running cur _ => cur
  | _ => []

/-- The batches `run` still has, flattened. -/
def RunPhase.todo : RunPhase K V → List (Kept K V)
  | .producing todo => todo.flatten
  | _ => []

/-- `writeLoop` is in its loop. -/
def WritePhase.inLoop : WritePhase K V → Bool
  | .running _ _ => true
  | _ => false

/-- `writeLoop` may still hand a table to `twC`. -/
def WritePhase.live : WritePhase K V → Bool
  | .running _ _ | .exiting _ _ => true
  | _ => false

/-- The state of one attempt of the build. -/
structure Pipe (K V : Type) where
  run : RunPhase K V
  iterC : List (List (Kept K V))
  iterClosed : Bool
  write : WritePhase K V
  twC : List (TWriter K V)
  twClosed : Bool
  flush : FlushPhase
  /-- `rec.addedTables`: the level and the table of each. -/
  added : List (ℕ × TWriter K V)
  store : Storage

/-- What the pipeline is built with: the output level `sourceLevel + 1`, `tableSize`, and the bytes a
table writer has written for its entries. -/
structure PipeConfig (K V : Type) where
  level : ℕ
  tableSize : ℕ
  bytesLen : List (Entry K V) → ℕ

namespace Pipe

/-- An attempt before anything ran: `run` has the batches `todo`, file numbers start at `n`. -/
def init (todo : List (List (Kept K V))) (n : ℕ) : Pipe K V :=
  ⟨.producing todo, [], false, .running [] none, [], false, .running, [], ⟨[], n⟩⟩

/-- Whether the entry `k` closes the open table `tw`. -/
def rotatesOpen (cfg : PipeConfig K V) : Option (TWriter K V) → Kept K V → Bool
  | some t, k => rotates cfg.tableSize cfg.bytesLen t.entries k
  | none, _ => false

/-- `writeLoop` before appending `k`: the table it hands to `twC`, if `k` closes `tw`, and the table
still open. -/
def flushFor (cfg : PipeConfig K V) (tw : Option (TWriter K V)) (k : Kept K V) :
    List (TWriter K V) × Option (TWriter K V) :=
  if rotatesOpen cfg tw k then (tw.toList, none) else ([], tw)

/-- Then the table to append to: the open one, or one in a new file. -/
def openFor (st : Storage) : Option (TWriter K V) → Storage × TWriter K V
  | some t => (st, t)
  | none => (st.create.1, ⟨st.create.2, []⟩)

/-- The table `writeLoop` appends `k` to while `tw` is open. -/
def tableFor (cfg : PipeConfig K V) (s : Pipe K V) (tw : Option (TWriter K V)) (k : Kept K V) :
    TWriter K V :=
  (openFor s.store (flushFor cfg tw k).2).2

/-- The pipe once `writeLoop` has flushed and opened the tables for `k`, its own phase then `w`. -/
def appendEntry (cfg : PipeConfig K V) (s : Pipe K V) (tw : Option (TWriter K V)) (k : Kept K V)
    (w : WritePhase K V) : Pipe K V :=
  { s with twC := s.twC ++ (flushFor cfg tw k).1, store := (openFor s.store (flushFor cfg tw k).2).1, write := w }

/-- The deferred functions once `writeLoop` has returned: on an error `run` removes the files of the
added tables and resets the record; when unwinding, `revert` removes the files of those left. -/
def finishRun (s : Pipe K V) (err unwinding : Bool) : Pipe K V :=
  { s with store := if err || unwinding then s.store.removeAll (s.added.map (·.2.num)) else s.store,
           added := if err then [] else s.added, run := .finished err unwinding }

/-- One operation of one of the three goroutines. -/
inductive Step (cfg : PipeConfig K V) : Pipe K V → Pipe K V → Prop
  /-- `iterC <- bIter`. -/
  | runSend {s : Pipe K V} {b bs} : s.run = .producing (b :: bs) → s.iterC.length < iterCCap →
      Step cfg s { s with run := .producing bs, iterC := s.iterC ++ [b] }
  /-- The input is done and `run` returns nil; its deferred function closes `iterC`. -/
  | runDone {s : Pipe K V} : s.run = .producing [] →
      Step cfg s { s with run := .exiting false false, iterClosed := true }
  /-- `run` returns an error of its own: a key that does not parse in strict mode, `iter.Error()`. -/
  | runFail {s : Pipe K V} {todo} : s.run = .producing todo →
      Step cfg s { s with run := .exiting true false, iterClosed := true }
  /-- `compactionExitTransact` at the pause check: `run` unwinds. -/
  | runExit {s : Pipe K V} {todo} : s.run = .producing todo →
      Step cfg s { s with run := .exiting false true, iterClosed := true }
  /-- `case err := <-errC`: `writeLoop` has returned its error. -/
  | runRecvErr {s : Pipe K V} {todo} : s.run = .producing todo → s.write = .finished true →
      Step cfg s { s with run := .exiting true false, iterClosed := true }
  /-- `run`'s deferred function takes `writeLoop`'s result. -/
  | runCleanup {s : Pipe K V} {err unwinding werr} : s.run = .exiting err unwinding →
      s.write = .finished werr → Step cfg s (s.finishRun (err || werr) unwinding)
  /-- `for iter := range iterC`: the next batch. -/
  | writeRecv {s : Pipe K V} {b rest tw} : s.write = .running [] tw → s.iterC = b :: rest →
      Step cfg s { s with write := .running b tw, iterC := rest }
  /-- One entry: flush if needed, create a table if there is none, append. -/
  | writeEntry {s : Pipe K V} {k cur tw} : s.write = .running (k :: cur) tw →
      (rotatesOpen cfg tw k = true → s.twC.length < twCCap) →
      Step cfg s (s.appendEntry cfg tw k (.running cur (some ((s.tableFor cfg tw k).appendEntry k))))
  /-- `tops.create` fails. -/
  | writeCreateFail {s : Pipe K V} {k cur tw} : s.write = .running (k :: cur) tw →
      (rotatesOpen cfg tw k = true → s.twC.length < twCCap) → (flushFor cfg tw k).2 = none →
      Step cfg s { s with twC := s.twC ++ (flushFor cfg tw k).1, write := .exiting true none }
  /-- `tw.append` fails. -/
  | writeAppendFail {s : Pipe K V} {k cur tw} : s.write = .running (k :: cur) tw →
      (rotatesOpen cfg tw k = true → s.twC.length < twCCap) →
      Step cfg s (s.appendEntry cfg tw k (.exiting true (some (s.tableFor cfg tw k))))
  /-- `iterC` is closed and drained: hand the last table to `twC` and return nil. -/
  | writeEndFlush {s : Pipe K V} {t} : s.write = .running [] (some t) → t.entries ≠ [] →
      s.iterC = [] → s.iterClosed = true → s.twC.length < twCCap →
      Step cfg s { s with twC := s.twC ++ [t], write := .exiting false none }
  /-- `iterC` is closed and drained, and no table is open with entries: return nil. -/
  | writeEnd {s : Pipe K V} {tw} : s.write = .running [] tw → (∀ t ∈ tw, t.entries = []) →
      s.iterC = [] → s.iterClosed = true → Step cfg s { s with write := .exiting false tw }
  /-- `writeLoop`'s deferred function: close `twC`, drop the open table (`tw.drop`). -/
  | writeClose {s : Pipe K V} {err tw} : s.write = .exiting err tw →
      Step cfg s { s with store := s.store.removeAll (tw.toList.map TWriter.num), write := .waiting err,
                          twClosed := true }
  /-- ... and take `flushLoop`'s result. -/
  | writeFinish {s : Pipe K V} {err ferr} : s.write = .waiting err → s.flush = .finished ferr →
      Step cfg s { s with write := .finished (err || ferr) }
  /-- `tw.finish()` succeeds: `rec.addTableFile(sourceLevel+1, t)`. -/
  | flushTable {s : Pipe K V} {t rest} : s.flush = .running → s.twC = t :: rest →
      Step cfg s { s with twC := rest, added := s.added ++ [(cfg.level, t)] }
  /-- `tw.finish()` fails and `flushLoop` returns. -/
  | flushFail {s : Pipe K V} {t rest} : s.flush = .running → s.twC = t :: rest →
      Step cfg s { s with twC := rest, flush := .draining }
  /-- `twC` is closed and drained: return nil. -/
  | flushEnd {s : Pipe K V} : s.flush = .running → s.twC = [] → s.twClosed = true →
      Step cfg s { s with flush := .finished false }
  /-- `flushLoop`'s deferred function drops a queued table (`tw.drop`). -/
  | flushDrop {s : Pipe K V} {t rest} : s.flush = .draining → s.twC = t :: rest →
      Step cfg s { s with twC := rest, store := s.store.removeAll [t.num] }
  /-- ... until `twC` is closed and drained. -/
  | flushDrainEnd {s : Pipe K V} : s.flush = .draining → s.twC = [] → s.twClosed = true →
      Step cfg s { s with flush := .finished true }

/-! ## Health -/

/-- No stage of the attempt has failed, and it is not unwinding. -/
def Healthy (s : Pipe K V) : Prop := s.run.ok = true ∧ s.write.ok = true ∧ s.flush.ok = true

variable {cfg : PipeConfig K V} {s s' : Pipe K V}

/-- **An error, once raised, is never forgotten.** -/
theorem Step.healthy_of_healthy (h : Step cfg s s') (hs' : s'.Healthy) : s.Healthy := by
  obtain ⟨hr, hw, hf⟩ := hs'
  cases h <;> simp only [finishRun, appendEntry] at hr hw hf <;>
    simp_all [Healthy, RunPhase.ok, WritePhase.ok, FlushPhase.ok]

/-! ## What is written is the sequential writer -/

/-- The tables handed on so far: those in the record, then those queued on `twC`. -/
def closedTables (s : Pipe K V) : List (List (Entry K V)) :=
  s.added.map (·.2.entries) ++ s.twC.map TWriter.entries

/-- The kept entries `writeLoop` has not appended yet. -/
def pending (s : Pipe K V) : List (Kept K V) := s.write.cur ++ s.iterC.flatten ++ s.run.todo

/-- The tables of the pipe are those of the sequential writer on the entries `done`. -/
def Writes (cfg : PipeConfig K V) (done : List (Kept K V)) (s : Pipe K V) : Prop :=
  match s.write with
  | .running _ tw => writeFold cfg.tableSize cfg.bytesLen done = ⟨s.closedTables, tw.map TWriter.entries⟩
  | _ => writeTables cfg.tableSize cfg.bytesLen done = s.closedTables ∧ s.iterClosed = true ∧ s.iterC = []

/-- The invariant of an attempt whose `run` started with the kept entries `ks`. -/
structure Inv (cfg : PipeConfig K V) (ks : List (Kept K V)) (s : Pipe K V) : Prop where
  producing_open : ∀ todo, s.run = .producing todo → s.iterClosed = false
  twClosed_done : s.twClosed = true → s.write.live = false
  flush_done : ∀ ferr, s.flush = .finished ferr → s.twC = [] ∧ s.twClosed = true
  write_done : ∀ werr, s.write = .finished werr → ∃ ferr, s.flush = .finished ferr ∧ (ferr → werr)
  run_done : ∀ err unwinding, s.run = .finished err unwinding →
    ∃ werr, s.write = .finished werr ∧ (werr → err)
  level : ∀ p ∈ s.added, p.1 = cfg.level
  consumed : s.Healthy → ∃ done, ks = done ++ s.pending ∧ s.Writes cfg done

theorem inv_init (todo : List (List (Kept K V))) (n : ℕ) : Inv cfg todo.flatten (init todo n) where
  producing_open _ _ := rfl
  twClosed_done h := absurd h Bool.false_ne_true
  flush_done _ h := absurd h FlushPhase.noConfusion
  write_done _ h := absurd h WritePhase.noConfusion
  run_done _ _ h := absurd h RunPhase.noConfusion
  level _ h := absurd h (List.not_mem_nil _)
  consumed _ := ⟨[], by simp [pending, init, WritePhase.cur, RunPhase.todo], rfl⟩

/-- Appending one entry in the pipe is one step of the sequential writer. -/
theorem writeStep_appendEntry (p : Pipe K V) (C : List (List (Entry K V))) (tw : Option (TWriter K V))
    (k : Kept K V) :
    writeStep cfg.tableSize cfg.bytesLen ⟨C, tw.map TWriter.entries⟩ k =
      ⟨C ++ (flushFor cfg tw k).1.map TWriter.entries, some ((p.tableFor cfg tw k).appendEntry k).entries⟩ := by
  cases tw with
  | none => simp [writeStep, flushFor, rotatesOpen, tableFor, openFor, TWriter.appendEntry]
  | some t =>
    by_cases hr : rotates cfg.tableSize cfg.bytesLen t.entries k <;>
      simp [writeStep, flushFor, rotatesOpen, tableFor, openFor, TWriter.appendEntry, hr]

theorem Step.producing_open (h : Step cfg s s')
    (hpo : ∀ todo, s.run = .producing todo → s.iterClosed = false) :
    ∀ todo, s'.run = .producing todo → s'.iterClosed = false := by
  intro todo ht
  cases h <;> first | exact hpo todo ht | exact hpo _ (by assumption) | cases ht

theorem Step.twClosed_done (h : Step cfg s s') (htc : s.twClosed = true → s.write.live = false) :
    s'.twClosed = true → s'.write.live = false := by
  intro hc
  cases h with
  | writeClose | writeFinish => rfl
  | writeRecv hw | writeEntry hw | writeCreateFail hw | writeAppendFail hw | writeEndFlush hw |
      writeEnd hw => exact absurd (htc hc) (by simp [hw, WritePhase.live])
  | _ => exact htc hc

theorem Step.flush_done (h : Step cfg s s') (htc : s.twClosed = true → s.write.live = false)
    (hfd : ∀ ferr, s.flush = .finished ferr → s.twC = [] ∧ s.twClosed = true) :
    ∀ ferr, s'.flush = .finished ferr → s'.twC = [] ∧ s'.twClosed = true := by
  intro ferr hf
  cases h with
  | writeClose => exact ⟨(hfd ferr hf).1, rfl⟩
  | writeEntry hw | writeCreateFail hw | writeAppendFail hw | writeEndFlush hw =>
    exact absurd (htc (hfd ferr hf).2) (by simp [hw, WritePhase.live])
  | flushTable hfl | flushDrop hfl => simp [hfl] at hf
  | flushFail => cases hf
  | flushEnd _ h0 h1 | flushDrainEnd _ h0 h1 => exact ⟨h0, h1⟩
  | _ => exact hfd ferr hf


theorem Step.write_done (h : Step cfg s s')
    (hwd : ∀ werr, s.write = .finished werr → ∃ ferr, s.flush = .finished ferr ∧ (ferr → werr)) :
    ∀ werr, s'.write = .finished werr → ∃ ferr, s'.flush = .finished ferr ∧ (ferr → werr) := by
  intro werr hw
  cases h with
  | writeFinish _ hf => cases hw; exact ⟨_, hf, fun h => by simp [h]⟩
  | flushTable hf | flushFail hf | flushEnd hf | flushDrop hf | flushDrainEnd hf =>
    obtain ⟨_, h', -⟩ := hwd werr hw; simp [hf] at h'
  | writeRecv | writeEntry | writeCreateFail | writeAppendFail | writeEndFlush | writeEnd |
      writeClose => cases hw
  | _ => exact hwd werr hw

theorem Step.run_done (h : Step cfg s s')
    (hrd : ∀ err unwinding, s.run = .finished err unwinding →
      ∃ werr, s.write = .finished werr ∧ (werr → err)) :
    ∀ err unwinding, s'.run = .finished err unwinding →
      ∃ werr, s'.write = .finished werr ∧ (werr → err) := by
  intro err unwinding hr
  cases h with
  | runCleanup _ hw =>
    simp only [finishRun, RunPhase.finished.injEq] at hr
    obtain ⟨rfl, -⟩ := hr
    exact ⟨_, hw, fun h => by simp [h]⟩
  | writeRecv hw | writeEntry hw | writeCreateFail hw | writeAppendFail hw | writeEndFlush hw |
      writeEnd hw | writeClose hw | writeFinish hw =>
    obtain ⟨_, h', -⟩ := hrd err unwinding hr; simp [hw] at h'
  | runSend | runDone | runFail | runExit | runRecvErr => cases hr
  | _ => exact hrd err unwinding hr

theorem Step.level (h : Step cfg s s') (hlv : ∀ p ∈ s.added, p.1 = cfg.level) :
    ∀ p ∈ s'.added, p.1 = cfg.level := by
  intro p hp
  cases h with
  | runCleanup => simp only [finishRun] at hp; split_ifs at hp; exacts [absurd hp (List.not_mem_nil _), hlv p hp]
  | flushTable => rcases List.mem_append.mp hp with hp | hp; exacts [hlv p hp, by simp_all]
  | _ => exact hlv p hp


theorem writes_running {done : List (Kept K V)} {cur tw} (h : s.write = .running cur tw) :
    s.Writes cfg done ↔ writeFold cfg.tableSize cfg.bytesLen done = ⟨s.closedTables, tw.map TWriter.entries⟩ := by
  simp only [Writes, h]

theorem writes_done {done : List (Kept K V)} (h : s.write.inLoop = false) :
    s.Writes cfg done ↔
      writeTables cfg.tableSize cfg.bytesLen done = s.closedTables ∧ s.iterClosed = true ∧ s.iterC = [] := by
  unfold Writes
  split <;> simp_all [WritePhase.inLoop]

theorem Writes.of_running {t : Pipe K V} {done : List (Kept K V)} {cur cur' tw}
    (hs : s.write = .running cur tw) (ht : t.write = .running cur' tw) (hc : t.closedTables = s.closedTables)
    (hw : s.Writes cfg done) : t.Writes cfg done := by
  rw [writes_running ht, hc, ← writes_running hs]; exact hw

theorem Writes.of_done {t : Pipe K V} {done : List (Kept K V)} (hs : s.write.inLoop = false)
    (ht : t.write.inLoop = false) (hc : t.closedTables = s.closedTables) (hcl : t.iterClosed = s.iterClosed)
    (hic : t.iterC = s.iterC) (hw : s.Writes cfg done) : t.Writes cfg done := by
  rw [writes_done ht, hc, hcl, hic, ← writes_done hs]; exact hw

/-- A healthy run in its loop has `writeLoop` in its loop too. -/
theorem inLoop_of_producing {done : List (Kept K V)} {todo} (hr : s.run = .producing todo)
    (hpo : ∀ todo, s.run = .producing todo → s.iterClosed = false) (hw : s.Writes cfg done) :
    ∃ cur tw, s.write = .running cur tw := by
  cases hwr : s.write with
  | running cur tw => exact ⟨cur, tw, rfl⟩
  | _ => have := ((writes_done (by simp [hwr, WritePhase.inLoop])).mp hw).2.1; simp_all

/-- Once `iterC` is closed, `run` has nothing left to hand on. -/
theorem todo_of_closed (hpo : ∀ todo, s.run = .producing todo → s.iterClosed = false)
    (hcl : s.iterClosed = true) : s.run.todo = [] := by
  cases hr : s.run with
  | producing todo => simp_all
  | _ => rfl

theorem Step.consumed {ks : List (Kept K V)} (h : Step cfg s s')
    (hpo : ∀ todo, s.run = .producing todo → s.iterClosed = false)
    (hcs : s.Healthy → ∃ done, ks = done ++ s.pending ∧ s.Writes cfg done) (hs' : s'.Healthy) :
    ∃ done, ks = done ++ s'.pending ∧ s'.Writes cfg done := by
  obtain ⟨done, hks, hw⟩ := hcs (h.healthy_of_healthy hs')
  cases h with
  | runSend hr _ | runDone hr =>
    obtain ⟨cur, tw, hwr⟩ := inLoop_of_producing hr hpo hw
    exact ⟨done, by simp [hks, pending, hr, RunPhase.todo], hw.of_running hwr hwr rfl⟩
  | runCleanup hr hwf =>
    simp only [Healthy, finishRun, RunPhase.ok, Bool.and_eq_true, Bool.not_eq_eq_eq_not, Bool.not_true,
      Bool.or_eq_false_iff] at hs'
    obtain ⟨⟨⟨rfl, rfl⟩, rfl⟩, -⟩ := hs'
    have hd : s.write.inLoop = false := by simp [hwf, WritePhase.inLoop]
    exact ⟨done, by simpa [pending, hr, RunPhase.todo, finishRun] using hks, hw.of_done hd hd rfl rfl rfl⟩
  | writeRecv hwr hic =>
    exact ⟨done, by simp [hks, pending, hwr, hic, WritePhase.cur], hw.of_running hwr rfl rfl⟩
  | @writeEntry k cur tw hwr _ =>
    refine ⟨done ++ [k], by simp [hks, pending, hwr, WritePhase.cur, appendEntry], (writes_running rfl).mpr ?_⟩
    rw [writeFold_append, (writes_running hwr).mp hw, writeStep_appendEntry s]
    simp [closedTables, appendEntry]
  | writeEndFlush hwr _ hic hcl _ =>
    have hfold := (writes_running hwr).mp hw
    refine ⟨done, by simpa [pending, hwr, hic, WritePhase.cur, todo_of_closed hpo hcl] using hks,
      (writes_done (by rfl)).mpr ⟨?_, hcl, hic⟩⟩
    simp [writeTables, hfold, closedTables]
  | @writeEnd tw hwr hempty hic hcl =>
    have hfold := (writes_running hwr).mp hw
    refine ⟨done, by simpa [pending, hwr, hic, WritePhase.cur, todo_of_closed hpo hcl] using hks,
      (writes_done (by rfl)).mpr ⟨?_, hcl, hic⟩⟩
    cases tw with
    | none => simp [writeTables, hfold, closedTables]
    | some t =>
      have := (@writeFold_noEmpty _ _ cfg.tableSize cfg.bytesLen done).2
      simp_all
  | writeClose hwr | writeFinish hwr =>
    have hd : s.write.inLoop = false := by simp [hwr, WritePhase.inLoop]
    exact ⟨done, by simpa [pending, hwr, WritePhase.cur] using hks, hw.of_done hd rfl rfl rfl rfl⟩
  | @flushTable t rest _ htw =>
    refine ⟨done, hks, ?_⟩
    have hc : closedTables { s with twC := rest, added := s.added ++ [(cfg.level, t)] } = s.closedTables := by
      simp [closedTables, htw]
    cases hwr : s.write with
    | running cur tw => exact hw.of_running hwr rfl hc
    | _ => exact hw.of_done (by simp [hwr, WritePhase.inLoop]) rfl hc rfl rfl
  | flushEnd => exact ⟨done, hks, hw⟩
  | flushDrop hf => simp [Healthy, FlushPhase.ok, hf] at hs'
  | _ => simp [Healthy, RunPhase.ok, WritePhase.ok, FlushPhase.ok, appendEntry] at hs'


/-- **The invariant holds after every step.** -/
theorem Step.inv {ks : List (Kept K V)} (h : Step cfg s s') (hi : Inv cfg ks s) : Inv cfg ks s' where
  producing_open := h.producing_open hi.producing_open
  twClosed_done := h.twClosed_done hi.twClosed_done
  flush_done := h.flush_done hi.twClosed_done hi.flush_done
  write_done := h.write_done hi.write_done
  run_done := h.run_done hi.run_done
  level := h.level hi.level
  consumed := h.consumed hi.producing_open hi.consumed

theorem inv_of_reachable {todo : List (List (Kept K V))} {n : ℕ}
    (h : Relation.ReflTransGen (Step cfg) (init todo n) s) : Inv cfg todo.flatten s := by
  induction h with
  | refl => exact inv_init todo n
  | tail _ hstep ih => exact hstep.inv ih

end Pipe

open Pipe in
/-- **A build that returns nil writes the sequential partition.** Whatever the batches `run` cuts the
kept entries into, and however the three goroutines interleave over the bounded channels, when `run`
returns nil the tables added to the record are the tables of the sequential writer on the kept
entries, in order: together they hold every kept entry once, in order, each is non-empty and at the
output level. -/
theorem pipeline_writes_sequential (cfg : PipeConfig K V) (todo : List (List (Kept K V))) (n : ℕ)
    {s : Pipe K V} (h : Relation.ReflTransGen (Step cfg) (init todo n) s)
    (hok : s.run = .finished false false) :
    s.added.map (·.2.entries) = writeTables cfg.tableSize cfg.bytesLen todo.flatten ∧
      (s.added.map (·.2.entries)).flatten = todo.flatten.map Kept.entry ∧
      ∀ p ∈ s.added, p.1 = cfg.level ∧ p.2.entries ≠ [] := by
  have hi := inv_of_reachable h
  obtain ⟨werr, hw, hwe⟩ := hi.run_done false false hok
  obtain rfl : werr = false := by simpa using hwe
  obtain ⟨ferr, hf, hfe⟩ := hi.write_done false hw
  obtain rfl : ferr = false := by simpa using hfe
  have hhealthy : s.Healthy := by simp [Healthy, hok, hw, hf, RunPhase.ok, WritePhase.ok, FlushPhase.ok]
  obtain ⟨done, hks, hwr⟩ := hi.consumed hhealthy
  obtain ⟨htab, -, hic⟩ := (writes_done (by simp [hw, WritePhase.inLoop])).mp hwr
  have hdone : todo.flatten = done := by simp [hks, pending, hw, hok, hic, WritePhase.cur, RunPhase.todo]
  have hadded : s.added.map (·.2.entries) = writeTables cfg.tableSize cfg.bytesLen todo.flatten := by
    rw [hdone, htab, closedTables, (hi.flush_done false hf).1, List.map_nil, List.append_nil]
  refine ⟨hadded, by rw [hadded, flatten_writeTables], fun p hp => ⟨hi.level p hp, ?_⟩⟩
  exact writeTables_ne_nil _ _ (hadded ▸ List.mem_map_of_mem _ hp)

/-- One batch holding one kept entry. -/
def oneBatch : List (List (Kept ℕ ℕ)) := [[⟨⟨makeInternalKey 2 5 .val, 1⟩, true, false⟩]]

/-- Output at level 2, 100-byte tables, nothing written before a table is finished. -/
def exPipeConfig : PipeConfig ℕ ℕ := ⟨2, 100, fun _ => 0⟩

theorem pipeline_writes_sequential_oneBatch :
    ∃ s, Relation.ReflTransGen (Pipe.Step exPipeConfig) (Pipe.init oneBatch 7) s ∧
      s.run = .finished false false ∧
      (s.added.map (·.2.entries) = writeTables exPipeConfig.tableSize exPipeConfig.bytesLen oneBatch.flatten ∧
        (s.added.map (·.2.entries)).flatten = oneBatch.flatten.map Kept.entry ∧
        ∀ p ∈ s.added, p.1 = exPipeConfig.level ∧ p.2.entries ≠ []) :=
  have trace : Relation.ReflTransGen (Pipe.Step exPipeConfig) (Pipe.init oneBatch 7) _ :=
    .head (.runSend rfl (by decide)) <| .head (.runDone rfl) <| .head (.writeRecv rfl rfl) <|
    .head (.writeEntry rfl (by decide)) <| .head (.writeEndFlush rfl (by decide) rfl rfl (by decide)) <|
    .head (.flushTable rfl rfl) <| .head (.writeClose rfl) <| .head (.flushEnd rfl rfl rfl) <|
    .head (.writeFinish rfl rfl) <| .head (.runCleanup rfl rfl) .refl
  ⟨_, trace, rfl, pipeline_writes_sequential _ _ _ trace rfl⟩

/-- **A table whose `finish` fails is left in storage.** `flushLoop` returns on the error without
dropping that table, and `run` removes only the tables of the record: the attempt fails, the record
is empty, and the file it created is still there. -/
theorem pipeline_leaks_table :
    ∃ s, Relation.ReflTransGen (Pipe.Step exPipeConfig) (Pipe.init oneBatch 7) s ∧
      s.run = .finished true false ∧ s.added = [] ∧ 7 ∈ s.store.files :=
  ⟨_, .head (.runSend rfl (by decide)) <| .head (.runDone rfl) <| .head (.writeRecv rfl rfl) <|
    .head (.writeEntry rfl (by decide)) <| .head (.writeEndFlush rfl (by decide) rfl rfl (by decide)) <|
    .head (.flushFail rfl rfl) <| .head (.writeClose rfl) <| .head (.flushDrainEnd rfl rfl rfl) <|
    .head (.writeFinish rfl rfl) <| .head (.runCleanup rfl rfl) .refl, rfl, rfl, by decide⟩

end LevelDB

end Workshare
