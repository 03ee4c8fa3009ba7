import Tenso.Cli.IngestRuns
import Tenso.Cli.IngestStages
import Tenso.Ingest.Retry
import Tenso.Lib.ConnScript
import Tenso.Storage.Counts

/-!
# A whole ingest

`run_ingest`: the worker pool and the pipeline of the stages, with the database calls that the store task makes under
the lock, then the candle pass and the statistics. The tasks run in any order; a database call is a `Section`.

- A section as a script, statement by statement, does what it does at once (`Section.run_script`).
- **A concurrent ingest is a sequential one** (`ingest_sequential`): however the tasks interleave and in whatever
  order the fetches end, an ingest that is over leaves the connection and the counts that the store stage leaves on
  the emitted outcomes, one after the other, followed by one candle pass; and these outcomes are those of the slots,
  each once.
-/

namespace Tenso.Cli

open Ingest
open Storage

/-- What an ingest is given: the arguments, the answers of the server, the statements that fail, the arithmetic of
floats, and the iteration orders of the candle pass. -/
structure Setting where
  args : IngestArgs
  answers : Answers
  faults : Faults
  arith : Ohlcv.Arithmetic
  orders : CandleOrders

/-- Where `run_ingest` stands: its stages run, the candle pass or the statistics are due, all is done, or an error is
about to end it. -/
inductive Phase where
  | stages
  | candles
  | stats
  | done (stats : DbStats)
  | failing

/-- An ingest apart from its connection. -/
structure Job where
  stages : Stages
  phase : Phase

/-- A database call of the ingest, made under the lock. -/
inductive Section where
  | status (parsed : ParsedOutcome)
  | flush (blocks : List ParsedBlock)
  | candles
  | stats

/-- The last slot of the candle pass. -/
def IngestArgs.toSlot (args : IngestArgs) : UInt64 := saturatingAdd args.startSlot (saturatingSub args.count 1)

/-! ## Sections -/

/-- A section as a whole. -/
def Section.run (S : Setting) : Section → Conn Store → Except DbError (Option DbStats) × Conn Store
  | .status p, c =>
    let (r, c) := c.execute S.faults (upsertIngestionStatus p.slot p.status.1 p.status.2)
    (r.map fun _ => none, c)
  | .flush blocks, c =>
    let (r, c) := flushParsedBatch S.faults blocks c
    (r.map fun _ => none, c)
  | .candles, c =>
    let (r, c) := buildAndStoreCandles S.arith S.faults S.orders S.args.startSlot S.args.toSlot c
    (r.map fun _ => none, c)
  | .stats, c => (.ok (some (queryDbStats c.store)), c)

/-- `flush_parsed_batch`, statement by statement. -/
def flushScript (f : Faults) (blocks : List ParsedBlock) : Script (Conn Store) (Except DbError Unit) := do
  match ← Conn.transactionScript f ((blocks.map (·.slotRow)).flatMap replaceSlotDataInner) with
  | .error e => pure (.error e)
  | .ok () => Conn.executeScript f (stepStatements blocks)

/-- `build_and_store_candles`, statement by statement. -/
def candleScript (S : Setting) : Script (Conn Store) (Except DbError Unit) := do
  match ← Script.ofCall (Conn.query fun st =>
    queryBalanceChangesForRange S.orders.rows S.args.startSlot S.args.toSlot st) with
  | .error e => pure (.error e)
  | .ok rows =>
    Conn.executeScript S.faults (candleStatements S.arith S.orders (tradesOf S.arith S.orders.snapshots rows))

/-- A section, statement by statement. -/
def Section.script (S : Setting) : Section → Script (Conn Store) (Except DbError (Option DbStats))
  | .status p => do
    let r ← Script.ofCall (Conn.execute S.faults (upsertIngestionStatus p.slot p.status.1 p.status.2))
    return r.map fun _ => none
  | .flush blocks => do
    let r ← flushScript S.faults blocks
    return r.map fun _ => none
  | .candles => do
    let r ← candleScript S
    return r.map fun _ => none
  | .stats => do
    let r ← Script.ofCall (Conn.query fun st => .ok (queryDbStats st))
    return r.map some

theorem run_flushScript (f : Faults) (blocks : List ParsedBlock) (c : Conn Store) :
    (flushScript f blocks).run c = flushParsedBatch f blocks c := by
  rw [flushScript, Script.run_bind, Conn.run_transactionScript, flushParsedBatch, replaceSlotsBatch]
  generalize Conn.transaction f _ c = result
  rcases result with ⟨e | ok, c'⟩
  · rfl
  · exact Conn.run_executeScript _ c'

theorem run_candleScript (S : Setting) {c : Conn Store} (hidle : c.txn = none) : (candleScript S).run c =
    buildAndStoreCandles S.arith S.faults S.orders S.args.startSlot S.args.toSlot c := by
  rw [candleScript, Script.run_bind, Script.run_ofCall, Conn.query_idle hidle, buildAndStoreCandles]
  rcases queryBalanceChangesForRange S.orders.rows S.args.startSlot S.args.toSlot c.store with e | rows
  · rfl
  · exact Conn.run_executeScript _ c

/-- A section statement by statement is the section at once, on an idle connection. -/
theorem Section.run_script (S : Setting) (sec : Section) {c : Conn Store} (hidle : c.txn = none) :
    (sec.script S).run c = sec.run S c := by
  cases sec with
  | status p => rfl
  | flush blocks =>
    rw [Section.script, Script.run_bind, run_flushScript]
    rfl
  | candles =>
    rw [Section.script, Script.run_bind, run_candleScript S hidle]
    rfl
  | stats =>
    rw [Section.script, Script.run_bind, Script.run_ofCall, Conn.query_idle hidle]
    rfl

/-! ## The job -/

/-- The start of an ingest. -/
def Job.start (args : IngestArgs) : Job := ⟨.start args, .stages⟩

/-- The section that the job waits for. -/
def Job.waitsFor (j : Job) : Option Section :=
  match j.phase with
  | .stages =>
    match j.stages.pipeline.store with
    | .writing p => some (.status p)
    | .flushing => some (.flush (j.stages.pipeline.flushes.getLastD []))
    | .finalFlush => some (.flush (j.stages.pipeline.flushes.getLastD []))
    | _ => none
  | .candles => some .candles
  | .stats => some .stats
  | _ => none

/-- The status of `p` is written, and a full batch is handed to a flush. -/
def Pipeline.written (batchSize : ℕ) (s : Pipeline) (p : ParsedOutcome) : Pipeline :=
  if batchSize ≤ (s.write p).tally.pending.length then (s.write p).handOver .flushing else s.write p

/-- The pipeline goes on. -/
def Job.setPipeline (j : Job) (pipeline : Pipeline) : Job := { j with stages := { j.stages with pipeline } }

/-- The job goes on with the result of its section. The result of a flush in the middle of the run is only logged. -/
def Job.resume (batchSize : ℕ) (j : Job) (r : Except DbError (Option DbStats)) : Job :=
  let pipeline := j.stages.pipeline
  match j.phase, pipeline.store, r with
  | .stages, .flushing, _ => j.setPipeline { pipeline with store := .receiving }
  | .stages, .writing p, .ok _ => j.setPipeline (pipeline.written batchSize p)
  | .stages, .finalFlush, .ok _ => j.setPipeline { pipeline with store := .finished true }
  | .candles, _, .ok _ => { j with phase := .stats }
  | .stats, _, .ok (some stats) => { j with phase := .done stats }
  | _, _, _ => { j with phase := .failing }

/-- A step without the database: of the pool or the parse task; of the store task; or the stages are over. -/
inductive Job.Free (S : Setting) : Bool → Job → Job → Prop
  | tasks {j : Job} {stages : Stages} (hphase : j.phase = .stages) (hs : Stages.Step S.args S.answers j.stages stages)
      (hstore : stages.pipeline.store = j.stages.pipeline.store) : Free S false j { j with stages }
  | store {j : Job} {stages : Stages} (hphase : j.phase = .stages) (hs : Stages.Step S.args S.answers j.stages stages)
      (htask : j.stages.pipeline.store = .receiving) (hmoves : stages.pipeline.store ≠ .receiving) :
      Free S true j { j with stages }
  | main {j : Job} (hphase : j.phase = .stages) (hend : j.stages.EndsOk) : Free S true j { j with phase := .candles }

/-- An ingest with its connection. -/
structure IngestState where
  conn : Conn Store
  job : Job

/-- One step of an ingest: a step without the database, or a section. -/
inductive IngestState.Step (S : Setting) : IngestState → IngestState → Prop
  | free {s : IngestState} {own : Bool} {j : Job} (h : Job.Free S own s.job j) : Step S s { s with job := j }
  | whole {s : IngestState} {sec : Section} (hwaits : s.job.waitsFor = some sec) :
      Step S s ⟨(sec.run S s.conn).2, s.job.resume S.args.batchSize (sec.run S s.conn).1⟩

/-- An ingest on a connection, as a transition system. -/
def ingest (S : Setting) (c₀ : Conn Store) : Transition.System IngestState where
  init s := s = ⟨c₀, .start S.args⟩
  step := IngestState.Step S

/-! ## What the tasks do to the store task -/

/-- A step of another task leaves the books of the store task alone. -/
theorem Pipeline.Step.quiet {batchSize : ℕ} {s s' : Pipeline} (hs : Pipeline.Step batchSize s s')
    (h : s'.store = s.store) : s'.processed = s.processed ∧ s'.tally = s.tally ∧ s'.flushes = s.flushes := by
  cases hs with
  | storeRecv htask | storeEnd htask | storeEndPending htask | storeWrite htask | storeFlushed ok htask
  | storeFinal ok htask =>
    rw [htask] at h
    cases h
  | storeWriteFull htask =>
    rw [htask] at h
    cases h
  | _ => exact ⟨rfl, rfl, rfl⟩

theorem Stages.Step.quiet {args : IngestArgs} {answers : Answers} {s s' : Stages} (hs : Stages.Step args answers s s')
    (h : s'.pipeline.store = s.pipeline.store) : s'.pipeline.processed = s.pipeline.processed ∧
      s'.pipeline.tally = s.pipeline.tally ∧ s'.pipeline.flushes = s.pipeline.flushes := by
  cases hs with
  | fetch => exact ⟨rfl, rfl, rfl⟩
  | handOn _ hsend => exact hsend.quiet h
  | task htask => exact htask.quiet h

/-- The store task takes an outcome, or it ends, or it is about to flush what is pending. -/
theorem Stages.Step.moves {args : IngestArgs} {answers : Answers} {s s' : Stages} (hs : Stages.Step args answers s s')
    (htask : s.pipeline.store = .receiving) (hmoves : s'.pipeline.store ≠ .receiving) :
    s'.pipeline.processed = s.pipeline.processed ∧
      (((∃ p, s'.pipeline.store = .writing p) ∧ s'.pipeline.tally = s.pipeline.tally) ∨
      (s'.pipeline.store = .finished true ∧ s'.pipeline.tally = s.pipeline.tally ∧ s.pipeline.tally.pending = []) ∨
      (s'.pipeline.store = .finalFlush ∧ s'.pipeline.tally = s.pipeline.tally.take ∧
        s.pipeline.tally.pending ≠ [] ∧ s'.pipeline.flushes.getLastD [] = s.pipeline.tally.pending)) := by
  cases hs with
  | fetch => exact absurd htask hmoves
  | handOn _ hsend hemit =>
    cases hsend with
    | fetchSend => exact absurd htask hmoves
    | fetchDrop => exact absurd htask hmoves
    | fetchEnd hnone => cases hnone
    | _ => cases hemit
  | task hs =>
    cases hs with
    | storeRecv => exact ⟨rfl, Or.inl ⟨⟨_, rfl⟩, rfl⟩⟩
    | storeEnd _ _ hpending => exact ⟨rfl, Or.inr (Or.inl ⟨rfl, rfl, hpending⟩)⟩
    | storeEndPending _ _ hpending =>
      refine ⟨rfl, Or.inr (Or.inr ⟨rfl, rfl, hpending, ?_⟩)⟩
      show (s.pipeline.flushes ++ [s.pipeline.tally.pending]).getLastD [] = s.pipeline.tally.pending
      rw [List.getLastD_concat]
    | storeWrite hwriting | storeWriteFull hwriting | storeFlushed _ hwriting | storeFinal _ hwriting =>
      rw [htask] at hwriting
      cases hwriting
    | _ => exact absurd htask hmoves

/-! ## The sequential ingest -/

/-- The counts of a tally. -/
def Tally.counts (t : Tally) : ℕ × ℕ × ℕ × ℕ := (t.ingested, t.skipped, t.failed, t.ingestedTxs)

section Sequential

variable (S : Setting) (c₀ : Conn Store)

/-- The outcomes `os`, one after the other, leave the store task with `t` and `conn`. -/
def Looped (os : List ParsedOutcome) (t : Tally) (conn : Conn Store) : Prop :=
  storeLoop S.faults S.args.batchSize os (.init c₀) = (.ok (), ⟨t, conn⟩)

/-- The store stage on the outcomes `os` ends with `t` and `conn`. -/
def Staged (os : List ParsedOutcome) (t : Tally) (conn : Conn Store) : Prop :=
  storeStage S.faults S.args.batchSize os c₀ = (.ok t.counts, ⟨t, conn⟩)

/-- The candle pass after the store stage ends with `conn`. -/
def Passed (os : List ParsedOutcome) (t : Tally) (conn : Conn Store) : Prop :=
  ∃ staged, Staged S c₀ os t staged ∧
    buildAndStoreCandles S.arith S.faults S.orders S.args.startSlot S.args.toSlot staged = (.ok (), conn)

/-- The connection follows the sequential ingest: it is where the store stage is on the outcomes processed so far,
before or after its flush, or where the candle pass has left it. -/
def IngestState.Follows (s : IngestState) : Prop :=
  let pipeline := s.job.stages.pipeline
  let batch := pipeline.flushes.getLastD []
  match s.job.phase with
  | .stages =>
    match pipeline.store with
    | .flushing => pipeline.tally.pending = [] ∧ S.args.batchSize ≤ batch.length ∧
        ∃ os o t conn, pipeline.processed = os ++ [o] ∧ Looped S c₀ os t conn ∧
          recordOutcome S.faults o ⟨t, conn⟩ = (.ok (), ⟨{ pipeline.tally with pending := batch }, s.conn⟩)
    | .finalFlush => pipeline.tally.pending = [] ∧ batch ≠ [] ∧
        Looped S c₀ pipeline.processed { pipeline.tally with pending := batch } s.conn
    | .finished _ => Staged S c₀ pipeline.processed pipeline.tally s.conn
    | _ => Looped S c₀ pipeline.processed pipeline.tally s.conn
  | .candles => Staged S c₀ pipeline.processed pipeline.tally s.conn
  | .stats => Passed S c₀ pipeline.processed pipeline.tally s.conn
  | .done stats => Passed S c₀ pipeline.processed pipeline.tally s.conn ∧ stats = queryDbStats s.conn.store
  | .failing => True

variable {S c₀} {os : List ParsedOutcome} {t t' : Tally} {conn conn' : Conn Store}

theorem Looped.next {o : ParsedOutcome} (h : Looped S c₀ os t conn)
    (hone : storeOutcome S.faults S.args.batchSize o ⟨t, conn⟩ = (.ok (), ⟨t', conn'⟩)) :
    Looped S c₀ (os ++ [o]) t' conn' :=
  storeLoop_append.2 ⟨_, h, storeLoop_singleton.2 hone⟩

/-- One turn without a flush. -/
theorem Looped.record {o : ParsedOutcome} (h : Looped S c₀ os t conn)
    (hrec : recordOutcome S.faults o ⟨t, conn⟩ = (.ok (), ⟨t', conn'⟩))
    (hsize : ¬S.args.batchSize ≤ t'.pending.length) :
    Looped S c₀ (os ++ [o]) t' conn' :=
  h.next (storeOutcome_eq_ok.2 ⟨_, hrec, (if_neg hsize).symm⟩)

/-- One turn with a flush, whatever its result. -/
theorem Looped.flush {o : ParsedOutcome} {batch : List ParsedBlock} (h : Looped S c₀ os t conn)
    (hrec : recordOutcome S.faults o ⟨t, conn⟩ = (.ok (), ⟨{ t' with pending := batch }, conn'⟩))
    (hsize : S.args.batchSize ≤ batch.length) (hpending : t'.pending = []) :
    Looped S c₀ (os ++ [o]) t' (flushParsedBatch S.faults batch conn').2 := by
  refine h.next (storeOutcome_eq_ok.2 ⟨_, hrec, ?_⟩)
  rw [if_pos hsize]
  obtain ⟨pending, ingested, ingestedTxs, skipped, failed⟩ := t'
  obtain rfl : pending = [] := hpending
  rfl

/-- The stage ends with nothing pending. -/
theorem Looped.staged (h : Looped S c₀ os t conn) (hpending : t.pending = []) : Staged S c₀ os t conn := by
  rw [Staged, storeStage, h]
  simp [hpending, Tally.counts]

/-- The stage ends with a last flush. -/
theorem Looped.flushed {batch : List ParsedBlock} (h : Looped S c₀ os { t with pending := batch } conn)
    (hpending : t.pending = []) (hbatch : batch ≠ [])
    (hflush : flushParsedBatch S.faults batch conn = (.ok (), conn')) : Staged S c₀ os t conn' := by
  obtain ⟨pending, ingested, ingestedTxs, skipped, failed⟩ := t
  obtain rfl : pending = [] := hpending
  rw [Staged, storeStage, h]
  simp only [List.isEmpty_iff, hbatch, if_false, flushPending, hflush]
  rfl

end Sequential

/-! ## The connection follows -/

/-- A step without the database keeps the connection where it is. -/
theorem IngestState.Follows.free {S : Setting} {c₀ : Conn Store} {s : IngestState} {own : Bool} {j : Job}
    (h : s.Follows S c₀) (hj : Job.Free S own s.job j) : IngestState.Follows S c₀ { s with job := j } := by
  obtain ⟨conn, stages, phase⟩ := s
  cases hj with
  | tasks hphase hs hstore =>
    obtain rfl : phase = .stages := hphase
    obtain ⟨hprocessed, htally, hflushes⟩ := hs.quiet hstore
    simp only [IngestState.Follows] at h ⊢
    rw [hstore, hprocessed, htally, hflushes]
    exact h
  | store hphase hs htask hmoves =>
    obtain rfl : phase = .stages := hphase
    have hloop : Looped S c₀ stages.pipeline.processed stages.pipeline.tally conn := by
      simp only at htask
      simpa only [IngestState.Follows, htask] using h
    obtain ⟨hprocessed, hcase⟩ := hs.moves htask hmoves
    simp only [IngestState.Follows, hprocessed]
    rcases hcase with ⟨⟨p, hstore⟩, htally⟩ | ⟨hstore, htally, hpending⟩ | ⟨hstore, htally, hpending, hflushes⟩
    · simp only [hstore, htally]
      exact hloop
    · simp only [hstore, htally]
      exact hloop.staged hpending
    · simp only [hstore, htally, hflushes]
      exact ⟨rfl, hpending, hloop⟩
  | main hphase hend =>
    obtain rfl : phase = .stages := hphase
    have hstore : stages.pipeline.store = .finished true := hend.2.2
    simpa only [IngestState.Follows, hstore] using h

/-- The status of `p` is written: the pipeline goes on as the store stage does. -/
theorem Looped.written {S : Setting} {c₀ conn conn' : Conn Store} {stages : Stages} {p : ParsedOutcome}
    (h : Looped S c₀ stages.pipeline.processed stages.pipeline.tally conn)
    (hexec : conn.execute S.faults (upsertIngestionStatus p.slot p.status.1 p.status.2) = (.ok (), conn')) :
    IngestState.Follows S c₀
      ⟨conn', ⟨{ stages with pipeline := stages.pipeline.written S.args.batchSize p }, .stages⟩⟩ := by
  have hrec : recordOutcome S.faults p ⟨stages.pipeline.tally, conn⟩ =
      (.ok (), ⟨(stages.pipeline.write p).tally, conn'⟩) := by
    rw [recordOutcome, hexec]
    rfl
  unfold Pipeline.written
  split
  · rename_i hsize
    refine ⟨rfl, ?_, _, p, _, _, rfl, h, ?_⟩
    · show S.args.batchSize ≤
          ((stages.pipeline.flushes ++ [(stages.pipeline.write p).tally.pending]).getLastD []).length
      rw [List.getLastD_concat]
      exact hsize
    · show _ = (Except.ok (), (⟨{ (stages.pipeline.write p).tally.take with
        pending := (stages.pipeline.flushes ++ [(stages.pipeline.write p).tally.pending]).getLastD [] }, conn'⟩ :
          StoreState))
      rw [List.getLastD_concat]
      exact hrec
  · rename_i hsize
    exact h.record hrec hsize

/-- A section takes the connection where the sequential ingest goes. -/
theorem IngestState.Follows.whole {S : Setting} {c₀ : Conn Store} {s : IngestState} {sec : Section} (h : s.Follows S c₀)
    (hwaits : s.job.waitsFor = some sec) : IngestState.Follows S c₀
      ⟨(sec.run S s.conn).2, s.job.resume S.args.batchSize (sec.run S s.conn).1⟩ := by
  obtain ⟨conn, stages, phase⟩ := s
  cases phase with
  | done stats => cases hwaits
  | failing => cases hwaits
  | candles =>
    obtain rfl : Section.candles = sec := Option.some.inj hwaits
    simp only [Section.run]
    rcases hpass : buildAndStoreCandles S.arith S.faults S.orders S.args.startSlot S.args.toSlot conn
      with ⟨e | ok, conn'⟩
    · exact trivial
    · exact ⟨conn, h, hpass⟩
  | stats =>
    obtain rfl : Section.stats = sec := Option.some.inj hwaits
    exact ⟨h, rfl⟩
  | stages =>
    cases hstore : stages.pipeline.store with
    | receiving | finished ok =>
      simp only [Job.waitsFor, hstore] at hwaits
      cases hwaits
    | writing p =>
      simp only [Job.waitsFor, hstore, Option.some.injEq] at hwaits
      subst hwaits
      simp only [IngestState.Follows, hstore] at h
      simp only [Section.run]
      rcases hexec : conn.execute S.faults (upsertIngestionStatus p.slot p.status.1 p.status.2) with ⟨e | ok, conn'⟩
      · simp only [Job.resume, hstore]
        exact trivial
      · simp only [Job.resume, hstore]
        exact h.written hexec
    | flushing =>
      simp only [Job.waitsFor, hstore, Option.some.injEq] at hwaits
      subst hwaits
      simp only [IngestState.Follows, hstore] at h
      obtain ⟨hpending, hsize, os, o, t, conn₁, hprocessed, hloop, hrec⟩ := h
      have hnext := hloop.flush hrec hsize hpending
      rw [← hprocessed] at hnext
      simp only [Section.run, Job.resume, hstore]
      exact hnext
    | finalFlush =>
      simp only [Job.waitsFor, hstore, Option.some.injEq] at hwaits
      subst hwaits
      simp only [IngestState.Follows, hstore] at h
      obtain ⟨hpending, hbatch, hloop⟩ := h
      simp only [Section.run]
      rcases hflush : flushParsedBatch S.faults (stages.pipeline.flushes.getLastD []) conn with ⟨e | ok, conn'⟩
      · simp only [Job.resume, hstore]
        exact trivial
      · simp only [Job.resume, hstore]
        exact hloop.flushed hpending hbatch hflush

/-! ## The stages of an ingest -/

/-- The stages of an ingest only make steps of their own. -/
theorem IngestState.Step.stages {S : Setting} {s s' : IngestState} (hs : IngestState.Step S s s') :
    Stages.Step S.args S.answers s.job.stages s'.job.stages ∨ s'.job.stages = s.job.stages := by
  cases hs with
  | free h =>
    cases h with
    | tasks _ hs => exact Or.inl hs
    | store _ hs => exact Or.inl hs
    | main => exact Or.inr rfl
  | @whole sec hwaits =>
    obtain ⟨conn, stages, phase⟩ := s
    generalize (sec.run S conn).1 = r
    have hsame {p : Pipeline} (hs : Pipeline.Step S.args.batchSize stages.pipeline p)
        (hclosed : p.fetchParse.closed = stages.pipeline.fetchParse.closed) :
        Stages.Step S.args S.answers stages { stages with pipeline := p } :=
      .task hs fun h => Or.inl (hclosed ▸ h)
    cases phase with
    | done stats => cases hwaits
    | failing => cases hwaits
    | candles => cases r <;> exact Or.inr rfl
    | stats => rcases r with e | (_ | stats) <;> exact Or.inr rfl
    | stages =>
      cases hstore : stages.pipeline.store with
      | receiving | finished ok =>
        simp only [Job.waitsFor, hstore] at hwaits
        cases hwaits
      | writing p =>
        simp only [Job.resume, hstore]
        cases r with
        | error e => exact Or.inr rfl
        | ok r =>
          refine Or.inl (hsame (p := stages.pipeline.written S.args.batchSize p) ?_ ?_)
          · unfold Pipeline.written
            split
            · rename_i hsize
              exact .storeWriteFull hstore hsize
            · rename_i hsize
              exact .storeWrite hstore hsize
          · unfold Pipeline.written
            split <;> rfl
      | flushing =>
        simp only [Job.resume, hstore]
        exact Or.inl (hsame (.storeFlushed true hstore) rfl)
      | finalFlush =>
        simp only [Job.resume, hstore]
        cases r with
        | error e => exact Or.inr rfl
        | ok r => exact Or.inl (hsame (.storeFinal true hstore) rfl)

theorem ingest_stages {S : Setting} {c₀ : Conn Store} {s : IngestState} (h : Transition.Reachable (ingest S c₀) s) :
    Transition.Reachable (stages S.args S.answers) s.job.stages :=
  @Transition.Reachable.map IngestState Stages (ingest S c₀) (stages S.args S.answers) (fun s => s.job.stages)
    (fun _ h0 => by rw [h0]; rfl) (fun _ _ _ hs => hs.stages) s h

/-- Once the stages are over, they stay so. -/
def Job.Over (j : Job) : Prop := j.phase = .stages ∨ j.phase = .failing ∨ j.stages.EndsOk

theorem IngestState.Step.over {S : Setting} {s s' : IngestState} (hs : IngestState.Step S s s') (h : s.job.Over) :
    s'.job.Over := by
  cases hs with
  | free hj =>
    cases hj with
    | tasks hphase => exact Or.inl hphase
    | store hphase => exact Or.inl hphase
    | main _ hend => exact Or.inr (Or.inr hend)
  | @whole sec hwaits =>
    obtain ⟨conn, stages, phase⟩ := s
    generalize (sec.run S conn).1 = r
    cases phase with
    | done stats => cases hwaits
    | failing => cases hwaits
    | candles =>
      have hend := (h.resolve_left nofun).resolve_left nofun
      cases r <;> exact Or.inr (Or.inr hend)
    | stats =>
      have hend := (h.resolve_left nofun).resolve_left nofun
      rcases r with e | (_ | stats) <;> exact Or.inr (Or.inr hend)
    | stages =>
      cases hstore : stages.pipeline.store with
      | receiving | finished ok =>
        simp only [Job.waitsFor, hstore] at hwaits
        cases hwaits
      | flushing =>
        simp only [Job.resume, hstore]
        exact Or.inl rfl
      | writing p | finalFlush =>
        simp only [Job.resume, hstore]
        cases r with
        | error e => exact Or.inr (Or.inl rfl)
        | ok r => exact Or.inl rfl

/-- The outcomes that are emitted are those of `fetch_one`. -/
structure Stages.OnTrack (answers : Answers) (s : Stages) : Prop where
  pool : s.pool.OnTrack (getBlock answers)
  emitted : ∀ o ∈ s.pipeline.emitted, o = fetchOutcome (getBlock answers) o.slot

theorem stages_onTrack {args : IngestArgs} {answers : Answers} {s : Stages}
    (h : Transition.Reachable (stages args answers) s) : s.OnTrack answers := by
  induction h with
  | init h0 =>
    rw [h0]
    refine ⟨Pool.onTrack (.init rfl), nofun⟩
  | @step s s' h hs ih =>
    cases hs with
    | fetch hquiet hpool => exact ⟨ih.pool.step hpool, ih.emitted⟩
    | @handOn outcome pipeline hphase hsend hemit =>
      have hhand : outcome ∈ s.pool.phase.hand := by
        rw [hphase]
        exact List.mem_singleton_self _
      obtain ⟨slot, rfl⟩ := ih.pool.hand outcome hhand
      refine ⟨ih.pool.step (.handedOn hphase), ?_⟩
      show ∀ o ∈ pipeline.emitted, _
      rw [(emitted_of_offer hsend hemit).1]
      refine List.forall_mem_append.2 ⟨ih.emitted, List.forall_mem_singleton.2 ?_⟩
      rw [slot_fetchOutcome]
    | @task pipeline htask hend =>
      refine ⟨ih.pool, ?_⟩
      show ∀ o ∈ pipeline.emitted, _
      rw [(emitted_of_nil htask (stages_inv h).toEmit).2]
      exact ih.emitted

/-- The slots that an ingest attempts: those of the range, if there is a worker. -/
def IngestArgs.attempted (args : IngestArgs) : List UInt64 := if args.maxConcurrency = 0 then [] else args.slots

/-- The outcomes of the attempted slots, in the order of the slots. -/
def IngestArgs.outcomes (args : IngestArgs) (answers : Answers) : List FetchOutcome :=
  args.attempted.map (fetchOutcome (getBlock answers))

/-- The emitted outcomes are those of the attempted slots, each once. -/
theorem emitted_perm {args : IngestArgs} {answers : Answers} {s : Stages}
    (h : Transition.Reachable (stages args answers) s) (hend : s.EndsOk) :
    s.pipeline.emitted.Perm (args.outcomes answers) := by
  have hserved := (stages_inv h).served hend
  have hown : s.pipeline.emitted = (s.pipeline.emitted.map (·.slot)).map (fetchOutcome (getBlock answers)) := by
    rw [List.map_map]
    conv => lhs; rw [← List.map_id s.pipeline.emitted]
    exact List.map_congr_left fun o ho => (stages_onTrack h).emitted o ho
  by_cases h0 : args.maxConcurrency = 0
  · rw [IngestArgs.outcomes, IngestArgs.attempted, if_pos h0, hserved.none h0]
    exact .refl _
  · rw [IngestArgs.outcomes, IngestArgs.attempted, if_neg h0, hown]
    exact (hserved.slots h0).map _

/-- At any time, what is emitted is an outcome of an attempted slot. -/
theorem emitted_mem {args : IngestArgs} {answers : Answers} {s : Stages}
    (h : Transition.Reachable (stages args answers) s) {o : FetchOutcome} (ho : o ∈ s.pipeline.emitted) :
    o ∈ args.outcomes answers := by
  have hserves := (stages_inv h).pool
  have hslot : o.slot ∈ args.slots := hserves.all.mem_iff.1 (List.mem_append_left _ (List.mem_map_of_mem ho))
  by_cases h0 : args.maxConcurrency = 0
  · rw [List.map_eq_nil_iff.1 (hserves.idle h0).2.2] at ho
    cases ho
  · rw [IngestArgs.outcomes, IngestArgs.attempted, if_neg h0, (stages_onTrack h).emitted o ho]
    exact List.mem_map_of_mem hslot

/-! ## An ingest of one slot -/

/-- Slot 5, in batches of `batchSize`; the transactions of a slot are those of `txs`. -/
def oneSlot (txs : UInt64 → List DecodedTransaction) (batchSize : ℕ) : Setting :=
  ⟨⟨5, 1, 1, 1, batchSize⟩, fun slot _ => .ok (some 0, txs slot), fun _ => false, .exact, storedOrder⟩

/-- Slot 5, whose block buys tokens. -/
def buySetting (batchSize : ℕ) : Setting := oneSlot (fun slot => (buyBlock slot).transactions) batchSize

/-- The block is in the hands of the store task, and the other tasks are over. -/
def takenPipeline (d : DecodedBlock) : Pipeline :=
  { toEmit := [], emitted := [.ingested d], fetchParse := Channel.empty.close, parser := .finished,
    parseStore := Channel.empty.close, store := .writing (parseOutcome (.ingested d)), tally := .zero,
    processed := [], statusWrites := [], flushes := [] }

theorem exists_taken (txs : UInt64 → List DecodedTransaction) (batchSize : ℕ) (st : Store) : ∃ pool,
    Transition.Reachable (ingest (oneSlot txs batchSize) ⟨st, none, 0⟩)
      ⟨⟨st, none, 0⟩, ⟨⟨pool, takenPipeline ⟨5, some 0, txs 5⟩⟩, .stages⟩⟩ := by
  have hstart : Transition.Reachable (ingest (oneSlot txs batchSize) ⟨st, none, 0⟩)
      ⟨⟨st, none, 0⟩, .start (oneSlot txs batchSize).args⟩ := .init rfl
  -- the fetch task: one request, one outcome
  have hgranted := hstart.step
    (.free (.tasks rfl (.fetch rfl (.granted rfl (List.nil_append _).symm le_rfl (poll_zero le_rfl le_rfl))) rfl))
  have hanswered := hgranted.step (.free (.tasks rfl (.fetch rfl (.answer rfl (List.nil_append _).symm)) rfl))
  have hnext := hanswered.step (.free (.tasks rfl (.fetch rfl (.next rfl (List.nil_append _).symm)) rfl))
  have hsent := hnext.step (.free (.tasks rfl (.handOn rfl (.fetchSend rfl ⟨nofun, nofun⟩ rfl) rfl) rfl))
  have hfinished := hsent.step (.free (.tasks rfl (.fetch rfl (.finish rfl rfl)) rfl))
  -- the parse task
  have hfetched := hfinished.step (.free (.tasks rfl (.task (.fetchEnd rfl rfl) fun _ => Or.inr rfl) rfl))
  have hreceived := hfetched.step (.free (.tasks rfl (.task (.parseRecv rfl rfl) fun _ => Or.inr rfl) rfl))
  have hparsed := hreceived.step (.free (.tasks rfl (.task (.parse rfl) fun _ => Or.inr rfl) rfl))
  have hforwarded := hparsed.step (.free (.tasks rfl (.task (.parseSend rfl nofun rfl) fun _ => Or.inr rfl) rfl))
  have hclosed := hforwarded.step (.free (.tasks rfl (.task (.parseEnd rfl rfl) fun _ => Or.inr rfl) rfl))
  exact ⟨_, hclosed.step (.free (.store rfl (.task (.storeRecv rfl rfl) fun _ => Or.inr rfl) rfl nofun))⟩

/-- From a candle pass that succeeds to the end. -/
theorem exists_done {S : Setting} {c₀ : Conn Store} {s : IngestState} (h : Transition.Reachable (ingest S c₀) s)
    (hphase : s.job.phase = .candles)
    (hok : (buildAndStoreCandles S.arith S.faults S.orders S.args.startSlot S.args.toSlot s.conn).1 = .ok ()) :
    ∃ s' stats, Transition.Reachable (ingest S c₀) s' ∧ s'.job.phase = .done stats ∧ s'.job.stages = s.job.stages ∧
      s'.conn = (buildAndStoreCandles S.arith S.faults S.orders S.args.startSlot S.args.toSlot s.conn).2 := by
  obtain ⟨conn, stages, phase⟩ := s
  obtain rfl : phase = .candles := hphase
  have hpassed := h.step (@IngestState.Step.whole S _ .candles rfl)
  simp only [Section.run] at hpassed
  rcases hpass : buildAndStoreCandles S.arith S.faults S.orders S.args.startSlot S.args.toSlot conn with ⟨e | ok, conn'⟩
  · rw [hpass] at hok
    cases hok
  · rw [hpass] at hpassed
    exact ⟨_, _, hpassed.step (@IngestState.Step.whole S _ .stats rfl), rfl, rfl, rfl⟩

/-- The connection after the status and the flush of the block. -/
def boughtConn (st : Store) : Conn Store :=
  (flushParsedBatch (fun _ => false) [parseBlock (buyBlock 5)]
    (Conn.execute (fun _ => false) (upsertIngestionStatus 5 "ingested" none) ⟨st, none, 0⟩).2).2

theorem candles_boughtConn :
    (buildAndStoreCandles .exact (fun _ => false) storedOrder 5 5 (boughtConn .empty)).1 = .ok () := by
  decide +kernel

theorem toSlot_oneSlot (txs : UInt64 → List DecodedTransaction) (batchSize : ℕ) :
    (oneSlot txs batchSize).args.toSlot = 5 := by
  show saturatingAdd 5 (saturatingSub 1 1) = 5
  decide

/-- With batches of one block, the store task flushes in the middle of the run. -/
theorem exists_one {txs : UInt64 → List DecodedTransaction} (h5 : txs 5 = (buyBlock 5).transactions) {st : Store}
    (hok : (buildAndStoreCandles .exact (fun _ => false) storedOrder 5 5 (boughtConn st)).1 = .ok ()) : ∃ s stats,
    Transition.Reachable (ingest (oneSlot txs 1) ⟨st, none, 0⟩) s ∧ s.job.phase = .done stats ∧
      s.job.stages.pipeline.processed = [parseOutcome (.ingested (buyBlock 5))] ∧
      s.conn = (buildAndStoreCandles .exact (fun _ => false) storedOrder 5 5 (boughtConn st)).2 := by
  obtain ⟨pool, htaken⟩ := exists_taken txs 1 st
  rw [h5] at htaken
  have hwritten :=
    htaken.step (@IngestState.Step.whole (oneSlot txs 1) _ (.status (parseOutcome (.ingested (buyBlock 5)))) rfl)
  have hflushed := hwritten.step (.whole rfl)
  have hended := hflushed.step (.free (.store rfl (.task (.storeEnd rfl rfl rfl) fun _ => Or.inl rfl) rfl nofun))
  have hcandles := hended.step (.free (.main rfl ⟨rfl, rfl, rfl⟩))
  have hto := toSlot_oneSlot txs 1
  obtain ⟨s, stats, hs, hphase, hstages, hconn⟩ := exists_done hcandles rfl (by rw [hto]; exact hok)
  rw [hto] at hconn
  exact ⟨s, stats, hs, hphase, by rw [hstages]; rfl, hconn⟩

/-- With batches of two, it flushes at the end. -/
theorem exists_buyTwo : ∃ s stats, Transition.Reachable (ingest (buySetting 2) ⟨.empty, none, 0⟩) s ∧
    s.job.phase = .done stats ∧ s.job.stages.pipeline.processed = [parseOutcome (.ingested (buyBlock 5))] := by
  obtain ⟨pool, htaken⟩ := exists_taken (fun slot => (buyBlock slot).transactions) 2 .empty
  have hwritten :=
    htaken.step (@IngestState.Step.whole (buySetting 2) _ (.status (parseOutcome (.ingested (buyBlock 5)))) rfl)
  have hended :=
    hwritten.step (.free (.store rfl (.task (.storeEndPending rfl rfl (List.cons_ne_nil _ _)) fun _ => Or.inl rfl)
    rfl nofun))
  have hflushed := hended.step (.whole rfl)
  have hcandles := hflushed.step (.free (.main rfl ⟨rfl, rfl, rfl⟩))
  obtain ⟨s, stats, hs, hphase, hstages, _⟩ := exists_done hcandles rfl candles_boughtConn
  exact ⟨s, stats, hs, hphase, by rw [hstages]; rfl⟩

/-! ## A concurrent ingest is a sequential one -/

theorem ingest_follows {S : Setting} {c₀ : Conn Store} {s : IngestState} (h : Transition.Reachable (ingest S c₀) s) :
    s.Follows S c₀ ∧ s.job.Over := by
  refine h.invariant (I := fun s => s.Follows S c₀ ∧ s.job.Over) ?_ ?_
  · rintro s rfl
    exact ⟨rfl, Or.inl rfl⟩
  · rintro s s' ⟨hf, ho⟩ hs
    refine ⟨?_, hs.over ho⟩
    cases hs with
    | free hj => exact hf.free hj
    | whole hwaits => exact hf.whole hwaits

/-- An ingest that is over has processed the outcomes of the attempted slots, and the sequential ingest on them leaves
its connection. -/
theorem ingest_done {S : Setting} {c₀ : Conn Store} {s : IngestState} {stats : DbStats}
    (h : Transition.Reachable (ingest S c₀) s) (hdone : s.job.phase = .done stats) :
    s.job.stages.pipeline.processed = s.job.stages.pipeline.emitted.map parseOutcome ∧
    s.job.stages.pipeline.emitted.Perm (S.args.outcomes S.answers) ∧
    Passed S c₀ s.job.stages.pipeline.processed s.job.stages.pipeline.tally s.conn ∧
    stats = queryDbStats s.conn.store := by
  obtain ⟨hfollows, hover⟩ := ingest_follows h
  have hstages := ingest_stages h
  obtain ⟨conn, stages, phase⟩ := s
  obtain rfl : phase = .done stats := hdone
  obtain ⟨hclosed, hparser, hstore⟩ : stages.EndsOk := (hover.resolve_left nofun).resolve_left nofun
  have hprocessed := (stages_inv hstages).pipeline.processed_eq ⟨hclosed, hparser, true, hstore⟩
  exact ⟨hprocessed, emitted_perm hstages ⟨hclosed, hparser, hstore⟩, hfollows⟩

/-- **A concurrent ingest is a sequential one.** However the tasks interleave and in whatever order the fetches end:
an ingest that is over has stored what the store stage stores on the outcomes of the slots, each once and in some
order, one after the other, and one candle pass after it; its counts are those of that stage, its statistics those of
the store. -/
theorem ingest_sequential (S : Setting) (c₀ : Conn Store) (s : IngestState) (stats : DbStats)
    (h : Transition.Reachable (ingest S c₀) s) (hdone : s.job.phase = .done stats) :
    ∃ outcomes : List FetchOutcome, outcomes.Perm (S.args.outcomes S.answers) ∧
      ∃ staged, storeStage S.faults S.args.batchSize (outcomes.map parseOutcome) c₀ =
          (.ok s.job.stages.pipeline.tally.counts, staged) ∧
        buildAndStoreCandles S.arith S.faults S.orders S.args.startSlot S.args.toSlot staged.conn = (.ok (), s.conn) ∧
        stats = queryDbStats s.conn.store := by
  obtain ⟨hprocessed, hperm, ⟨staged, hstaged, hpass⟩, hstats⟩ := ingest_done h hdone
  rw [hprocessed] at hstaged
  exact ⟨s.job.stages.pipeline.emitted, hperm, _, hstaged, hpass, hstats⟩

/-- The ingest of one block, flushed in the middle of the run. -/
theorem ingest_sequential_example : ∃ (s : IngestState) (stats : DbStats),
    s.job.stages.pipeline.processed = [parseOutcome (.ingested (buyBlock 5))] ∧
    ∃ outcomes : List FetchOutcome, outcomes.Perm ((buySetting 1).args.outcomes (buySetting 1).answers) ∧
      ∃ staged, storeStage (buySetting 1).faults 1 (outcomes.map parseOutcome) ⟨.empty, none, 0⟩ =
          (.ok s.job.stages.pipeline.tally.counts, staged) ∧
        buildAndStoreCandles (buySetting 1).arith (buySetting 1).faults (buySetting 1).orders 5 5 staged.conn =
          (.ok (), s.conn) ∧
        stats = queryDbStats s.conn.store := by
  obtain ⟨s, stats, h, hdone, hprocessed, _⟩ :=
    @exists_one (fun slot => (buyBlock slot).transactions) rfl _ candles_boughtConn
  exact ⟨s, stats, hprocessed, ingest_sequential (buySetting 1) ⟨.empty, none, 0⟩ s stats h hdone⟩

end Tenso.Cli
