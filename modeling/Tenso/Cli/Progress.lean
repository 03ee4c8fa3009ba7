import Tenso.Cli.Ingest
import Tenso.Ingest.Progress

/-!
# An ingest ends

Full channels stop the tasks in front of them, but never all tasks: an ingest that is not over can go on
(`IngestState.exists_step`), and each of its steps brings the end nearer, unless a fetch task asks for a token in vain
(`IngestState.Step.left`). So an ingest can always end if the limiter grants a token a second, or there is nothing to
fetch, and only then (`ingest_canEnd_iff`); and it does end if tokens arrive (`ingest_ends`).
-/

namespace Tenso.Cli

open Tenso.Ingest (FetchOutcome FetchPhase Pool PoolPhase TokenBucket)
open Transition Storage

/-! ## What is left -/

/-- The steps that the parse task has left with what it holds. -/
def ParseTask.left : ParseTask → ℕ
  | .receiving => 1
  | .parsing _ => 6
  | .sending _ => 5
  | .finished => 0
  | .bailed => 0

/-- The steps that the store task has left with what it holds. -/
def StoreTask.left : StoreTask → ℕ
  | .receiving => 2
  | .writing _ => 4
  | .flushing => 3
  | .finalFlush => 1
  | .finished _ => 0

/-- The steps that the pipeline has left. -/
def Pipeline.left (s : Pipeline) : ℕ :=
  7 * s.toEmit.length + 6 * s.fetchParse.items.length + s.parser.left + 3 * s.parseStore.items.length + s.store.left +
    (!s.fetchParse.closed).toNat

/-- The steps that the stages have left. -/
def Stages.left (s : Stages) : ℕ := s.pool.left + 7 * s.pool.pending + s.pipeline.left

/-- The steps that the job has left after the stages. -/
def Phase.left : Phase → ℕ
  | .stages => 3
  | .candles => 2
  | .stats => 1
  | .done _ => 0
  | .failing => 0

/-- The steps that the job has left. -/
def Job.left (j : Job) : ℕ := j.phase.left + j.stages.left

/-- The job is over. -/
def Job.Ended (j : Job) : Prop := (∃ stats, j.phase = .done stats) ∨ j.phase = .failing

/-- Every step of the pipeline brings its end nearer. -/
theorem Pipeline.Step.left {batchSize : ℕ} {s s' : Pipeline} (hs : Pipeline.Step batchSize s s') :
    s'.left < s.left := by
  cases hs with
  | fetchSend hemit _ hsend =>
    obtain ⟨hitems, hclosed⟩ := Channel.send_spec hsend
    simp only [Pipeline.left, hemit, hitems, hclosed, List.length_append, List.length_cons, List.length_nil]
    omega
  | fetchDrop hemit =>
    simp only [Pipeline.left, hemit, List.length_cons]
    omega
  | fetchEnd hemit hopen => simp [Pipeline.left, hopen]
  | parseRecv htask hrecv =>
    obtain ⟨hitems, hclosed⟩ := Channel.recv_item hrecv
    simp only [Pipeline.left, htask, hitems, hclosed, ParseTask.left, List.length_cons]
    omega
  | parse htask =>
    simp only [Pipeline.left, htask, ParseTask.left]
    omega
  | parseSend htask _ hsend =>
    simp only [Pipeline.left, htask, (Channel.send_spec hsend).1, ParseTask.left, List.length_append, List.length_cons,
      List.length_nil]
    omega
  | parseBail htask | parseEnd htask =>
    simp only [Pipeline.left, htask, ParseTask.left, Channel.close_items]
    omega
  | storeRecv htask hrecv =>
    simp only [Pipeline.left, htask, (Channel.recv_item hrecv).1, StoreTask.left, List.length_cons]
    omega
  | storeWrite htask | storeWriteFull htask =>
    simp only [Pipeline.left, Pipeline.write, Pipeline.handOver, htask, StoreTask.left]
    omega
  | storeFlushed ok htask | storeEnd htask | storeFinal ok htask =>
    simp only [Pipeline.left, htask, StoreTask.left]
    omega
  | storeEndPending htask =>
    simp only [Pipeline.left, Pipeline.handOver, htask, StoreTask.left]
    omega

/-- A fetch task asks for a token in vain. -/
def Stages.Denied (s s' : Stages) : Prop :=
  (∃ t ∈ s.pool.inFlight, t.phase = .acquiring) ∧ ∃ limiter, s' = { s with pool := { s.pool with limiter } }

section Stages

variable {args : IngestArgs} {answers : Answers} {s s' : Stages}

theorem Stages.left_task {pipeline : Pipeline} (hs : Pipeline.Step args.batchSize s.pipeline pipeline) :
    Stages.left { s with pipeline } < s.left := by
  have hlt := hs.left
  simp only [Stages.left]
  omega

theorem Stages.left_handOn {outcome : FetchOutcome} {pipeline : Pipeline} (hphase : s.pool.phase = .handingOn outcome)
    (hs : Pipeline.Step args.batchSize { s.pipeline with toEmit := [outcome] } pipeline) :
    Stages.left { pool := Pool.refill { s.pool with phase := .polling }, pipeline } < s.left := by
  have hlt := hs.left
  simp only [Pipeline.left, List.length_singleton] at hlt
  obtain ⟨hleft, hpending⟩ := Pool.refill_left { s.pool with phase := .polling }
  simp only [Stages.left, hleft, hpending]
  simp only [Pool.left, Pool.pending, Pipeline.left, hphase, PoolPhase.left, PoolPhase.hand, List.length_singleton,
    List.length_nil]
  omega

theorem Stages.left_fetch {pool : Pool} (hquiet : s.pool.phase.hand = [])
    (hs : Pool.Step (Ingest.getBlock answers) s.pool pool) (hlt : pool.left < s.pool.left) :
    Stages.left { s with pool } < s.left := by
  simp only [Stages.left, hs.pending hquiet]
  omega

/-- A step of the stages brings their end nearer, unless a fetch task asks for a token in vain. -/
theorem Stages.Step.left (hs : Stages.Step args answers s s') (htrack : s.OnTrack answers) :
    s'.left < s.left ∨ s.Denied s' := by
  cases hs with
  | fetch hquiet hpool =>
    rcases hpool.left htrack.pool with hlt | ⟨⟨limiter, rfl⟩, hthirsty⟩
    · exact Or.inl (Stages.left_fetch hquiet hpool hlt)
    · exact Or.inr ⟨hthirsty, limiter, rfl⟩
  | handOn hphase hsend => exact Or.inl (Stages.left_handOn hphase hsend)
  | task htask => exact Or.inl (Stages.left_task htask)

/-! ## Full channels -/

/-- From a channel that is not open or not empty, something is received. -/
theorem exists_recv {α : Type} {cap : ℕ} {c : Channel α cap} (hopen : c.closed = false) (hne : c.items ≠ []) :
    ∃ a rest, c.recv = some (.item a rest) := by
  cases hrecv : c.recv with
  | none => exact absurd (Channel.recv_blocked hrecv).1 hne
  | some r =>
    cases r with
    | item a rest => exact ⟨a, rest, rfl⟩
    | ended =>
      rw [(Channel.recv_ended hrecv).2] at hopen
      cases hopen

/-- A full channel is not empty. -/
theorem items_ne_nil {α : Type} {c : Channel α pipelineCapacity} {a : α} (h : c.send a = none) : c.items ≠ [] := by
  intro hnil
  obtain ⟨c', hc'⟩ := Channel.exists_send (c := c) (by rw [hnil]; exact Nat.zero_lt_two) a
  rw [hc'] at h
  cases h

/-- The pool is never stuck with an outcome: while there is no room for it, a task behind the channel goes on. -/
theorem Stages.exists_handOn {outcome : FetchOutcome} (hinv : s.Inv args) (hstore : s.pipeline.store = .receiving)
    (hphase : s.pool.phase = .handingOn outcome) : ∃ s', Stages.Step args answers s s' ∧ s'.left < s.left := by
  have hclosing := hinv.pipeline.closing
  have hopen : s.pipeline.fetchParse.closed = false := by
    by_contra hclosed
    have hfinished := hinv.closed (by simpa using hclosed)
    rw [hphase] at hfinished
    cases hfinished
  have hrun : s.pipeline.parser ≠ .finished := fun hp => by
    rw [(hclosing.parser hp).1] at hopen
    cases hopen
  have hopen' : s.pipeline.parseStore.closed = false := by
    by_contra hclosed
    exact hrun (hclosing.parseStore.1 (by simpa using hclosed))
  cases hsend : s.pipeline.fetchParse.send outcome with
  | some ch =>
    have hs : Pipeline.Step args.batchSize { s.pipeline with toEmit := [outcome] } _ :=
      .fetchSend rfl ⟨hrun, hclosing.alive⟩ hsend
    exact ⟨_, .handOn hphase hs rfl, Stages.left_handOn hphase hs⟩
  | none =>
    -- the channel to the parser is full
    suffices ∃ pipeline, Pipeline.Step args.batchSize s.pipeline pipeline ∧ pipeline.fetchParse.closed = false by
      obtain ⟨pipeline, hs, hclosed⟩ := this
      refine ⟨_, .task hs fun h => ?_, Stages.left_task hs⟩
      rw [hclosed] at h
      cases h
    cases hparser : s.pipeline.parser with
    | finished => exact absurd hparser hrun
    | bailed => exact absurd hparser hclosing.alive
    | receiving =>
      obtain ⟨o, ch, hrecv⟩ := exists_recv hopen (items_ne_nil hsend)
      exact ⟨_, .parseRecv hparser hrecv, (Channel.recv_item hrecv).2.trans hopen⟩
    | parsing o => exact ⟨_, .parse hparser, hopen⟩
    | sending p =>
      cases hsend' : s.pipeline.parseStore.send p with
      | some ch =>
        refine ⟨_, .parseSend hparser (fun ok hok => ?_) hsend', hopen⟩
        rw [hstore] at hok
        cases hok
      | none =>
        -- so is the one to the store
        obtain ⟨p', ch, hrecv⟩ := exists_recv hopen' (items_ne_nil hsend')
        exact ⟨_, .storeRecv hstore hrecv, hopen⟩

/-- No deadlock in the stages while the store task waits for an outcome. -/
theorem Stages.exists_step_left (h : Reachable (stages args answers) s) (hstore : s.pipeline.store = .receiving)
    (htoken : s.pool.inFlight ≠ [] → 1 ≤ s.pool.limiter.capacity ∧ 0 < s.pool.limiter.refillPerSec) :
    ∃ s', Stages.Step args answers s s' ∧ s'.left < s.left := by
  have hinv := stages_inv h
  cases hphase : s.pool.phase with
  | handingOn outcome => exact Stages.exists_handOn hinv hstore hphase
  | polling =>
    have hquiet : s.pool.phase.hand = [] := by
      rw [hphase]
      rfl
    obtain ⟨pool, hs, hlt⟩ := Pool.exists_step_left (stages_onTrack h).pool hphase htoken
    exact ⟨_, .fetch hquiet hs, Stages.left_fetch hquiet hs hlt⟩
  | finished =>
    cases hclosed : s.pipeline.fetchParse.closed with
    | false =>
      have hs : Pipeline.Step args.batchSize s.pipeline _ := .fetchEnd hinv.toEmit hclosed
      exact ⟨_, .task hs fun _ => Or.inr hphase, Stages.left_task hs⟩
    | true =>
      have hrunning : ¬s.pipeline.Final := by
        rintro ⟨_, _, ok, hfinished⟩
        rw [hstore] at hfinished
        cases hfinished
      obtain ⟨pipeline, hs⟩ := @exists_step args.batchSize _ hinv.pipeline.closing hrunning
      exact ⟨_, .task hs fun _ => Or.inl hclosed, Stages.left_task hs⟩

/-- A step of the pool keeps the rate of its bucket. -/
theorem stages_rate (h : Reachable (stages args answers) s) :
    s.pool.limiter.capacity = args.ratePerSec ∧ s.pool.limiter.refillPerSec = args.ratePerSec := by
  refine h.invariant (I := fun s => s.pool.limiter.capacity = args.ratePerSec ∧
    s.pool.limiter.refillPerSec = args.ratePerSec) ?_ ?_
  · rintro s rfl
    exact ⟨rfl, rfl⟩
  · rintro s s' hrate hs
    cases hs with
    | fetch _ hpool =>
      cases hpool with
      | denied _ _ _ hpoll | granted _ _ _ hpoll =>
        obtain ⟨hcap, hrefill⟩ := Ingest.poll_capacity hpoll
        exact ⟨hcap.trans hrate.1, hrefill.trans hrate.2⟩
      | handedOn => rw [Pool.refill_eq]; exact hrate
      | _ => exact hrate
    | handOn => rw [Pool.refill_eq]; exact hrate
    | task => exact hrate

/-- No task is in flight if there is nothing to fetch. -/
theorem inFlight_of_attempted (h : Reachable (stages args answers) s) (hnone : args.attempted = []) :
    s.pool.inFlight = [] := by
  have hserves := (stages_inv h).pool
  rw [IngestArgs.attempted] at hnone
  split at hnone
  · rename_i h0
    exact (hserves.idle h0).2.1
  · have hall := hserves.all
    rw [hnone, List.perm_nil, List.append_eq_nil_iff] at hall
    simpa [Pool.outstanding] using (List.append_eq_nil_iff.1 (List.append_eq_nil_iff.1 hall.2).1).2

end Stages

/-! ## The ingest goes on -/

section Ingest

variable {S : Setting} {c₀ : Conn Store} {s s' : IngestState}

/-- With the result of its section, the job is nearer to its end. -/
theorem Job.resume_left {batchSize : ℕ} {j : Job} {sec : Section} (hwaits : j.waitsFor = some sec)
    (r : Except DbError (Option DbStats)) : (j.resume batchSize r).left < j.left := by
  obtain ⟨stages, phase⟩ := j
  cases phase with
  | done stats => cases hwaits
  | failing => cases hwaits
  | candles =>
    cases r <;> simp only [Job.resume, Job.left, Phase.left] <;> omega
  | stats =>
    rcases r with e | (_ | stats) <;> simp only [Job.resume, Job.left, Phase.left] <;> omega
  | stages =>
    cases hstore : stages.pipeline.store with
    | receiving | finished ok =>
      simp only [Job.waitsFor, hstore] at hwaits
      cases hwaits
    | flushing =>
      simp only [Job.resume, hstore, Job.left, Job.setPipeline, Stages.left, Pipeline.left, StoreTask.left]
      omega
    | finalFlush =>
      cases r with
      | error e =>
        simp only [Job.resume, hstore, Job.left, Phase.left]
        omega
      | ok r =>
        simp only [Job.resume, hstore, Job.left, Job.setPipeline, Stages.left, Pipeline.left, StoreTask.left]
        omega
    | writing p =>
      cases r with
      | error e =>
        simp only [Job.resume, hstore, Job.left, Phase.left]
        omega
      | ok r =>
        simp only [Job.resume, hstore, Job.left, Job.setPipeline, Stages.left, Pipeline.written]
        split <;> simp only [Pipeline.left, Pipeline.write, Pipeline.handOver, hstore, StoreTask.left] <;> omega

/-- A step of an ingest brings its end nearer, unless a fetch task asks for a token in vain. -/
theorem IngestState.Step.left (h : Reachable (ingest S c₀) s) (hs : IngestState.Step S s s') :
    s'.job.left < s.job.left ∨ s'.job.left = s.job.left ∧ s.job.stages.Denied s'.job.stages := by
  have htrack := stages_onTrack (ingest_stages h)
  cases hs with
  | @free own j hj =>
    cases hj with
    | tasks hphase hs | store hphase hs =>
      rcases hs.left htrack with hlt | hdenied
      · refine Or.inl ?_
        simp only [Job.left]
        omega
      · refine Or.inr ⟨?_, hdenied⟩
        obtain ⟨_, limiter, rfl⟩ := hdenied
        rfl
    | main hphase =>
      refine Or.inl ?_
      simp only [Job.left, hphase, Phase.left]
      omega
  | whole hwaits => exact Or.inl (Job.resume_left hwaits _)

/-- The store task only ends well: the job fails with its last flush. -/
theorem ingest_store_ne (h : Reachable (ingest S c₀) s) : s.job.stages.pipeline.store ≠ .finished false := by
  refine h.invariant (I := fun s => s.job.stages.pipeline.store ≠ .finished false) ?_ ?_
  · rintro s rfl hstore
    cases hstore
  · rintro s s' hok hs
    cases hs with
    | free hj =>
      cases hj with
      | tasks _ _ hstore =>
        show _ ≠ _
        rw [hstore]
        exact hok
      | store _ hs htask hmoves =>
        rcases (hs.moves htask hmoves).2 with ⟨⟨p, hstore⟩, _⟩ | ⟨hstore, _⟩ | ⟨hstore, _⟩
        all_goals
          show _ ≠ _
          rw [hstore]
          simp
      | main => exact hok
    | @whole sec hwaits =>
      obtain ⟨conn, stages, phase⟩ := s
      generalize (sec.run S conn).1 = r
      cases phase with
      | done stats => cases hwaits
      | failing => cases hwaits
      | candles => cases r <;> exact hok
      | stats => rcases r with e | (_ | stats) <;> exact hok
      | stages =>
        cases hstore : stages.pipeline.store with
        | receiving | finished ok =>
          simp only [Job.waitsFor, hstore] at hwaits
          cases hwaits
        | flushing => simp [Job.resume, Job.setPipeline, hstore]
        | finalFlush => cases r <;> simp [Job.resume, Job.setPipeline, hstore]
        | writing p =>
          cases r with
          | error e => simp [Job.resume, hstore]
          | ok r =>
            simp only [Job.resume, hstore, Job.setPipeline, Pipeline.written]
            split <;> simp [Pipeline.handOver, Pipeline.write]

/-- A section that the job waits for is run, and it brings the end nearer. -/
theorem IngestState.exists_whole {sec : Section} (hwaits : s.job.waitsFor = some sec) :
    ∃ s', IngestState.Step S s s' ∧ s'.job.left < s.job.left := ⟨_, .whole hwaits, Job.resume_left hwaits _⟩

/-- No deadlock: an ingest that is not over can go on. -/
theorem IngestState.exists_step (h : Reachable (ingest S c₀) s)
    (hrate : 1 ≤ S.args.ratePerSec ∨ S.args.attempted = []) (hrunning : ¬s.job.Ended) :
    ∃ s', IngestState.Step S s s' ∧ s'.job.left < s.job.left := by
  have hstages := ingest_stages h
  cases hphase : s.job.phase with
  | done stats => exact absurd (Or.inl ⟨stats, hphase⟩) hrunning
  | failing => exact absurd (Or.inr hphase) hrunning
  | candles => exact IngestState.exists_whole (by rw [Job.waitsFor, hphase])
  | stats => exact IngestState.exists_whole (by rw [Job.waitsFor, hphase])
  | stages =>
    cases hstore : s.job.stages.pipeline.store with
    | writing p => exact IngestState.exists_whole (by rw [Job.waitsFor, hphase, hstore])
    | flushing => exact IngestState.exists_whole (by rw [Job.waitsFor, hphase, hstore])
    | finalFlush => exact IngestState.exists_whole (by rw [Job.waitsFor, hphase, hstore])
    | finished ok =>
      cases ok with
      | false => exact absurd hstore (ingest_store_ne h)
      | true =>
        have hclosing := (stages_inv hstages).pipeline.closing
        obtain ⟨hparser, _⟩ := hclosing.store (Or.inr ⟨true, hstore⟩)
        refine ⟨_, .free (.main hphase ⟨(hclosing.parser hparser).1, hparser, hstore⟩), ?_⟩
        simp only [Job.left, hphase, Phase.left]
        omega
    | receiving =>
      have htoken : s.job.stages.pool.inFlight ≠ [] →
          1 ≤ s.job.stages.pool.limiter.capacity ∧ 0 < s.job.stages.pool.limiter.refillPerSec := fun hne => by
        obtain ⟨hcap, hrefill⟩ := stages_rate hstages
        have hone := hrate.resolve_right fun hnone => hne (inFlight_of_attempted hstages hnone)
        rw [hcap, hrefill]
        exact ⟨hone, zero_lt_one.trans_le hone⟩
      obtain ⟨stages, hs, hlt⟩ := Stages.exists_step_left hstages hstore htoken
      have hleft : Job.left { s.job with stages } < s.job.left := by
        simp only [Job.left]
        omega
      by_cases hmoves : stages.pipeline.store = .receiving
      · exact ⟨_, .free (.tasks hphase hs (hmoves.trans hstore.symm)), hleft⟩
      · exact ⟨_, .free (.store hphase hs hstore hmoves), hleft⟩

end Ingest

/-! ## Less than one token a second -/

/-- Some tasks wait for a token that never comes, and nothing else has happened. -/
structure Stages.Stalled (s : Stages) : Prop where
  pipeline : s.pipeline = .start []
  phase : s.pool.phase = .polling
  idle : s.pool.Idle
  busy : s.pool.inFlight ≠ []
  acquired : s.pool.acquired = 0

section Stalled

variable {S : Setting} {c₀ : Conn Store} {s s' : IngestState}

theorem stalled_start {args : IngestArgs} (hrate : args.ratePerSec < 1) (hwork : args.attempted ≠ []) :
    (Stages.start args).Stalled := by
  obtain ⟨hworkers, hslots⟩ : args.maxConcurrency ≠ 0 ∧ args.slots ≠ [] := by
    rw [IngestArgs.attempted] at hwork
    split at hwork
    · exact absurd rfl hwork
    · exact ⟨by assumption, hwork⟩
  refine ⟨rfl, rfl, ⟨rfl, fun _ hhanding => ?_, fun t ht => ?_⟩, ?_, rfl⟩
  · cases hhanding
  · obtain ⟨slot, _, rfl⟩ := List.mem_map.1 ht
    exact ⟨rfl, hrate⟩
  · simp [Stages.start, Pool.start, hworkers, hslots]

/-- Stalled stages make no step but to ask again. -/
theorem Stages.Stalled.step {args : IngestArgs} {answers : Answers} {s s' : Stages} (h : s.Stalled)
    (hs : Stages.Step args answers s s') : s'.Stalled ∧ s'.pipeline = s.pipeline := by
  obtain ⟨⟨phase, slots, inFlight, limiter, acquired, requests⟩, pipeline⟩ := s
  obtain ⟨hpipeline, hphase, hidle, hbusy, hacquired⟩ := h
  obtain rfl : pipeline = .start [] := hpipeline
  cases hs with
  | fetch _ hpool =>
    have hidle' := hidle.step hpool
    obtain ⟨limiter, rfl⟩ := hidle.busy hpool hbusy
    exact ⟨⟨rfl, hphase, hidle', hbusy, hacquired⟩, rfl⟩
  | handOn hhanding => exact absurd hhanding (hidle.phase _)
  | task hs hend =>
    cases hs with
    | fetchSend hemit | fetchDrop hemit => cases hemit
    | fetchEnd =>
      have hfinished := (hend rfl).resolve_left nofun
      rw [hphase] at hfinished
      cases hfinished
    | parseRecv _ hrecv | parseEnd _ hrecv | storeRecv _ hrecv | storeEnd _ hrecv
    | storeEndPending _ hrecv => cases hrecv
    | parse htask | parseSend htask | parseBail htask | storeWrite htask | storeWriteFull htask | storeFlushed _ htask
    | storeFinal _ htask => cases htask

/-- With less than one token a second nothing ever happens, if there is anything to fetch. -/
theorem ingest_stalls (hrate : S.args.ratePerSec < 1) (hwork : S.args.attempted ≠ []) (h : Reachable (ingest S c₀) s) :
    s.conn = c₀ ∧ s.job.phase = .stages ∧ s.job.stages.Stalled := by
  refine h.invariant (I := fun s => s.conn = c₀ ∧ s.job.phase = .stages ∧ s.job.stages.Stalled) ?_ ?_
  · rintro s rfl
    exact ⟨rfl, rfl, stalled_start hrate hwork⟩
  · rintro s s' ⟨hconn, hphase, hstalled⟩ hs
    have hstart := hstalled.pipeline
    cases hs with
    | free hj =>
      cases hj with
      | tasks _ hs => exact ⟨hconn, hphase, (hstalled.step hs).1⟩
      | store _ hs _ hmoves =>
        refine absurd ?_ hmoves
        rw [(hstalled.step hs).2, hstart]
        rfl
      | main _ hend =>
        have hclosed := hend.1
        rw [hstart] at hclosed
        cases hclosed
    | whole hwaits =>
      rw [Job.waitsFor, hphase, hstart] at hwaits
      cases hwaits

end Stalled

/-! ## An ingest ends -/

section Ends

variable {S : Setting} {c₀ : Conn Store} {s s' : IngestState} {run : ℕ → IngestState}

/-- The rate is positive, and the waits for a token fit in a `Duration`; `acquire` panics otherwise. -/
def IngestArgs.SoundRate (args : IngestArgs) : Prop := 0 < args.ratePerSec ∧ 1 / args.ratePerSec < 2 ^ 64

/-- **An ingest can always end** if and only if the limiter grants at least one token a second, or there is nothing to
fetch. -/
theorem ingest_canEnd_iff (S : Setting) (c₀ : Conn Store) (_hrate : S.args.SoundRate) :
    (∀ s, Reachable (ingest S c₀) s → ∃ s', Relation.ReflTransGen (ingest S c₀).step s s' ∧ s'.job.Ended) ↔
      1 ≤ S.args.ratePerSec ∨ S.args.attempted = [] := by
  constructor
  · intro hends
    by_contra hstalls
    obtain ⟨hrate, hwork⟩ := not_or.1 hstalls
    obtain ⟨s, hs, hended⟩ := hends _ (.init rfl)
    obtain ⟨_, hphase, _⟩ := ingest_stalls (not_le.1 hrate) hwork (Reachable.trans (.init rfl) hs)
    rw [Job.Ended, hphase] at hended
    exact hended.elim nofun nofun
  · intro hrate s h
    exact h.exists_final fun s hs hrunning => IngestState.exists_step hs hrate hrunning

/-- An ingest of one slot: at one token a second, and at half a token a second. -/
theorem ingest_canEnd_iff_example :
    (∀ s, Reachable (ingest (buySetting 1) ⟨.empty, none, 0⟩) s →
      ∃ s', Relation.ReflTransGen (ingest (buySetting 1) ⟨.empty, none, 0⟩).step s s' ∧ s'.job.Ended) ∧
    ∃ s, Reachable (ingest { buySetting 1 with args := ⟨5, 1, 1 / 2, 1, 1⟩ } ⟨.empty, none, 0⟩) s ∧
      ∀ s', Relation.ReflTransGen
        (ingest { buySetting 1 with args := ⟨5, 1, 1 / 2, 1, 1⟩ } ⟨.empty, none, 0⟩).step s s' →
        ¬s'.job.Ended := by
  constructor
  · refine (ingest_canEnd_iff (buySetting 1) ⟨.empty, none, 0⟩ ⟨by decide, ?_⟩).2 (Or.inl (by decide))
    norm_num [buySetting, oneSlot]
  · have hslow := ingest_canEnd_iff { buySetting 1 with args := ⟨5, 1, 1 / 2, 1, 1⟩ } ⟨.empty, none, 0⟩
      ⟨by norm_num, by norm_num⟩
    by_contra hends
    push Not at hends
    rcases hslow.1 hends with hrate | hnone
    · norm_num at hrate
    · exact absurd hnone (by decide)

/-- Tokens arrive: while a fetch task waits for a token, some task gets one. -/
def TokensArrive (run : ℕ → IngestState) : Prop :=
  ∀ i, (∃ t ∈ (run i).job.stages.pool.inFlight, t.phase = .acquiring) →
    ∃ j, i ≤ j ∧ (run i).job.stages.pool.acquired < (run j).job.stages.pool.acquired

/-- Where tokens arrive, tasks do not ask in vain for ever. -/
theorem TokensArrive.exists_granted (h : TokensArrive run) (i : ℕ) :
    ∃ j, i ≤ j ∧ ¬(run j).job.stages.Denied (run (j + 1)).job.stages := by
  by_contra hdenied
  push Not at hdenied
  have hsame : ∀ j, i ≤ j → (run j).job.stages.pool.acquired = (run i).job.stages.pool.acquired := by
    intro j hj
    induction j, hj using Nat.le_induction with
    | base => rfl
    | succ j hj ih =>
      obtain ⟨_, limiter, hnext⟩ := hdenied j hj
      rw [hnext]
      exact ih
  obtain ⟨j, hj, hlt⟩ := h i (hdenied i le_rfl).1
  rw [hsame j hj] at hlt
  exact lt_irrefl _ hlt

theorem exists_ended (h : Run (ingest S c₀) run) (htokens : TokensArrive run) : ∃ i, (run i).job.Ended := by
  by_cases hrate : 1 ≤ S.args.ratePerSec ∨ S.args.attempted = []
  · refine h.ends (F := fun s => s.job.Ended) (fun s s' hs hstep => IngestState.Step.left hs hstep)
      (fun s hs hrunning => ?_) htokens.exists_granted
    obtain ⟨s', hs', _⟩ := IngestState.exists_step hs hrate hrunning
    exact ⟨s', hs'⟩
  · -- no token ever arrives
    exfalso
    obtain ⟨hrate, hwork⟩ := not_or.1 hrate
    have hstalls i := (ingest_stalls (not_le.1 hrate) hwork (h.reachable i)).2.2
    obtain ⟨t, ht⟩ := List.exists_mem_of_ne_nil _ (hstalls 0).busy
    obtain ⟨j, _, hlt⟩ := htokens 0 ⟨t, ht, ((hstalls 0).idle.tasks t ht).1⟩
    rw [(hstalls 0).acquired, (hstalls j).acquired] at hlt
    exact lt_irrefl _ hlt

/-- A section whose failure ends the ingest: a status, the last flush, or the candles. -/
inductive Job.Needs (j : Job) : Section → Prop
  | status {p : ParsedOutcome} (hphase : j.phase = .stages) (hstore : j.stages.pipeline.store = .writing p) :
      Needs j (.status p)
  | lastFlush (hphase : j.phase = .stages) (hstore : j.stages.pipeline.store = .finalFlush) :
      Needs j (.flush (j.stages.pipeline.flushes.getLastD []))
  | candles (hphase : j.phase = .candles) : Needs j .candles

/-- An ingest fails with its section. -/
theorem IngestState.Step.failing (hs : IngestState.Step S s s') (hrunning : ¬s.job.Ended)
    (hfails : s'.job.phase = .failing) :
    ∃ sec e, s.job.waitsFor = some sec ∧ s.job.Needs sec ∧ (sec.run S s.conn).1 = .error e := by
  cases hs with
  | free hj =>
    cases hj with
    | tasks hphase | store hphase =>
      rw [hphase] at hfails
      cases hfails
    | main => cases hfails
  | @whole sec hwaits =>
    obtain ⟨conn, stages, phase⟩ := s
    cases phase with
    | done stats => cases hwaits
    | failing => cases hwaits
    | stats =>
      obtain rfl : Section.stats = sec := Option.some.inj hwaits
      cases hfails
    | candles =>
      obtain rfl : Section.candles = sec := Option.some.inj hwaits
      cases hrun : (Section.run S .candles conn).1 with
      | error e => exact ⟨_, e, hwaits, .candles rfl, hrun⟩
      | ok r =>
        rw [hrun] at hfails
        cases hfails
    | stages =>
      cases hstore : stages.pipeline.store with
      | receiving | finished ok =>
        simp only [Job.waitsFor, hstore] at hwaits
        cases hwaits
      | flushing =>
        simp only [Job.resume, hstore] at hfails
        cases hfails
      | finalFlush =>
        obtain rfl : Section.flush (stages.pipeline.flushes.getLastD []) = sec := by
          simpa only [Job.waitsFor, hstore, Option.some.injEq] using hwaits
        cases hrun : (Section.run S (.flush (stages.pipeline.flushes.getLastD [])) conn).1 with
        | error e => exact ⟨_, e, hwaits, .lastFlush rfl hstore, hrun⟩
        | ok r =>
          simp only [Job.resume, hstore, hrun] at hfails
          cases hfails
      | writing p =>
        obtain rfl : Section.status p = sec := by
          simpa only [Job.waitsFor, hstore, Option.some.injEq] using hwaits
        cases hrun : (Section.run S (.status p) conn).1 with
        | error e => exact ⟨_, e, hwaits, .status rfl hstore, hrun⟩
        | ok r =>
          simp only [Job.resume, hstore, hrun] at hfails
          cases hfails

/-- An ingest that is done takes no step. -/
theorem not_step_of_done {stats : DbStats} (hdone : s.job.phase = .done stats) : ¬IngestState.Step S s s' := by
  intro hs
  cases hs with
  | free hj =>
    cases hj with
    | tasks hphase | store hphase | main hphase =>
      rw [hdone] at hphase
      cases hphase
  | whole hwaits =>
    rw [Job.waitsFor, hdone] at hwaits
    cases hwaits

/-- Each slot of the range takes one token. -/
theorem stages_tokens {args : IngestArgs} {answers : Answers} {s : Stages} (h : Reachable (stages args answers) s) :
    s.pool.acquired + s.pool.thirsty = args.slots.length := by
  refine h.invariant (I := fun s => s.pool.acquired + s.pool.thirsty = args.slots.length) ?_ ?_
  · rintro s rfl
    exact (Nat.zero_add _).trans (Ingest.thirsty_start _ _ _)
  · rintro s s' heq hs
    cases hs with
    | fetch _ hpool => exact hpool.thirsty.trans heq
    | handOn hphase =>
      have hs : Pool.Step (Ingest.getBlock answers) s.pool (Pool.refill { s.pool with phase := .polling }) :=
        .handedOn hphase
      exact hs.thirsty.trans heq
    | task => exact heq

/-- In a run that gets done, tokens arrive. -/
theorem tokensArrive_of_done (h : Run (ingest S c₀) run) (hworkers : S.args.maxConcurrency ≠ 0) {n : ℕ}
    {stats : DbStats} (hdone : (run n).job.phase = .done stats) : TokensArrive run := by
  have hlast : ∀ j, n ≤ j → run j = run n := by
    intro j hj
    induction j, hj using Nat.le_induction with
    | base => rfl
    | succ j hj ih =>
      rcases h.next j with hs | ⟨_, heq⟩
      · rw [ih] at hs
        exact absurd hs (not_step_of_done hdone)
      · exact heq.trans ih
  -- in the end no slot is left without a token
  have hstages := ingest_stages (h.reachable n)
  have hover := (ingest_follows (h.reachable n)).2
  rw [Job.Over, hdone] at hover
  have hend := (hover.resolve_left nofun).resolve_left nofun
  have hserves := (stages_inv hstages).pool
  have hfinished := (stages_inv hstages).closed hend.1
  have hnone := hserves.finished hfinished
  have hslots : (run n).job.stages.pool.slots = [] := by
    by_contra hne
    have hfull := hserves.full hne
    rw [hfinished, hnone] at hfull
    exact hworkers (Nat.le_zero.1 hfull)
  have hall := stages_tokens hstages
  rw [Pool.thirsty, hnone, hslots, List.countP_nil, List.length_nil] at hall
  rintro i ⟨t, ht, hthirsty⟩
  refine ⟨max n i, le_max_right n i, ?_⟩
  rw [hlast _ (le_max_left n i)]
  have htokens := stages_tokens (ingest_stages (h.reachable i))
  have hpos : 0 < (run i).job.stages.pool.inFlight.countP (·.phase = .acquiring) :=
    List.countP_pos_iff.2 ⟨t, ht, decide_eq_true hthirsty⟩
  rw [Pool.thirsty] at htokens
  omega

/-- **An ingest ends.** In every run in which tokens arrive, the ingest is done in the end, or it fails because a
status, the last flush or the candles could not be written. -/
theorem ingest_ends (S : Setting) (c₀ : Conn Store) (run : ℕ → IngestState) (h : Run (ingest S c₀) run)
    (htokens : TokensArrive run) :
    ∃ i, (∃ stats, (run i).job.phase = .done stats) ∨
      (run (i + 1)).job.phase = .failing ∧ ∃ sec e, (run i).job.waitsFor = some sec ∧ (run i).job.Needs sec ∧
        (sec.run S (run i).conn).1 = .error e := by
  classical
  have hended := exists_ended h htokens
  rcases Nat.find_spec hended with hdone | hfails
  · exact ⟨_, Or.inl hdone⟩
  · cases hfirst : Nat.find hended with
    | zero =>
      rw [hfirst, h.init] at hfails
      cases hfails
    | succ i =>
      rw [hfirst] at hfails
      have hrunning : ¬(run i).job.Ended := Nat.find_min hended (by omega)
      refine ⟨i, Or.inr ⟨hfails, ?_⟩⟩
      rcases h.next i with hs | ⟨_, heq⟩
      · exact IngestState.Step.failing hs hrunning hfails
      · rw [heq] at hfails
        exact absurd (Or.inr hfails) hrunning

/-- A run of the ingest of one block. -/
theorem ingest_ends_example : ∃ run, Run (ingest (buySetting 1) ⟨.empty, none, 0⟩) run ∧
    ∃ i, (∃ stats, (run i).job.phase = .done stats) ∨ (run (i + 1)).job.phase = .failing ∧
      ∃ sec e, (run i).job.waitsFor = some sec ∧ (run i).job.Needs sec ∧
        (sec.run (buySetting 1) (run i).conn).1 = .error e := by
  obtain ⟨s, stats, hs, hdone, _⟩ := @exists_one (fun slot => (buyBlock slot).transactions) rfl _ candles_boughtConn
  obtain ⟨run, n, hrun, htail⟩ := @Reachable.exists_run _ _ _ hs (fun _ => s) rfl
    fun _ => Or.inr ⟨fun _ => not_step_of_done hdone, rfl⟩
  have hlast : (run n).job.phase = .done stats := by
    rw [show run n = s from htail 0]
    exact hdone
  exact ⟨run, hrun, ingest_ends (buySetting 1) ⟨.empty, none, 0⟩ run hrun
    (tokensArrive_of_done hrun (by decide) hlast)⟩

end Ends

end Tenso.Cli
