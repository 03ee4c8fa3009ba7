import Tenso.Cli.StoreStage
import Tenso.Lib.Channel
import Tenso.Lib.Transition

/-!
# The pipeline fetch → parse → store

Three tasks and two bounded channels. The fetch task emits a list of outcomes, the parse task turns them into parsed
outcomes, and the store task writes their statuses and flushes blocks in batches. A status write succeeds; a flush may
succeed or fail, which is a choice of the step.

- Nothing is lost, duplicated or reordered: in every reachable state the emitted outcomes are, in order, those the store
  has taken, those queued for it, the one the parser holds, and those queued for the parser (`InOrder`).
- Every state in which some task is still running has a step (`exists_step`).
- At the end there is one status write an outcome, every block was handed to one flush, and the counts are exact
  (`Books`).
-/

namespace Tenso.Cli

open Ingest (FetchOutcome)
open Storage (IngestionStatusRow)

/-- The capacity of both channels. -/
def pipelineCapacity : ℕ := 2

/-- The parse task: waiting for an outcome, parsing one, sending one on; at its end, or stopped by a dropped receiver.
-/
inductive ParseTask where
  | receiving
  | parsing (o : FetchOutcome)
  | sending (p : ParsedOutcome)
  | finished
  | bailed

/-- The store task: waiting for an outcome, writing its status, flushing a full batch, flushing the last batch; at its
end, with the result of the last flush. -/
inductive StoreTask where
  | receiving
  | writing (p : ParsedOutcome)
  | flushing
  | finalFlush
  | finished (ok : Bool)

/-- The outcome in the hands of the store. -/
def StoreTask.hand : StoreTask → List ParsedOutcome
  | .writing p => [p]
  | _ => []

/-- The parser holds these outcomes. -/
def ParseTask.Holds : ParseTask → List FetchOutcome → Prop
  | .parsing o, held => held = [o]
  | .sending p, held => ∃ o, held = [o] ∧ parseOutcome o = p
  | _, held => held = []

/-- The state of the pipeline, with a record of what was emitted, processed, written and flushed. -/
structure Pipeline where
  toEmit : List FetchOutcome
  emitted : List FetchOutcome
  fetchParse : Channel FetchOutcome pipelineCapacity
  parser : ParseTask
  parseStore : Channel ParsedOutcome pipelineCapacity
  store : StoreTask
  tally : Tally
  processed : List ParsedOutcome
  statusWrites : List IngestionStatusRow
  flushes : List (List ParsedBlock)

/-- The start: the fetch task has `outcomes` to emit. -/
def Pipeline.start (outcomes : List FetchOutcome) : Pipeline :=
  { toEmit := outcomes, emitted := [], fetchParse := .empty, parser := .receiving, parseStore := .empty,
    store := .receiving, tally := .zero, processed := [], statusWrites := [], flushes := [] }

/-- All tasks are over. -/
def Pipeline.Final (s : Pipeline) : Prop :=
  s.fetchParse.closed = true ∧ s.parser = .finished ∧ ∃ ok, s.store = .finished ok

/-- The store hands its pending batch to a flush. -/
def Pipeline.handOver (s : Pipeline) (task : StoreTask) : Pipeline :=
  { s with store := task, tally := s.tally.take, flushes := s.flushes ++ [s.tally.pending] }

/-- The status of `p` is written, and `p` is counted. -/
def Pipeline.write (s : Pipeline) (p : ParsedOutcome) : Pipeline :=
  { s with store := .receiving, tally := s.tally.count p, processed := s.processed ++ [p],
           statusWrites := s.statusWrites ++ [statusRow p] }

/-- One step of one task. -/
inductive Pipeline.Step (batchSize : ℕ) : Pipeline → Pipeline → Prop
  /-- the fetch task sends an outcome, unless the channel is full -/
  | fetchSend {s : Pipeline} {o : FetchOutcome} {rest : List FetchOutcome}
      {ch : Channel FetchOutcome pipelineCapacity} (hemit : s.toEmit = o :: rest)
      (halive : s.parser ≠ .finished ∧ s.parser ≠ .bailed) (hsend : s.fetchParse.send o = some ch) :
      Step batchSize s { s with toEmit := rest, emitted := s.emitted ++ [o], fetchParse := ch }
  /-- the parse task is gone: the outcome is lost with a warning -/
  | fetchDrop {s : Pipeline} {o : FetchOutcome} {rest : List FetchOutcome} (hemit : s.toEmit = o :: rest)
      (hgone : s.parser = .finished ∨ s.parser = .bailed) :
      Step batchSize s { s with toEmit := rest, emitted := s.emitted ++ [o] }
  /-- the fetch task ends and drops its sender -/
  | fetchEnd {s : Pipeline} (hemit : s.toEmit = []) (hopen : s.fetchParse.closed = false) :
      Step batchSize s { s with fetchParse := s.fetchParse.close }
  | parseRecv {s : Pipeline} {o : FetchOutcome} {ch : Channel FetchOutcome pipelineCapacity}
      (htask : s.parser = .receiving) (hrecv : s.fetchParse.recv = some (.item o ch)) :
      Step batchSize s { s with fetchParse := ch, parser := .parsing o }
  | parse {s : Pipeline} {o : FetchOutcome} (htask : s.parser = .parsing o) :
      Step batchSize s { s with parser := .sending (parseOutcome o) }
  | parseSend {s : Pipeline} {p : ParsedOutcome} {ch : Channel ParsedOutcome pipelineCapacity}
      (htask : s.parser = .sending p) (halive : ∀ ok, s.store ≠ .finished ok)
      (hsend : s.parseStore.send p = some ch) :
      Step batchSize s { s with parser := .receiving, parseStore := ch }
  /-- the store task is gone: the parse task stops with an error -/
  | parseBail {s : Pipeline} {p : ParsedOutcome} {ok : Bool} (htask : s.parser = .sending p)
      (hgone : s.store = .finished ok) :
      Step batchSize s { s with parser := .bailed, parseStore := s.parseStore.close }
  /-- the parse task ends and drops its sender -/
  | parseEnd {s : Pipeline} (htask : s.parser = .receiving) (hrecv : s.fetchParse.recv = some .ended) :
      Step batchSize s { s with parser := .finished, parseStore := s.parseStore.close }
  | storeRecv {s : Pipeline} {p : ParsedOutcome} {ch : Channel ParsedOutcome pipelineCapacity}
      (htask : s.store = .receiving) (hrecv : s.parseStore.recv = some (.item p ch)) :
      Step batchSize s { s with parseStore := ch, store := .writing p }
  /-- the batch stays below its size -/
  | storeWrite {s : Pipeline} {p : ParsedOutcome} (htask : s.store = .writing p)
      (hsize : ¬batchSize ≤ (s.write p).tally.pending.length) : Step batchSize s (s.write p)
  /-- the batch has its size: it is handed to a flush -/
  | storeWriteFull {s : Pipeline} {p : ParsedOutcome} (htask : s.store = .writing p)
      (hsize : batchSize ≤ (s.write p).tally.pending.length) : Step batchSize s ((s.write p).handOver .flushing)
  /-- the flush is over; its result `ok` is only logged -/
  | storeFlushed {s : Pipeline} (ok : Bool) (htask : s.store = .flushing) :
      Step batchSize s { s with store := .receiving }
  /-- the channel ended, and nothing is pending -/
  | storeEnd {s : Pipeline} (htask : s.store = .receiving) (hrecv : s.parseStore.recv = some .ended)
      (hpending : s.tally.pending = []) : Step batchSize s { s with store := .finished true }
  /-- the channel ended: what is pending is handed to the last flush -/
  | storeEndPending {s : Pipeline} (htask : s.store = .receiving) (hrecv : s.parseStore.recv = some .ended)
      (hpending : s.tally.pending ≠ []) : Step batchSize s (s.handOver .finalFlush)
  /-- the last flush is over; its result `ok` is the result of the store task -/
  | storeFinal {s : Pipeline} (ok : Bool) (htask : s.store = .finalFlush) :
      Step batchSize s { s with store := .finished ok }

/-- The pipeline over the outcomes, as a transition system. -/
def pipeline (batchSize : ℕ) (outcomes : List FetchOutcome) : Transition.System Pipeline :=
  { init := fun s => s = .start outcomes, step := Pipeline.Step batchSize }

/-! ## The invariant -/

/-- Nothing lost, duplicated or reordered: the emitted outcomes are, in order, those that the store has taken, those
in the channel to the store, the one the parser holds, and those in the channel to the parser. -/
def Pipeline.InOrder (s : Pipeline) : Prop :=
  ∃ taken queued held, s.emitted = taken ++ queued ++ held ++ s.fetchParse.items ∧
    s.processed ++ s.store.hand = taken.map parseOutcome ∧ s.parseStore.items = queued.map parseOutcome ∧
    s.parser.Holds held

/-- The books of the store: a status write an outcome, a flush for every block that is not pending, exact counts. -/
structure Pipeline.Books (s : Pipeline) : Prop where
  statusWrites : s.statusWrites = s.processed.map statusRow
  flushes : s.flushes.flatten ++ s.tally.pending = s.processed.flatMap (·.blocks)
  ingested : s.tally.ingested = s.processed.countP fun p => p matches .ingested _
  skipped : s.tally.skipped = s.processed.countP fun p => p matches .skipped _
  failed : s.tally.failed = s.processed.countP fun p => p matches .failed _ _

/-- In which order the tasks end. -/
structure Pipeline.Closing (s : Pipeline) : Prop where
  fetch : s.fetchParse.closed = true → s.toEmit = []
  parser : s.parser = .finished → s.fetchParse.closed = true ∧ s.fetchParse.items = []
  parseStore : s.parseStore.closed = true ↔ s.parser = .finished
  alive : s.parser ≠ .bailed
  store : (s.store = .finalFlush ∨ ∃ ok, s.store = .finished ok) →
    s.parser = .finished ∧ s.parseStore.items = [] ∧ s.tally.pending = []

/-- The invariant of the pipeline. -/
structure Pipeline.Inv (outcomes : List FetchOutcome) (s : Pipeline) : Prop where
  emits : s.emitted ++ s.toEmit = outcomes
  inOrder : s.InOrder
  books : s.Books
  closing : s.Closing

theorem inv_start (outcomes : List FetchOutcome) : (Pipeline.start outcomes).Inv outcomes where
  emits := rfl
  inOrder := ⟨[], [], [], rfl, rfl, rfl, rfl⟩
  books := ⟨rfl, rfl, rfl, rfl, rfl⟩
  closing := ⟨nofun, nofun, ⟨nofun, nofun⟩, nofun, fun h => h.elim nofun fun ⟨_, h⟩ => nomatch h⟩

/-! ### The books -/

theorem Pipeline.Books.write {s : Pipeline} (h : s.Books) (p : ParsedOutcome) : (s.write p).Books := by
  obtain ⟨hw, hf, hi, hs, hd⟩ := h
  have hwrites : (s.write p).statusWrites = (s.write p).processed.map statusRow := by
    simp only [Pipeline.write, hw, List.map_append, List.map_cons, List.map_nil]
  cases p with
  | ingested b =>
    refine ⟨hwrites, ?_, ?_, ?_, ?_⟩
    · simp only [Pipeline.write, Tally.count, List.flatMap_append, ← hf, List.append_assoc]
      rfl
    · simp [Pipeline.write, Tally.count, hi]
    · simp [Pipeline.write, Tally.count, hs]
    · simp [Pipeline.write, Tally.count, hd]
  | skipped slot =>
    refine ⟨hwrites, ?_, ?_, ?_, ?_⟩
    · simp only [Pipeline.write, Tally.count, List.flatMap_append, ← hf]
      exact (List.append_nil _).symm
    · simp [Pipeline.write, Tally.count, hi]
    · simp [Pipeline.write, Tally.count, hs]
    · simp [Pipeline.write, Tally.count, hd]
  | failed slot error =>
    refine ⟨hwrites, ?_, ?_, ?_, ?_⟩
    · simp only [Pipeline.write, Tally.count, List.flatMap_append, ← hf]
      exact (List.append_nil _).symm
    · simp [Pipeline.write, Tally.count, hi]
    · simp [Pipeline.write, Tally.count, hs]
    · simp [Pipeline.write, Tally.count, hd]

theorem Pipeline.Books.handOver {s : Pipeline} (h : s.Books) (task : StoreTask) : (s.handOver task).Books := by
  refine ⟨h.statusWrites, ?_, h.ingested, h.skipped, h.failed⟩
  show (s.flushes ++ [s.tally.pending]).flatten ++ [] = s.processed.flatMap (·.blocks)
  rw [← h.flushes]
  simp

/-- Every step keeps the books. -/
theorem Pipeline.Books.step {batchSize : ℕ} {s s' : Pipeline} (h : s.Books) (hs : Pipeline.Step batchSize s s') :
    s'.Books := by
  cases hs with
  | storeWrite => exact h.write _
  | storeWriteFull => exact (h.write _).handOver _
  | storeEndPending => exact h.handOver _
  | _ => exact ⟨h.statusWrites, h.flushes, h.ingested, h.skipped, h.failed⟩

/-! ### The order of the outcomes -/

/-- Every step keeps the outcomes in order. -/
theorem Pipeline.InOrder.step {batchSize : ℕ} {s s' : Pipeline} (h : s.InOrder) (hc : s.Closing)
    (hs : Pipeline.Step batchSize s s') : s'.InOrder := by
  obtain ⟨taken, queued, held, hemitted, htaken, hqueued, hheld⟩ := h
  cases hs with
  | fetchSend hemit halive hsend =>
    refine ⟨taken, queued, held, ?_, htaken, hqueued, hheld⟩
    rw [(Channel.send_spec hsend).1, ← List.append_assoc, ← hemitted]
  | fetchDrop hemit hgone =>
    -- the parser only ends after the fetch task
    rcases hgone with hgone | hgone
    · rw [hc.fetch (hc.parser hgone).1] at hemit
      cases hemit
    · exact absurd hgone hc.alive
  | fetchEnd => exact ⟨taken, queued, held, hemitted, htaken, hqueued, hheld⟩
  | parseRecv htask hrecv =>
    rw [htask] at hheld
    have hheld' : held = [] := hheld
    refine ⟨taken, queued, [_], ?_, htaken, hqueued, rfl⟩
    rw [hemitted, hheld', (Channel.recv_item hrecv).1]
    simp
  | parse htask =>
    rw [htask] at hheld
    exact ⟨taken, queued, held, hemitted, htaken, hqueued, _, hheld, rfl⟩
  | parseSend htask halive hsend =>
    rw [htask] at hheld
    obtain ⟨o, rfl, rfl⟩ := hheld
    refine ⟨taken, queued ++ [o], [], ?_, htaken, ?_, rfl⟩
    · rw [hemitted]
      simp
    · rw [(Channel.send_spec hsend).1, hqueued, List.map_append]
      rfl
  | parseBail htask hgone =>
    have := (hc.store (Or.inr ⟨_, hgone⟩)).1
    rw [htask] at this
    cases this
  | parseEnd htask hrecv =>
    rw [htask] at hheld
    exact ⟨taken, queued, held, hemitted, htaken, hqueued, hheld⟩
  | storeRecv htask hrecv =>
    rw [htask] at htaken
    rw [(Channel.recv_item hrecv).1] at hqueued
    cases queued with
    | nil => cases hqueued
    | cons o queued =>
      obtain ⟨rfl, htail⟩ := List.cons.inj hqueued
      refine ⟨taken ++ [o], queued, held, ?_, ?_, htail, hheld⟩
      · rw [hemitted]
        simp
      · rw [List.map_append, ← htaken]
        simp [StoreTask.hand]
  | storeWrite htask =>
    rw [htask] at htaken
    refine ⟨taken, queued, held, hemitted, ?_, hqueued, hheld⟩
    rw [← htaken]
    simp [Pipeline.write, StoreTask.hand]
  | storeWriteFull htask =>
    rw [htask] at htaken
    refine ⟨taken, queued, held, hemitted, ?_, hqueued, hheld⟩
    rw [← htaken]
    simp [Pipeline.write, Pipeline.handOver, StoreTask.hand]
  | storeFlushed ok htask =>
    rw [htask] at htaken
    exact ⟨taken, queued, held, hemitted, htaken, hqueued, hheld⟩
  | storeEnd htask =>
    rw [htask] at htaken
    exact ⟨taken, queued, held, hemitted, htaken, hqueued, hheld⟩
  | storeEndPending htask =>
    rw [htask] at htaken
    exact ⟨taken, queued, held, hemitted, htaken, hqueued, hheld⟩
  | storeFinal ok htask =>
    rw [htask] at htaken
    exact ⟨taken, queued, held, hemitted, htaken, hqueued, hheld⟩

/-! ### The order in which the tasks end -/

/-- Every step keeps the order in which the tasks end. -/
theorem Pipeline.Closing.step {batchSize : ℕ} {s s' : Pipeline} (h : s.Closing) (hs : Pipeline.Step batchSize s s') :
    s'.Closing := by
  obtain ⟨hfetch, hparser, hps, halive, hstore⟩ := h
  cases hs with
  | fetchSend hemit hal hsend =>
    refine ⟨fun hcl => ?_, fun hp => absurd hp hal.1, hps, halive, hstore⟩
    rw [(Channel.send_spec hsend).2] at hcl
    rw [hfetch hcl] at hemit
    cases hemit
  | fetchDrop hemit hgone =>
    rcases hgone with hgone | hgone
    · rw [hfetch (hparser hgone).1] at hemit
      cases hemit
    · exact absurd hgone halive
  | fetchEnd hemit hopen => exact ⟨fun _ => hemit, fun hp => ⟨rfl, (hparser hp).2⟩, hps, halive, hstore⟩
  | parseRecv htask hrecv =>
    refine ⟨fun hcl => hfetch ((Channel.recv_item hrecv).2 ▸ hcl), nofun, ⟨fun hcl => ?_, nofun⟩, nofun, fun hst => ?_⟩
    · rw [hps.1 hcl] at htask
      cases htask
    · rw [(hstore hst).1] at htask
      cases htask
  | parse htask =>
    refine ⟨hfetch, nofun, ⟨fun hcl => ?_, nofun⟩, nofun, fun hst => ?_⟩
    · rw [hps.1 hcl] at htask
      cases htask
    · rw [(hstore hst).1] at htask
      cases htask
  | parseSend htask hal hsend =>
    refine ⟨hfetch, nofun, ⟨fun hcl => ?_, nofun⟩, nofun, fun hst => ?_⟩
    · rw [(Channel.send_spec hsend).2] at hcl
      rw [hps.1 hcl] at htask
      cases htask
    · rw [(hstore hst).1] at htask
      cases htask
  | parseBail htask hgone =>
    rw [(hstore (Or.inr ⟨_, hgone⟩)).1] at htask
    cases htask
  | parseEnd htask hrecv =>
    have hend := Channel.recv_ended hrecv
    refine ⟨hfetch, fun _ => ⟨hend.2, hend.1⟩, ⟨fun _ => rfl, fun _ => rfl⟩, nofun, fun hst => ?_⟩
    rw [(hstore hst).1] at htask
    cases htask
  | storeRecv htask hrecv =>
    refine ⟨hfetch, hparser, ?_, halive, ?_⟩
    · rw [(Channel.recv_item hrecv).2]
      exact hps
    rintro (hst | ⟨_, hst⟩) <;> cases hst
  | storeWrite htask =>
    refine ⟨hfetch, hparser, hps, halive, ?_⟩
    rintro (hst | ⟨_, hst⟩) <;> cases hst
  | storeWriteFull htask =>
    refine ⟨hfetch, hparser, hps, halive, ?_⟩
    rintro (hst | ⟨_, hst⟩) <;> cases hst
  | storeFlushed ok htask =>
    refine ⟨hfetch, hparser, hps, halive, ?_⟩
    rintro (hst | ⟨_, hst⟩) <;> cases hst
  | storeEnd htask hrecv hpending =>
    have hend := Channel.recv_ended hrecv
    exact ⟨hfetch, hparser, hps, halive, fun _ => ⟨hps.1 hend.2, hend.1, hpending⟩⟩
  | storeEndPending htask hrecv hpending =>
    have hend := Channel.recv_ended hrecv
    exact ⟨hfetch, hparser, hps, halive, fun _ => ⟨hps.1 hend.2, hend.1, rfl⟩⟩
  | storeFinal ok htask => exact ⟨hfetch, hparser, hps, halive, fun _ => hstore (Or.inl htask)⟩

/-- What is emitted and what is still to be emitted are the outcomes. -/
theorem emits_step {batchSize : ℕ} {s s' : Pipeline} (hs : Pipeline.Step batchSize s s') :
    s'.emitted ++ s'.toEmit = s.emitted ++ s.toEmit := by
  cases hs with
  | fetchSend hemit => simp [hemit]
  | fetchDrop hemit => simp [hemit]
  | _ => rfl

/-- Every step keeps the invariant. -/
theorem Pipeline.Inv.step {batchSize : ℕ} {outcomes : List FetchOutcome} {s s' : Pipeline} (h : s.Inv outcomes)
    (hs : Pipeline.Step batchSize s s') : s'.Inv outcomes :=
  ⟨(emits_step hs).trans h.emits, h.inOrder.step h.closing hs, h.books.step hs, h.closing.step hs⟩

/-- Every reachable state has the invariant. -/
theorem reachable_inv {batchSize : ℕ} {outcomes : List FetchOutcome} {s : Pipeline}
    (h : Transition.Reachable (pipeline batchSize outcomes) s) : s.Inv outcomes :=
  h.invariant (fun _ h0 => h0 ▸ inv_start outcomes) fun _ _ hi hs => hi.step hs

/-! ## No deadlock -/

/-- The fetch and parse tasks can go on while the store waits on an empty channel. -/
theorem exists_step_of_empty {batchSize : ℕ} {s : Pipeline} (hc : s.Closing) (hrun : s.parser ≠ .finished)
    (hstore : s.store = .receiving) (hempty : s.parseStore.items = []) : ∃ s', Pipeline.Step batchSize s s' := by
  cases htask : s.parser with
  | finished => exact absurd htask hrun
  | bailed => exact absurd htask hc.alive
  | parsing o => exact ⟨_, .parse htask⟩
  | sending p =>
    obtain ⟨ch, hch⟩ := Channel.exists_send (c := s.parseStore) (by rw [hempty]; decide) p
    exact ⟨_, .parseSend htask (fun ok h => by rw [hstore] at h; cases h) hch⟩
  | receiving =>
    cases hrecv : s.fetchParse.recv with
    | some r =>
      cases r with
      | item o ch => exact ⟨_, .parseRecv htask hrecv⟩
      | ended => exact ⟨_, .parseEnd htask hrecv⟩
    | none =>
      -- the parser waits on an empty open channel: the fetch task can go on
      obtain ⟨hitems, hopen⟩ := Channel.recv_blocked hrecv
      cases hemit : s.toEmit with
      | nil => exact ⟨_, .fetchEnd hemit hopen⟩
      | cons o rest =>
        obtain ⟨ch, hch⟩ := Channel.exists_send (c := s.fetchParse) (by rw [hitems]; decide) o
        exact ⟨_, .fetchSend hemit ⟨hrun, hc.alive⟩ hch⟩

/-- No deadlock: a state in which some task is still running has a step. -/
theorem exists_step {batchSize : ℕ} {s : Pipeline} (hc : s.Closing) (hfinal : ¬s.Final) :
    ∃ s', Pipeline.Step batchSize s s' := by
  cases htask : s.store with
  | writing p =>
    by_cases hsize : batchSize ≤ (s.write p).tally.pending.length
    · exact ⟨_, .storeWriteFull htask hsize⟩
    · exact ⟨_, .storeWrite htask hsize⟩
  | flushing => exact ⟨_, .storeFlushed true htask⟩
  | finalFlush => exact ⟨_, .storeFinal true htask⟩
  | finished ok =>
    have hp := (hc.store (Or.inr ⟨ok, htask⟩)).1
    exact absurd ⟨(hc.parser hp).1, hp, ok, htask⟩ hfinal
  | receiving =>
    cases hrecv : s.parseStore.recv with
    | some r =>
      cases r with
      | item p ch => exact ⟨_, .storeRecv htask hrecv⟩
      | ended =>
        by_cases hpending : s.tally.pending = []
        · exact ⟨_, .storeEnd htask hrecv hpending⟩
        · exact ⟨_, .storeEndPending htask hrecv hpending⟩
    | none =>
      obtain ⟨hempty, hopen⟩ := Channel.recv_blocked hrecv
      refine exists_step_of_empty hc (fun hp => ?_) htask hempty
      rw [hc.parseStore.2 hp] at hopen
      cases hopen

/-! ## Runs of the pipeline -/

/-- At the end everything that was emitted has been processed. -/
theorem Pipeline.Inv.processed_eq {outcomes : List FetchOutcome} {s : Pipeline} (h : s.Inv outcomes) (hf : s.Final) :
    s.processed = outcomes.map parseOutcome := by
  obtain ⟨hclosed, hparser, ok, hstore⟩ := hf
  obtain ⟨taken, queued, held, hemitted, htaken, hqueued, hheld⟩ := h.inOrder
  rw [hparser] at hheld
  have hheld' : held = [] := hheld
  rw [(h.closing.store (Or.inr ⟨ok, hstore⟩)).2.1] at hqueued
  have hqueued' : queued = [] := List.map_eq_nil_iff.1 hqueued.symm
  have htodo := h.closing.fetch hclosed
  have hemits := h.emits
  rw [htodo, List.append_nil, hemitted, hqueued', hheld', (h.closing.parser hparser).2] at hemits
  simp only [List.append_nil] at hemits
  rw [hstore] at htaken
  rw [← hemits, ← htaken]
  exact (List.append_nil _).symm

/-- **The pipeline.** For every list of outcomes, every batch size and every interleaving of the tasks: no outcome is
lost, duplicated or reordered and no channel holds more than two; the pipeline cannot deadlock; and when it is over,
every outcome had one status write, every block was handed to one flush, in order of emission, and the counts are
exact. -/
theorem pipeline_correct (batchSize : ℕ) (outcomes : List FetchOutcome) (s : Pipeline)
    (h : Transition.Reachable (pipeline batchSize outcomes) s) :
    (s.InOrder ∧ s.emitted ++ s.toEmit = outcomes ∧ s.fetchParse.items.length ≤ 2 ∧ s.parseStore.items.length ≤ 2) ∧
    (¬s.Final → ∃ s', Pipeline.Step batchSize s s') ∧
    (s.Final →
      s.statusWrites = outcomes.map (fun o => statusRow (parseOutcome o)) ∧
      s.flushes.flatten = outcomes.flatMap (fun o => (parseOutcome o).blocks) ∧
      s.tally.ingested = outcomes.countP (fun o => o matches .ingested _) ∧
      s.tally.skipped = outcomes.countP (fun o => o matches .skipped _) ∧
      s.tally.failed = outcomes.countP (fun o => o matches .failed _ _)) := by
  have hinv := reachable_inv h
  refine ⟨⟨hinv.inOrder, hinv.emits, s.fetchParse.bounded, s.parseStore.bounded⟩,
    fun hf => exists_step hinv.closing hf, fun hf => ?_⟩
  have hproc := hinv.processed_eq hf
  obtain ⟨hw, hb, hi, hs, hd⟩ := hinv.books
  obtain ⟨_, _, ok, hstore⟩ := hf
  rw [(hinv.closing.store (Or.inr ⟨ok, hstore⟩)).2.2, List.append_nil] at hb
  rw [hproc] at hw hb hi hs hd
  have hkind : ∀ o, ((parseOutcome o matches .ingested _) = (o matches .ingested _)) ∧
      ((parseOutcome o matches .skipped _) = (o matches .skipped _)) ∧
      ((parseOutcome o matches .failed _ _) = (o matches .failed _ _)) := fun o => by
    cases o <;> exact ⟨rfl, rfl, rfl⟩
  refine ⟨by rw [hw, List.map_map]; rfl, by rw [hb, List.flatMap_map], ?_, ?_, ?_⟩
  · rw [hi, List.countP_map]
    exact List.countP_congr fun o _ => by rw [Function.comp_apply, (hkind o).1]
  · rw [hs, List.countP_map]
    exact List.countP_congr fun o _ => by rw [Function.comp_apply, (hkind o).2.1]
  · rw [hd, List.countP_map]
    exact List.countP_congr fun o _ => by rw [Function.comp_apply, (hkind o).2.2]

/-! ## A run that ends -/

/-- Nothing is under way; `rest` is to be emitted. -/
structure Pipeline.Idle (rest : List FetchOutcome) (s : Pipeline) : Prop where
  toEmit : s.toEmit = rest
  fetchParse : s.fetchParse = .empty
  parser : s.parser = .receiving
  parseStore : s.parseStore = .empty
  store : s.store = .receiving

/-- The next outcome goes through the tasks. -/
theorem exists_passed {batchSize : ℕ} {outcomes : List FetchOutcome} {s : Pipeline}
    (h : Transition.Reachable (pipeline batchSize outcomes) s) {o : FetchOutcome} {rest : List FetchOutcome}
    (hidle : s.Idle (o :: rest)) :
    ∃ s', Transition.Reachable (pipeline batchSize outcomes) s' ∧ s'.Idle rest := by
  obtain ⟨toEmit, emitted, fetchParse, parser, parseStore, store, tally, processed, statusWrites, flushes⟩ := s
  obtain ⟨rfl, rfl, rfl, rfl, rfl⟩ := hidle
  have hemitted := h.step (.fetchSend rfl ⟨nofun, nofun⟩ rfl)
  have hreceived := hemitted.step (.parseRecv rfl rfl)
  have hparsed := hreceived.step (.parse rfl)
  have hsent := hparsed.step (.parseSend rfl nofun rfl)
  have htaken := hsent.step (.storeRecv rfl rfl)
  by_cases hsize : batchSize ≤ (tally.count (parseOutcome o)).pending.length
  · have hwritten := htaken.step (.storeWriteFull rfl hsize)
    exact ⟨_, hwritten.step (.storeFlushed true rfl), rfl, rfl, rfl, rfl, rfl⟩
  · exact ⟨_, htaken.step (.storeWrite rfl hsize), rfl, rfl, rfl, rfl, rfl⟩

/-- All that is left goes through the tasks, and they end. -/
theorem exists_final_of_idle {batchSize : ℕ} {outcomes : List FetchOutcome} :
    ∀ {rest : List FetchOutcome} {s : Pipeline}, Transition.Reachable (pipeline batchSize outcomes) s → s.Idle rest →
    ∃ s', Transition.Reachable (pipeline batchSize outcomes) s' ∧ s'.Final
  | o :: rest, s, h, hidle => by
    obtain ⟨s', h', hidle'⟩ := exists_passed h hidle
    exact exists_final_of_idle h' hidle'
  | [], s, h, hidle => by
    obtain ⟨toEmit, emitted, fetchParse, parser, parseStore, store, tally, processed, statusWrites, flushes⟩ := s
    obtain ⟨rfl, rfl, rfl, rfl, rfl⟩ := hidle
    have hfetched := h.step (.fetchEnd rfl rfl)
    have hclosed := hfetched.step (.parseEnd rfl rfl)
    by_cases hpending : tally.pending = []
    · exact ⟨_, hclosed.step (.storeEnd rfl rfl hpending), rfl, rfl, true, rfl⟩
    · have hhanded := hclosed.step (.storeEndPending rfl rfl hpending)
      exact ⟨_, hhanded.step (.storeFinal true rfl), rfl, rfl, true, rfl⟩

/-- Two blocks, a skipped slot and a failed one, in batches of one block. -/
theorem pipeline_correct_example :
    ∃ s, Transition.Reachable (pipeline 1 [.ingested (conflictBlock 1 "a" "b"), .skipped 2,
      .failed 3 "timeout", .ingested (conflictBlock 4 "c" "d")]) s ∧ s.Final ∧
    s.statusWrites = [⟨1, "ingested", none⟩, ⟨2, "skipped", none⟩, ⟨3, "failed", some "timeout"⟩,
      ⟨4, "ingested", none⟩] ∧
    s.flushes.flatten = [parseBlock (conflictBlock 1 "a" "b"), parseBlock (conflictBlock 4 "c" "d")] ∧
    s.tally.ingested = 2 ∧ s.tally.skipped = 1 ∧ s.tally.failed = 1 := by
  obtain ⟨s, h, hfinal⟩ := exists_final_of_idle (.init rfl) ⟨rfl, rfl, rfl, rfl, rfl⟩
  exact ⟨s, h, hfinal, (pipeline_correct 1 _ s h).2.2 hfinal⟩

end Tenso.Cli
