import Tenso.Cli.Pipeline
import Tenso.Ingest.Range

/-!
# No slot is left out

The fetch task runs the worker pool over the slot range of the command line and sends each outcome into the pipeline
before the next slot is put in flight. When all stages have ended without an error, the counts add up to `count` and
every slot of the range has a status of this run exactly if there is a worker and the end of the range fits in `u64`, or
there is nothing to fetch (`stages_complete_iff`). Without a worker a run ends at once and reports success
(`stages_leaveOut`).
-/

namespace Tenso.Cli

open Ingest
open Storage (IngestionStatusRow)

/-- The arguments of `ingest` that the stages use. -/
structure IngestArgs where
  startSlot : UInt64
  count : UInt64
  ratePerSec : ℚ
  maxConcurrency : ℕ
  batchSize : ℕ

/-- The answers of the server: slot, attempt number. -/
abbrev Answers := UInt64 → ℕ → Except RpcError (Option ℤ × List DecodedTransaction)

/-- The stages: the worker pool of the fetch task, and the pipeline. The outcomes come from the pool, so that the
pipeline's own list of outcomes stays empty. -/
structure Stages where
  pool : Pool
  pipeline : Pipeline

/-- The slots of the run. -/
def IngestArgs.slots (args : IngestArgs) : List UInt64 := slotRange args.startSlot args.count

/-- The start of the stages. -/
def Stages.start (args : IngestArgs) : Stages :=
  { pool := .start (.new args.ratePerSec args.ratePerSec) args.slots args.maxConcurrency, pipeline := .start [] }

/-- One step of the stages. -/
inductive Stages.Step (args : IngestArgs) (answers : Answers) : Stages → Stages → Prop
  /-- the pool goes on, without an outcome in its hands -/
  | fetch {s : Stages} {pool : Pool} (hquiet : s.pool.phase.hand = [])
      (hpool : Pool.Step (getBlock answers) s.pool pool) : Step args answers s { s with pool }
  /-- an outcome is sent (or lost, when the parse task is gone), and the pool goes on -/
  | handOn {s : Stages} {outcome : FetchOutcome} {pipeline : Pipeline} (hphase : s.pool.phase = .handingOn outcome)
      (hsend : Pipeline.Step args.batchSize { s.pipeline with toEmit := [outcome] } pipeline)
      (hemit : pipeline.toEmit = []) :
      Step args answers s { pool := Pool.refill { s.pool with phase := .polling }, pipeline }
  /-- another task goes on; the fetch task only ends after the pool -/
  | task {s : Stages} {pipeline : Pipeline} (htask : Pipeline.Step args.batchSize s.pipeline pipeline)
      (hend : pipeline.fetchParse.closed = true → s.pipeline.fetchParse.closed = true ∨ s.pool.phase = .finished) :
      Step args answers s { s with pipeline }

/-- The stages of `run_ingest`, as a transition system. -/
def stages (args : IngestArgs) (answers : Answers) : Transition.System Stages :=
  { init := fun s => s = .start args, step := Stages.Step args answers }

/-- All stages have ended without an error. -/
def Stages.EndsOk (s : Stages) : Prop :=
  s.pipeline.fetchParse.closed = true ∧ s.pipeline.parser = .finished ∧ s.pipeline.store = .finished true

/-- The statuses after the run, on a table of earlier ones. -/
def Stages.statuses (table : Table IngestionStatusRow.slot) (s : Stages) : Table IngestionStatusRow.slot :=
  table.upsertAll s.pipeline.statusWrites

/-- No slot is left out: the counts add up, and every slot of the range has a status that this run has written. -/
structure Complete (args : IngestArgs) (table : Table IngestionStatusRow.slot) (s : Stages) : Prop where
  counts : s.pipeline.tally.ingested + s.pipeline.tally.skipped + s.pipeline.tally.failed = args.count.toNat
  statuses : ∀ n, args.startSlot.toNat ≤ n → n < args.startSlot.toNat + args.count.toNat →
    ∃ slot : UInt64, slot.toNat = n ∧ ∃ row ∈ s.pipeline.statusWrites, (s.statuses table).get slot.toInt64 = some row

/-! ## The invariant -/

/-- The invariant of the stages: the pipeline has its own, the pool serves the slots, and what the pool has handed on is
what the pipeline's fetch task has emitted. -/
structure Stages.Inv (args : IngestArgs) (s : Stages) : Prop where
  toEmit : s.pipeline.toEmit = []
  pipeline : s.pipeline.Inv s.pipeline.emitted
  pool : s.pool.Serves args.slots args.maxConcurrency (s.pipeline.emitted.map (·.slot))
  closed : s.pipeline.fetchParse.closed = true → s.pool.phase = .finished

theorem inv_startStages (args : IngestArgs) : (Stages.start args).Inv args :=
  ⟨rfl, inv_start [], serves_start _ _ _, nofun⟩

/-- A task of the pipeline emits nothing when there is nothing to emit. -/
theorem emitted_of_nil {batchSize : ℕ} {s s' : Pipeline} (hs : Pipeline.Step batchSize s s') (h : s.toEmit = []) :
    s'.toEmit = [] ∧ s'.emitted = s.emitted := by
  cases hs with
  | fetchSend hemit =>
    rw [h] at hemit
    cases hemit
  | fetchDrop hemit =>
    rw [h] at hemit
    cases hemit
  | _ => exact ⟨h, rfl⟩

/-- A step that takes the offered outcome emits it, and does not end the fetch task. -/
theorem emitted_of_offer {batchSize : ℕ} {s s' : Pipeline} {outcome : FetchOutcome}
    (hs : Pipeline.Step batchSize { s with toEmit := [outcome] } s') (h : s'.toEmit = []) :
    s'.emitted = s.emitted ++ [outcome] ∧ s'.fetchParse.closed = s.fetchParse.closed := by
  cases hs with
  | fetchSend hemit halive hsend =>
    cases hemit
    exact ⟨rfl, (Channel.send_spec hsend).2⟩
  | fetchDrop hemit =>
    cases hemit
    exact ⟨rfl, rfl⟩
  | fetchEnd hemit => cases hemit
  | _ => cases h

/-- The pipeline is open while the pool has an outcome in its hands, so the outcome can still be emitted. -/
theorem Stages.Inv.offer {args : IngestArgs} {s : Stages} {outcome : FetchOutcome} (h : s.Inv args)
    (hphase : s.pool.phase = .handingOn outcome) :
    Pipeline.Inv (s.pipeline.emitted ++ [outcome]) { s.pipeline with toEmit := [outcome] } := by
  obtain ⟨_, hparser, hps, halive, hstore⟩ := h.pipeline.closing
  have hopen : s.pipeline.fetchParse.closed ≠ true := fun hcl => by
    have := h.closed hcl
    rw [hphase] at this
    cases this
  obtain ⟨hw, hf, hi, hs, hd⟩ := h.pipeline.books
  exact ⟨rfl, h.pipeline.inOrder, ⟨hw, hf, hi, hs, hd⟩, fun hcl => absurd hcl hopen, hparser, hps, halive, hstore⟩

/-- Every step keeps the invariant. -/
theorem Stages.Inv.step {args : IngestArgs} {answers : Answers} {s s' : Stages} (h : s.Inv args)
    (hs : Stages.Step args answers s s') : s'.Inv args := by
  cases hs with
  | fetch hquiet hpool =>
    refine ⟨h.toEmit, h.pipeline, h.pool.step hpool hquiet, fun hcl => ?_⟩
    -- a finished pool makes no step
    have hfin := h.closed hcl
    exfalso
    cases hpool with
    | denied hphase | granted hphase | answer hphase | retry hphase | next hphase | handedOn hphase | finish hphase =>
      rw [hfin] at hphase
      cases hphase
  | @handOn outcome pipeline hphase hsend hemit =>
    obtain ⟨hemitted, hclosed⟩ := emitted_of_offer hsend hemit
    refine ⟨hemit, ?_, ?_, fun hcl => ?_⟩
    · rw [hemitted]
      exact (h.offer hphase).step hsend
    · rw [hemitted, List.map_append]
      exact h.pool.handOn hphase
    · have := h.closed (hclosed ▸ hcl)
      rw [hphase] at this
      cases this
  | task htask hend =>
    obtain ⟨htoEmit, hemitted⟩ := emitted_of_nil htask h.toEmit
    refine ⟨htoEmit, ?_, ?_, fun hcl => (hend hcl).elim h.closed id⟩
    · rw [hemitted]
      exact h.pipeline.step htask
    · rw [hemitted]
      exact h.pool

theorem stages_inv {args : IngestArgs} {answers : Answers} {s : Stages}
    (h : Transition.Reachable (stages args answers) s) : s.Inv args :=
  h.invariant (fun _ h0 => h0 ▸ inv_startStages args) fun _ _ hi hs => hi.step hs

/-! ## The end of a run -/

theorem slot_parseOutcome (o : FetchOutcome) : (parseOutcome o).slot = o.slot := by cases o <;> rfl

/-- Every outcome is of one kind. -/
theorem countP_kinds (ps : List ParsedOutcome) : (ps.countP fun p => p matches .ingested _) +
    (ps.countP fun p => p matches .skipped _) + (ps.countP fun p => p matches .failed _ _) = ps.length := by
  induction ps with
  | nil => rfl
  | cons p ps ih => cases p <;> simp <;> omega

/-- What a run leaves at its end: the slots of the emitted outcomes are those of the range, if there is a worker; each
of them is counted once and has a status. -/
structure Stages.Served (args : IngestArgs) (s : Stages) : Prop where
  slots : args.maxConcurrency ≠ 0 → (s.pipeline.emitted.map (·.slot)).Perm args.slots
  none : args.maxConcurrency = 0 → s.pipeline.emitted = []
  counts : s.pipeline.tally.ingested + s.pipeline.tally.skipped + s.pipeline.tally.failed = s.pipeline.emitted.length
  statuses : s.pipeline.statusWrites = s.pipeline.emitted.map fun o => statusRow (parseOutcome o)

theorem Stages.Inv.served {args : IngestArgs} {s : Stages} (h : s.Inv args) (hend : s.EndsOk) : s.Served args := by
  obtain ⟨hclosed, hparser, hstore⟩ := hend
  have hprocessed := h.pipeline.processed_eq ⟨hclosed, hparser, true, hstore⟩
  obtain ⟨hslots, hnone⟩ := h.pool.complete (h.closed hclosed)
  refine ⟨hslots, fun h0 => List.map_eq_nil_iff.1 (hnone h0), ?_, ?_⟩
  · rw [h.pipeline.books.ingested, h.pipeline.books.skipped, h.pipeline.books.failed]
    exact (countP_kinds _).trans (by rw [hprocessed, List.length_map])
  · rw [h.pipeline.books.statusWrites, hprocessed, List.map_map]
    rfl

/-- Every slot that was served has a status of this run. -/
theorem Stages.Served.status {args : IngestArgs} {s : Stages} (h : s.Served args)
    (table : Table IngestionStatusRow.slot) {slot : UInt64} (hslot : slot ∈ s.pipeline.emitted.map (·.slot)) :
    ∃ row ∈ s.pipeline.statusWrites, (s.statuses table).get slot.toInt64 = some row := by
  obtain ⟨o, ho, rfl⟩ := List.mem_map.1 hslot
  have hrow : statusRow (parseOutcome o) ∈ s.pipeline.statusWrites := by
    rw [h.statuses]
    exact List.mem_map_of_mem (f := fun o => statusRow (parseOutcome o)) ho
  rcases Table.get_upsertAll table s.pipeline.statusWrites o.slot.toInt64 with ⟨row, hmem, _, hget⟩ | ⟨hno, _⟩
  · exact ⟨row, hmem, hget⟩
  · exact absurd (congrArg UInt64.toInt64 (slot_parseOutcome o)) (hno _ hrow)

/-- With a worker and a range that fits, nothing is left out. -/
theorem Stages.Served.complete {args : IngestArgs} {s : Stages} (h : s.Served args)
    (table : Table IngestionStatusRow.slot) (hworker : args.maxConcurrency ≠ 0)
    (hfits : args.startSlot.toNat + args.count.toNat < 2 ^ 64) : Complete args table s := by
  have hperm := h.slots hworker
  have hrange := slotRange_toNat hfits
  refine ⟨?_, fun n hlo hhi => ?_⟩
  · have hlen := congrArg List.length hrange
    rw [List.length_map, List.length_map, List.length_range] at hlen
    rw [h.counts, ← hlen, ← IngestArgs.slots, ← hperm.length_eq, List.length_map]
  · have hn : n ∈ (slotRange args.startSlot args.count).map (·.toNat) := by
      rw [hrange]
      exact List.mem_map.2 ⟨n - args.startSlot.toNat, List.mem_range.2 (by omega), by omega⟩
    obtain ⟨slot, hslot, rfl⟩ := List.mem_map.1 hn
    exact ⟨slot, rfl, h.status table (hperm.mem_iff.2 hslot)⟩

/-- Without a worker, and for a range that wraps, nothing is fetched. -/
theorem Stages.Served.emitted_nil {args : IngestArgs} {s : Stages} (h : s.Served args)
    (hno : args.maxConcurrency = 0 ∨ args.slots = []) : s.pipeline.emitted = [] := by
  by_cases h0 : args.maxConcurrency = 0
  · exact h.none h0
  · have hperm := h.slots h0
    rw [hno.resolve_left h0] at hperm
    exact List.map_eq_nil_iff.1 hperm.eq_nil

/-- **When no slot is left out.** In every run whose stages have all ended without an error, the counts add up to
`count` and every slot of the range has a status of this run if and only if there is nothing to fetch, or there is a
worker and the end of the range fits in `u64`. -/
theorem stages_complete_iff (args : IngestArgs) (answers : Answers) (table : Table IngestionStatusRow.slot) (s : Stages)
    (h : Transition.Reachable (stages args answers) s) (hend : s.EndsOk) :
    Complete args table s ↔
      args.count = 0 ∨ (args.maxConcurrency ≠ 0 ∧ args.startSlot.toNat + args.count.toNat < 2 ^ 64) := by
  have hserved := (stages_inv h).served hend
  by_cases hcount : args.count = 0
  · refine ⟨fun _ => Or.inl hcount, fun _ => ?_⟩
    have hslots : args.slots = [] := by
      apply List.length_eq_zero_iff.1
      rw [IngestArgs.slots, slotRange_length, hcount, UInt64.add_zero, Nat.sub_self]
    have hnone := hserved.emitted_nil (Or.inr hslots)
    refine ⟨?_, fun n hlo hhi => ?_⟩
    · rw [hserved.counts, hnone, hcount]
      rfl
    · rw [hcount] at hhi
      exact absurd hhi (by simpa using hlo)
  · constructor
    · intro hcomplete
      refine Or.inr ?_
      by_contra hno
      have hleft : args.maxConcurrency = 0 ∨ args.slots = [] := by
        by_cases h0 : args.maxConcurrency = 0
        · exact Or.inl h0
        · exact Or.inr (slotRange_wraps (Nat.le_of_not_lt fun hlt => hno ⟨h0, hlt⟩))
      have hcounts := hcomplete.counts
      rw [hserved.counts, hserved.emitted_nil hleft] at hcounts
      exact hcount (UInt64.toNat_inj.1 hcounts.symm)
    · intro hcond
      obtain ⟨hworker, hfits⟩ := hcond.resolve_left hcount
      exact hserved.complete table hworker hfits

/-- The server has a block of slot 5 only. -/
def oneBlock (slot : UInt64) (_ : ℕ) : Except RpcError (Option ℤ × List DecodedTransaction) :=
  if slot = 5 then .ok (none, (conflictBlock 5 "a" "b").transactions) else .error .slotSkipped

/-- A run over a skipped slot and a block with two workers and batches of one block; the skipped slot is done first. -/
theorem stages_complete_iff_example : ∃ s, Transition.Reachable (stages ⟨5, 2, 2, 2, 1⟩ oneBlock) s ∧
    s.EndsOk ∧ Complete ⟨5, 2, 2, 2, 1⟩ .empty s := by
  have hstart : Transition.Reachable (stages ⟨5, 2, 2, 2, 1⟩ oneBlock) (.start ⟨5, 2, 2, 2, 1⟩) := .init rfl
  have hslots : slotRange 5 2 = [5, 6] := by decide
  rw [Stages.start, IngestArgs.slots, hslots] at hstart
  -- the fetch task: two requests
  have hfive :=
    hstart.step (.fetch rfl (@Pool.Step.granted _ _ [] _ _ _ _ rfl rfl le_rfl (poll_zero (by decide +kernel) le_rfl)))
  have hsix := hfive.step (.fetch rfl (@Pool.Step.granted _ _ [⟨5, .awaiting 0⟩] _ _ _ _ rfl rfl le_rfl
    (poll_zero (by decide +kernel) (by decide +kernel))))
  -- slot 6 is answered, and goes through the tasks
  have hanswered := hsix.step (.fetch rfl (@Pool.Step.answer _ _ [⟨5, .awaiting 0⟩] _ _ _ rfl rfl))
  have hnext := hanswered.step (.fetch rfl (@Pool.Step.next _ _ [⟨5, .awaiting 0⟩] _ _ _ rfl rfl))
  have hsent := hnext.step (.handOn rfl (.fetchSend rfl ⟨nofun, nofun⟩ rfl) rfl)
  have hreceived := hsent.step (.task (.parseRecv rfl rfl) Or.inl)
  have hparsed := hreceived.step (.task (.parse rfl) Or.inl)
  have hforwarded := hparsed.step (.task (.parseSend rfl nofun rfl) Or.inl)
  have htaken := hforwarded.step (.task (.storeRecv rfl rfl) Or.inl)
  have hskipped := htaken.step (.task (.storeWrite rfl (by decide)) Or.inl)
  -- slot 5 after it; its batch is full
  have hanswered := hskipped.step (.fetch rfl (@Pool.Step.answer _ _ [] _ _ _ rfl rfl))
  have hnext := hanswered.step (.fetch rfl (@Pool.Step.next _ _ [] _ _ _ rfl rfl))
  have hsent := hnext.step (.handOn rfl (.fetchSend rfl ⟨nofun, nofun⟩ rfl) rfl)
  have hreceived := hsent.step (.task (.parseRecv rfl rfl) Or.inl)
  have hparsed := hreceived.step (.task (.parse rfl) Or.inl)
  have hforwarded := hparsed.step (.task (.parseSend rfl nofun rfl) Or.inl)
  have htaken := hforwarded.step (.task (.storeRecv rfl rfl) Or.inl)
  have hwritten := htaken.step (.task (.storeWriteFull rfl (by decide)) Or.inl)
  have hflushed := hwritten.step (.task (.storeFlushed true rfl) Or.inl)
  -- the tasks end
  have hfinished := hflushed.step (.fetch rfl (.finish rfl rfl))
  have hfetched := hfinished.step (.task (.fetchEnd rfl rfl) fun _ => Or.inr rfl)
  have hclosed := hfetched.step (.task (.parseEnd rfl rfl) Or.inl)
  have hended := hclosed.step (.task (.storeEnd rfl rfl rfl) Or.inl)
  exact ⟨_, hended, ⟨rfl, rfl, rfl⟩,
    (stages_complete_iff _ _ .empty _ hended ⟨rfl, rfl, rfl⟩).2 (Or.inr ⟨by decide, by decide⟩)⟩

/-- Without a slot in flight the stages end at once, and what there is to fetch is left out. -/
theorem exists_leaveOut (args : IngestArgs) (answers : Answers) (table : Table IngestionStatusRow.slot)
    (h : args.maxConcurrency = 0 ∨ args.slots = []) (hcount : args.count ≠ 0) :
    ∃ s, Transition.Reachable (stages args answers) s ∧ s.EndsOk ∧ ¬Complete args table s := by
  have hnone : (Stages.start args).pool.inFlight = [] := by
    rcases h with h | h <;> simp [Stages.start, Pool.start, h]
  have hstart : Transition.Reachable (stages args answers) (.start args) := .init rfl
  have hfinished := hstart.step (.fetch rfl (.finish rfl hnone))
  have hfetched := hfinished.step (.task (.fetchEnd rfl rfl) fun _ => Or.inr rfl)
  have hparsed := hfetched.step (.task (.parseEnd rfl rfl) fun _ => Or.inr rfl)
  have hended := hparsed.step (.task (.storeEnd rfl rfl rfl) fun _ => Or.inr rfl)
  refine ⟨_, hended, ⟨rfl, rfl, rfl⟩, fun hcomplete => hcount ?_⟩
  -- nothing was counted
  exact UInt64.toNat_inj.1 hcomplete.counts.symm

/-- With no worker, and for a range that ends at `2 ^ 64`, a run reports success and leaves its slot out. -/
theorem stages_leaveOut :
    (∃ s, Transition.Reachable (stages ⟨5, 1, 1, 0, 1⟩ fun _ _ => .error .slotSkipped) s ∧ s.EndsOk ∧
      ¬Complete ⟨5, 1, 1, 0, 1⟩ .empty s) ∧
    ∃ s, Transition.Reachable (stages ⟨18446744073709551615, 1, 1, 8, 25⟩ fun _ _ => .error .slotSkipped) s ∧ s.EndsOk ∧
      ¬Complete ⟨18446744073709551615, 1, 1, 8, 25⟩ .empty s :=
  ⟨exists_leaveOut _ _ _ (Or.inl rfl) (by decide),
    exists_leaveOut _ _ _ (Or.inr (slotRange_wraps (by decide))) (by decide)⟩

end Tenso.Cli
