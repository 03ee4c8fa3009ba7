import Tenso.Cli.AnyOrder
import Tenso.Cli.Health

/-!
# An interrupted ingest

An ingest that has been killed, or that has failed, is run again: over the same range and the same answers, any number
of times, each time up to any moment. Once such an ingest is over, it has left what it would have left at once
(`ingest_recovers`).

The attempts before it have left rows of the blocks and rows that were there before, statuses of the slots of the
range, and candles of trades that are inferred again (`Attempted`, `AttemptedCandles`); the last ingest overwrites all
of these.
-/

namespace Tenso.Cli

open Tenso.Ingest (DecodedBlock FetchOutcome)
open Storage Ohlcv

/-! ## Trades of some slots -/

/-- Where the rows of each slot are those of another table, or none, the trades are trades of the other table. -/
theorem mem_storedTrades_of_slots {rows rows' : List TokenBalanceChangesRow} (h : Coherent rows) (h' : Coherent rows')
    (hslots : ∀ slot, rows.filter (·.slot = slot) = [] ∨ rows.filter (·.slot = slot) = rows'.filter (·.slot = slot))
    {A : Arithmetic} {t : InferredTrade} (ht : t ∈ storedTrades A rows) : t ∈ storedTrades A rows' := by
  obtain ⟨r, hr, htrade⟩ := mem_storedTrades.1 ht
  have hslot : rows.filter (·.slot = r.slot) = rows'.filter (·.slot = r.slot) := by
    refine (hslots r.slot).resolve_left fun hnil => ?_
    exact List.filter_eq_nil_iff.1 hnil r hr (decide_eq_true rfl)
  have hmem {w : TokenBalanceChangesRow} (hw : w.slot = r.slot) : w ∈ rows ↔ w ∈ rows' := by
    have hiff : w ∈ rows.filter (·.slot = r.slot) ↔ w ∈ rows'.filter (·.slot = r.slot) := by rw [hslot]
    simpa only [List.mem_filter, hw, decide_true, and_true] using hiff
  have hr' : r ∈ rows' := (hmem rfl).1 hr
  refine mem_storedTrades.2 ⟨r, hr', ?_⟩
  rw [← htrade]
  refine rowTrade_congr h' h fun w hsig => ⟨fun hw => ?_, fun hw => ?_⟩
  · exact (hmem (h'.slots w hw r hr' hsig)).2 hw
  · exact (hmem (h.slots w hw r hr hsig)).1 hw

/-! ## Attempts -/

section SameRange

variable {S₀ S : Setting}

theorem Setting.SameRange.outcomes (h : S₀.SameRange S) (hworkers : S₀.args.maxConcurrency ≠ 0) {o : FetchOutcome}
    (ho : o ∈ S.args.outcomes S.answers) : o ∈ S₀.args.outcomes S₀.answers := by
  rw [IngestArgs.outcomes, IngestArgs.attempted] at ho ⊢
  rw [if_neg hworkers]
  split at ho
  · cases ho
  · rwa [IngestArgs.slots, h.startSlot, h.count, h.answers] at ho

theorem Setting.SameRange.blocks (h : S₀.SameRange S) (hworkers : S₀.args.maxConcurrency ≠ 0) {d : DecodedBlock}
    (hd : d ∈ ingestedBlocks (S.args.outcomes S.answers)) : d ∈ ingestedBlocks (S₀.args.outcomes S₀.answers) := by
  obtain ⟨o, ho, hod⟩ := List.mem_filterMap.1 hd
  exact List.mem_filterMap.2 ⟨o, h.outcomes hworkers ho, hod⟩

theorem Setting.SameRange.toSlot (h : S₀.SameRange S) : S.args.toSlot = S₀.args.toSlot := by
  rw [IngestArgs.toSlot, IngestArgs.toSlot, h.startSlot, h.count]

end SameRange

/-- The chain has in the slots of the ingest what the store has there, if it has anything. -/
def SameChain (S₀ : Setting) (st : Store) : Prop :=
  ∀ d ∈ ingestedBlocks (S₀.args.outcomes S₀.answers),
    slotTables st d.slot.toInt64 = .none ∨ slotTables st d.slot.toInt64 = blockTables d

/-- What attempts leave of a store: all that the ingest does not write, and at its slots nothing or its blocks. -/
structure Attempted (S₀ : Setting) (st₀ st : Store) : Prop where
  other : ∀ slot, slot ∉ (ingestedBlocks (S₀.args.outcomes S₀.answers)).map (·.slot.toInt64) →
    storedTables st slot = storedTables st₀ slot
  chain : SameChain S₀ st
  otherStatuses : ∀ slot, slot ∉ (S₀.args.outcomes S₀.answers).map (·.slot.toInt64) →
    st.ingestionStatus.get slot = st₀.ingestionStatus.get slot

section Attempted

variable {S₀ S : Setting} {st₀ st st' : Store}

/-- The blocks of an ingest have distinct slots. -/
theorem ingestedBlocks_inj {d d' : DecodedBlock} (hd : d ∈ ingestedBlocks (S₀.args.outcomes S₀.answers))
    (hd' : d' ∈ ingestedBlocks (S₀.args.outcomes S₀.answers)) (h : d.slot.toInt64 = d'.slot.toInt64) : d = d' := by
  have hnodup := (S₀.args.outcomes_nodup S₀.answers).sublist (ingestedBlocks_slots _)
  exact List.inj_on_of_nodup_map hnodup hd hd' (toInt64_injective h)

theorem SameChain.flush {k : ℕ} {blocks : List DecodedBlock} (h : SameChain S₀ st) (hflush : FlushedTo k blocks st st')
    (hown : ∀ d ∈ blocks, d ∈ ingestedBlocks (S₀.args.outcomes S₀.answers)) : SameChain S₀ st' := by
  intro d hd
  by_cases hs : d.slot.toInt64 ∈ blocks.map (·.slot.toInt64)
  · obtain ⟨pre, d', post, rfl, hslot, hlast⟩ := exists_last hs
    obtain rfl := ingestedBlocks_inj hd (hown d' (by simp)) hslot.symm
    obtain ⟨st₁, hst₁, hsame⟩ := hflush.slotTables_eq
    rw [hsame]
    exact Or.inr (slotTables_holds (holds_live hst₁ hlast))
  · rw [slotTables_sameSlot (hflush.frame hs)]
    exact h d hd

theorem keptByCalls_attempted (hworkers : S₀.args.maxConcurrency ≠ 0) (hS : S₀.SameRange S) (st₀ : Store) :
    KeptByCalls S (Attempted S₀ st₀) where
  flush {k blocks st st'} hown hflush h := by
    have hown₀ : ∀ d ∈ blocks, d ∈ ingestedBlocks (S₀.args.outcomes S₀.answers) :=
      fun d hd => hS.blocks hworkers (hown d hd)
    refine ⟨fun slot hs => ?_, h.chain.flush hflush hown₀, ?_⟩
    · rw [storedTables_sameSlot (hflush.frame fun hm => hs ?_)]
      · exact h.other slot hs
      · obtain ⟨d, hd, rfl⟩ := List.mem_map.1 hm
        exact List.mem_map_of_mem (f := fun d : DecodedBlock => d.slot.toInt64) (hown₀ d hd)
    · rw [hflush.ingestionStatus]
      exact h.otherStatuses
  status {o st} ho h := by
    refine ⟨h.other, h.chain, fun slot hs => ?_⟩
    have hne : slot ≠ (statusRow (parseOutcome o)).slot := by
      rintro rfl
      refine hs (List.mem_map.2 ⟨o, hS.outcomes hworkers ho, ?_⟩)
      exact congrArg UInt64.toInt64 (slot_parseOutcome o).symm
    rw [Table.get_upsert, if_neg hne]
    exact h.otherStatuses slot hs
  candles _ _ h := ⟨h.other, h.chain, h.otherStatuses⟩

/-! ## The candles of attempts -/

/-- The rows that the ingest leaves in the end: those of its blocks, and those of the other slots. -/
structure FinalRows (S₀ : Setting) (st₀ : Store) (rows : List TokenBalanceChangesRow) : Prop where
  ingested : ∀ d ∈ ingestedBlocks (S₀.args.outcomes S₀.answers),
    rows.filter (·.slot = d.slot.toInt64) = newTokenBalanceChanges (parseBlock d).slotRow
  other : ∀ slot, slot ∉ (ingestedBlocks (S₀.args.outcomes S₀.answers)).map (·.slot.toInt64) →
    rows.filter (·.slot = slot) = st₀.tokenBalanceChanges.rows.filter (·.slot = slot)
  coherent : Coherent rows

/-- The trades of the candle pass in the end. -/
def finalTrades (S₀ : Setting) (rows : List TokenBalanceChangesRow) : Multiset InferredTrade :=
  storedTrades S₀.arith (rows.filter fun r => between S₀.args.startSlot S₀.args.toSlot r.slot)

/-- At any time the trades of the range are trades in the end. -/
theorem Attempted.trades {rows : List TokenBalanceChangesRow} (h : Attempted S₀ st₀ st)
    (hone : ∀ slot, OneBlock (fun _ => True) st slot) (hrows : FinalRows S₀ st₀ rows) {t : InferredTrade}
    (ht : t ∈ finalTrades S₀ st.tokenBalanceChanges.rows) : t ∈ finalTrades S₀ rows := by
  refine mem_storedTrades_of_slots ((OneBlock.coherent hone).2.filter _) (hrows.coherent.filter _) (fun slot => ?_) ht
  have hslot : st.tokenBalanceChanges.rows.filter (·.slot = slot) = [] ∨
      st.tokenBalanceChanges.rows.filter (·.slot = slot) = rows.filter (·.slot = slot) := by
    by_cases hs : slot ∈ (ingestedBlocks (S₀.args.outcomes S₀.answers)).map (·.slot.toInt64)
    · obtain ⟨d, hd, rfl⟩ := List.mem_map.1 hs
      rw [hrows.ingested d hd]
      exact (h.chain d hd).imp (congrArg SlotTables.tokenBalanceChanges) (congrArg SlotTables.tokenBalanceChanges)
    · rw [hrows.other slot hs]
      exact Or.inr (congrArg SlotTables.tokenBalanceChanges (h.other slot hs))
  rw [List.filter_comm, List.filter_comm (fun r => decide (r.slot = slot)) _ rows]
  exact hslot.imp (fun hnil => by rw [hnil]; rfl) fun heq => by rw [heq]

/-- What attempts leave, and candles that the ingest does not refresh in the end are as before. -/
structure AttemptedCandles (S₀ : Setting) (st₀ : Store) (rows : List TokenBalanceChangesRow) (st : Store) : Prop where
  oneBlock : ∀ slot, OneBlock (fun _ => True) st slot
  attempted : Attempted S₀ st₀ st
  candles : ∀ mint intervalSec start,
    (intervalSec ∈ candleIntervals → View.group (tradeKey intervalSec.toInt) (finalTrades S₀ rows) (mint, start) = 0) →
      st.candles.get (mint, intervalSec, start) = st₀.candles.get (mint, intervalSec, start)

theorem keptByCalls_attemptedCandles (hworkers : S₀.args.maxConcurrency ≠ 0) (hS : S₀.SameRange S)
    {rows : List TokenBalanceChangesRow} (hrows : FinalRows S₀ st₀ rows) :
    KeptByCalls S (AttemptedCandles S₀ st₀ rows) where
  flush hown hflush h := by
    refine ⟨hflush.oneBlock h.oneBlock fun _ _ => trivial,
      (keptByCalls_attempted hworkers hS st₀).flush hown hflush h.attempted, ?_⟩
    rw [hflush.candles]
    exact h.candles
  status ho h := ⟨h.oneBlock, (keptByCalls_attempted hworkers hS st₀).status ho h.attempted, h.candles⟩
  candles {balanceRows st} k hquery h := by
    refine ⟨h.oneBlock, (keptByCalls_attempted hworkers hS st₀).candles k hquery h.attempted, ?_⟩
    intro mint intervalSec start hno
    rw [← h.candles mint intervalSec start hno]
    let upserted := candleRows S.arith S.orders (tradesOf S.arith S.orders.snapshots balanceRows)
    rcases st.candles.get_upsertAll (upserted.take k) (mint, intervalSec, start) with ⟨r, hr, hkey, _⟩ | ⟨_, hget⟩
    · -- an upserted candle has a trade, which is one in the end
      exfalso
      obtain ⟨rfl, rfl, rfl⟩ : r.mint = mint ∧ r.intervalSec = intervalSec ∧ r.bucketStart = start := by
        simpa [CandlesRow.key] using hkey
      obtain ⟨hi, ⟨t, ht, hbucket⟩, _⟩ := candleRows_spec (List.mem_of_mem_take hr)
      obtain ⟨ht, hmint⟩ := List.mem_filter.1 ht
      have hfinal : t ∈ finalTrades S₀ rows := by
        refine h.attempted.trades h.oneBlock hrows ?_
        have hpass := @tradesOf_query S.arith _ _ S.orders.snapshots _ _ _ _ h.oneBlock hquery
        rw [hS.startSlot, hS.toSlot] at hpass
        rw [finalTrades, ← hS.arith, ← hpass]
        exact ht
      exact View.group_eq_zero.1 (hno hi) t hfinal (by rw [tradeKey, of_decide_eq_true hmint, hbucket])
    · exact hget

end Attempted

/-! ## Recovery -/

section Recovery

variable {S₀ : Setting} {st₀ st : Store}

theorem AttemptedCandles.leaves {fin : Store} (h : AttemptedCandles S₀ st₀ fin.tokenBalanceChanges.rows st)
    (hleaves : Leaves S₀.arith S₀.args S₀.answers st fin) : Leaves S₀.arith S₀.args S₀.answers st₀ fin where
  ingested := hleaves.ingested
  other slot hs := (hleaves.other slot hs).trans (h.attempted.other slot hs)
  statuses := hleaves.statuses
  otherStatuses slot hs := (hleaves.otherStatuses slot hs).trans (h.attempted.otherStatuses slot hs)
  candles := ⟨hleaves.candles.traded, fun mint intervalSec start hno =>
    (hleaves.candles.other mint intervalSec start hno).trans (h.candles mint intervalSec start hno)⟩

/-- An ingest that is over, after any attempts, leaves what it says of the store before them. -/
theorem leaves_of_attempts {s : IngestState} {stats : DbStats} (hworkers : S₀.args.maxConcurrency ≠ 0)
    (hst₀ : Written ⟨st₀, none, 0⟩) (hchain : SameChain S₀ st₀)
    (hattempts : Transition.Reachable (sessions S₀.SameRange st₀) st)
    (h : Transition.Reachable (ingest S₀ ⟨st, none, 0⟩) s) (hdone : s.job.phase = .done stats)
    (hflush : FlushesSucceed S₀.faults S₀.args.batchSize s.job.stages.pipeline.processed ⟨st, none, 0⟩) :
    Leaves S₀.arith S₀.args S₀.answers st₀ s.conn.store := by
  have hstart : Attempted S₀ st₀ st₀ := ⟨fun _ _ => rfl, hchain, fun _ _ => rfl⟩
  obtain ⟨hst, hatt⟩ := sessions_keep (fun S hS => keptByCalls_attempted hworkers hS st₀) hst₀ hstart hattempts
  obtain ⟨hleaves, hcoh⟩ := leaves_of_done hst h hdone hflush
  have hrows : FinalRows S₀ st₀ s.conn.store.tokenBalanceChanges.rows :=
    ⟨fun d hd => congrArg SlotTables.tokenBalanceChanges (hleaves.ingested d hd),
      fun slot hs => congrArg SlotTables.tokenBalanceChanges ((hleaves.other slot hs).trans (hatt.other slot hs)), hcoh⟩
  obtain ⟨_, hcandles⟩ := sessions_keep (fun S hS => keptByCalls_attemptedCandles hworkers hS hrows) hst₀
    ⟨hst₀.oneBlock, hstart, fun _ _ _ _ => rfl⟩ hattempts
  exact hcandles.leaves hleaves

/-- **Recovery.** An ingest that is over and whose flushes have succeeded, after any number of attempts at the same
range with the same answers, each of them stopped at any moment, leaves the same data and reports the same statistics
as one on the store before the attempts. -/
theorem ingest_recovers (S S' : Setting) (st₀ st : Store) (s s' : IngestState) (stats stats' : DbStats)
    (hsame : S.SameRange S') (hworkers : S.args.maxConcurrency ≠ 0 ∧ S'.args.maxConcurrency ≠ 0)
    (hst₀ : Written ⟨st₀, none, 0⟩) (hchain : SameChain S st₀)
    (hattempts : Transition.Reachable (sessions S.SameRange st₀) st)
    (h : Transition.Reachable (ingest S ⟨st, none, 0⟩) s) (hdone : s.job.phase = .done stats)
    (hflush : FlushesSucceed S.faults S.args.batchSize s.job.stages.pipeline.processed ⟨st, none, 0⟩)
    (h' : Transition.Reachable (ingest S' ⟨st₀, none, 0⟩) s') (hdone' : s'.job.phase = .done stats')
    (hflush' : FlushesSucceed S'.faults S'.args.batchSize s'.job.stages.pipeline.processed ⟨st₀, none, 0⟩) :
    SameData S.arith s.conn.store s'.conn.store ∧ stats = stats' := by
  have hleaves := leaves_of_attempts hworkers.1 hst₀ hchain hattempts h hdone hflush
  obtain ⟨hleaves', hcoh⟩ := leaves_of_done hst₀ h' hdone' hflush'
  have hdata := hleaves.same (hsame.leaves hworkers hleaves') hcoh
  refine ⟨hdata, ?_⟩
  rw [(ingest_done h hdone).2.2.2, (ingest_done h' hdone').2.2.2, hdata.stats]

/-- The attempt on slot 5 has been stopped after the flush of its block. -/
theorem exists_stopped : Transition.Reachable (sessions (buySetting 1).SameRange .empty) (boughtConn .empty).store := by
  obtain ⟨pool, htaken⟩ := exists_taken (fun slot => (buyBlock slot).transactions) 1 .empty
  have hwritten :=
    htaken.step (@IngestState.Step.whole (buySetting 1) _ (.status (parseOutcome (.ingested (buyBlock 5)))) rfl)
  have hserved := @served_of_ingest _ plainExternals _ _ written_empty (hwritten.step (.whole rfl))
  exact .step (.init rfl) ⟨_, _, _, ⟨rfl, rfl, rfl, rfl⟩, hserved, rfl⟩

/-- After this attempt the block is ingested again, with its candles. -/
theorem ingest_recovers_example : ∃ (s s' : IngestState) (stats stats' : DbStats),
    Transition.Reachable (ingest (buySetting 1) ⟨(boughtConn .empty).store, none, 0⟩) s ∧
    Transition.Reachable (ingest (buySetting 1) ⟨.empty, none, 0⟩) s' ∧
    SameData .exact s.conn.store s'.conn.store ∧ stats = stats' := by
  obtain ⟨s, stats, h, hdone, hprocessed, _⟩ := @exists_one (fun slot => (buyBlock slot).transactions) rfl
    (boughtConn .empty).store (by decide +kernel)
  obtain ⟨s', stats', h', hdone', hprocessed', _⟩ := @exists_one (fun slot => (buyBlock slot).transactions) rfl _
    candles_boughtConn
  exact ⟨s, s', stats, stats', h, h', ingest_recovers (buySetting 1) (buySetting 1) .empty _ s s' stats stats'
    ⟨rfl, rfl, rfl, rfl⟩ ⟨by decide, by decide⟩ written_empty (fun _ _ => Or.inl rfl) exists_stopped h hdone
    (hprocessed ▸ flushesSucceed_buyOne (by decide +kernel)) h' hdone'
    (hprocessed' ▸ flushesSucceed_buyOne (by decide +kernel))⟩

end Recovery

end Tenso.Cli
