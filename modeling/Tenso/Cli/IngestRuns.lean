import Tenso.Cli.CandlePass
import Tenso.Cli.StoredSlots
import Tenso.Ingest.Fetch

/-!
# Candles over several runs

An ingest run stores the blocks of a slot range and then runs the candle pass over that range. The pass overwrites whole
buckets from the rows of its own range, so trades of other slots in the same buckets are lost.

- `Clean` says on the blocks of the slots ingested so far that a run loses nothing: no bucket of a mint has trades both
  inside and outside the run's range, and the range query sees every new trade.
- A clean run keeps candles up to date, whatever the rounding (`runIngest_upToDate`). In exact arithmetic, where the
  order of a sum does not matter, candles that agree with the rows agree again exactly when the run is clean
  (`runIngest_agree`). So it is for sequences of runs (`candlesAgree_runs`).
- Ingesting one slot again loses the trades of its neighbour (`reingest_loses_trade`).
-/

namespace Tenso.Cli

open Ingest (DecodedBlock FetchOutcome slotRange)
open Storage Ohlcv

/-! ## Runs -/

/-- `u64::saturating_add`. -/
def saturatingAdd (a b : UInt64) : UInt64 := if a.toNat + b.toNat < 2 ^ 64 then a + b else 18446744073709551615

/-- `u64::saturating_sub`. -/
def saturatingSub (a b : UInt64) : UInt64 := if b ≤ a then a - b else 0

/-- One ingest run: the slot range, the batch size, the outcomes of the slots in the order in which they arrive at the
store, and the iteration orders of the candle pass. -/
structure IngestRun (chain : UInt64 → DecodedBlock) where
  startSlot : UInt64
  count : UInt64
  batchSize : ℕ
  outcomes : List FetchOutcome
  ord : CandleOrders
  /-- only slots of the range are attempted -/
  slots : ∀ o ∈ outcomes, (parseOutcome o).slot ∈ slotRange startSlot count
  /-- a slot has the same block whenever it is fetched -/
  data : ∀ block ∈ ingestedBlocks outcomes, chain block.slot = block

variable {A : Arithmetic} {chain : UInt64 → DecodedBlock}

/-- The last slot of the candle pass. -/
def IngestRun.toSlot (run : IngestRun chain) : UInt64 := saturatingAdd run.startSlot (saturatingSub run.count 1)

/-- The slots that the run ingests. -/
def IngestRun.ingested (run : IngestRun chain) : Set UInt64 := slotsOf (ingestedBlocks run.outcomes)

/-- An ingest run: the store stage, then the candle pass over the slot range. -/
def runIngest (A : Arithmetic) (f : Faults) (run : IngestRun chain) (c : Conn Store) :
    Except DbError Unit × Conn Store :=
  match storeStage f run.batchSize (run.outcomes.map parseOutcome) c with
  | (.error e, s) => (.error e, s.conn)
  | (.ok _, s) => buildAndStoreCandles A f run.ord run.startSlot run.toSlot s.conn

/-- The run succeeds, and so do all its flushes. -/
def Completes (A : Arithmetic) (f : Faults) (run : IngestRun chain) (c : Conn Store) : Prop :=
  (runIngest A f run c).1 = .ok () ∧ FlushesSucceed f run.batchSize (run.outcomes.map parseOutcome) c

/-- The connection after some runs on an empty store. -/
def afterRuns (A : Arithmetic) (f : Faults) (runs : List (IngestRun chain)) : Conn Store :=
  runs.foldl (fun c run => (runIngest A f run c).2) ⟨.empty, none, 0⟩

/-- Every run completes. -/
def AllComplete (A : Arithmetic) (f : Faults) (runs : List (IngestRun chain)) : Prop :=
  ∀ pre run post, runs = pre ++ run :: post → Completes A f run (afterRuns A f pre)

/-- The slots that some runs ingest. -/
def ingestedBy (runs : List (IngestRun chain)) : Set UInt64 := {slot | ∃ run ∈ runs, slot ∈ run.ingested}

/-! ## The condition -/

/-- The candle pass of the run reads the slot. -/
def IngestRun.Reads (run : IngestRun chain) (slot : UInt64) : Prop :=
  between run.startSlot run.toSlot slot.toInt64 = true

/-- A run that loses no trade, after runs that ingested `before`: no bucket of a mint has trades both of a slot that
the candle pass reads and of one that it does not read; and the pass reads every slot that the run adds with a trade. -/
structure Clean (A : Arithmetic) (before : Set UInt64) (run : IngestRun chain) : Prop where
  buckets : ∀ slot ∈ before ∪ run.ingested, ∀ slot' ∈ before ∪ run.ingested, run.Reads slot → ¬run.Reads slot' →
    ∀ t ∈ slotTrades A chain slot, ∀ t' ∈ slotTrades A chain slot', tradeKey 300 t ≠ tradeKey 300 t'
  added : ∀ slot ∈ run.ingested, slot ∉ before → ¬run.Reads slot → slotTrades A chain slot = 0

/-! ## One run -/

/-- Trades in the same one-minute bucket are in the same five-minute bucket. -/
theorem tradeKey_300 {intervalSec : Int32} (hi : intervalSec ∈ candleIntervals) {t t' : InferredTrade}
    (h : tradeKey intervalSec.toInt t = tradeKey intervalSec.toInt t') : tradeKey 300 t = tradeKey 300 t' := by
  rw [candleIntervals, List.mem_cons, List.mem_singleton] at hi
  rcases hi with rfl | rfl
  · obtain ⟨hm, hb⟩ := Prod.mk.inj h
    exact Prod.ext hm (bucketStart_300 hb)
  · exact h

/-- The trades that the candle pass of the run reads. -/
def IngestRun.readTrades (A : Arithmetic) (run : IngestRun chain) (st : Store) : Multiset InferredTrade :=
  storedTrades A (st.tokenBalanceChanges.rows.filter fun r => between run.startSlot run.toSlot r.slot)

/-- Clean, in terms of the trades that the pass of the run reads, of the other ones and of the added ones. -/
theorem clean_iff {run : IngestRun chain} {before : Set UInt64} {reads others added : Multiset InferredTrade}
    (hreads : ∀ t, t ∈ reads ↔ ∃ slot ∈ before ∪ run.ingested, run.Reads slot ∧ t ∈ slotTrades A chain slot)
    (hothers : ∀ t, t ∈ others ↔ ∃ slot ∈ before ∪ run.ingested, ¬run.Reads slot ∧ t ∈ slotTrades A chain slot)
    (hadded : ∀ t, t ∈ added ↔ ∃ slot ∈ before ∪ run.ingested, slot ∉ before ∧ t ∈ slotTrades A chain slot) :
    Clean A before run ↔ ∀ intervalSec ∈ candleIntervals,
      (∀ t ∈ reads, ∀ t' ∈ others, tradeKey intervalSec.toInt t ≠ tradeKey intervalSec.toInt t') ∧
      ∀ t' ∈ added, ∃ t ∈ reads, tradeKey intervalSec.toInt t = tradeKey intervalSec.toInt t' := by
  simp only [hreads, hothers, hadded]
  constructor
  · intro hclean intervalSec hi
    constructor
    · rintro t ⟨slot, hs, hr, ht⟩ t' ⟨slot', hs', hr', ht'⟩ hkey
      exact hclean.buckets slot hs slot' hs' hr hr' t ht t' ht' (tradeKey_300 hi hkey)
    · rintro t ⟨slot, hs, hb, ht⟩
      by_cases hr : run.Reads slot
      · exact ⟨t, ⟨slot, hs, hr, ht⟩, rfl⟩
      · rw [hclean.added slot (hs.resolve_left hb) hb hr] at ht
        exact absurd ht (Multiset.notMem_zero t)
  · intro hall
    have h300 : (300 : Int32).toInt = 300 := by decide
    obtain ⟨hdisj, hnew⟩ := hall 300 (by decide)
    rw [h300] at hdisj hnew
    refine ⟨fun slot hs slot' hs' hr hr' t ht t' ht' => hdisj t ⟨slot, hs, hr, ht⟩ t' ⟨slot', hs', hr', ht'⟩,
      fun slot hs hb hr => Multiset.eq_zero_of_forall_notMem fun t ht => ?_⟩
    obtain ⟨t₀, ht₀, hkey⟩ := hnew t ⟨slot, Or.inr hs, hb, ht⟩
    exact hdisj t₀ ht₀ t ⟨slot, Or.inr hs, hr, ht⟩ hkey

/-- The trades of a run: the stored trades are those before the run and the added ones, and also those that the pass
reads and the others. The run is clean exactly when no other trade shares a bucket with one that is read, and each added
trade shares one with a trade that is read. -/
theorem exists_split {run : IngestRun chain} {before : Set UInt64} {st st' : Store}
    (h : StoredSlots chain before st) (h' : StoredSlots chain (before ∪ run.ingested) st') :
    ∃ added others : Multiset InferredTrade,
      storedTrades A st'.tokenBalanceChanges.rows = storedTrades A st.tokenBalanceChanges.rows + added ∧
      storedTrades A st'.tokenBalanceChanges.rows = run.readTrades A st' + others ∧
      (Clean A before run ↔ ∀ intervalSec ∈ candleIntervals,
        (∀ t ∈ run.readTrades A st', ∀ t' ∈ others, tradeKey intervalSec.toInt t ≠ tradeKey intervalSec.toInt t') ∧
        ∀ t' ∈ added, ∃ t ∈ run.readTrades A st', tradeKey intervalSec.toInt t = tradeKey intervalSec.toInt t') := by
  classical
  let reads (slot : Int64) : Bool := between run.startSlot run.toSlot slot
  let known (slot : Int64) : Bool := decide (slot.toUInt64 ∈ before)
  let trades (p : Int64 → Bool) := storedTrades A (st'.tokenBalanceChanges.rows.filter fun r => p r.slot)
  have hknown (slot : UInt64) : known slot.toInt64 = true ↔ slot ∈ before := by
    simp only [known, UInt64.toUInt64_toInt64, decide_eq_true_eq]
  have hold : storedTrades A st.tokenBalanceChanges.rows = trades known :=
    (storedTrades_perm h.coherent (h.filter_perm h' hknown)).symm
  have hin (t : InferredTrade) : t ∈ run.readTrades A st' ↔
      ∃ slot ∈ before ∪ run.ingested, run.Reads slot ∧ t ∈ slotTrades A chain slot := h'.mem_trades (p := reads)
  have hout (t : InferredTrade) : t ∈ trades (fun slot => !reads slot) ↔
      ∃ slot ∈ before ∪ run.ingested, ¬run.Reads slot ∧ t ∈ slotTrades A chain slot := by
    refine (h'.mem_trades (p := fun slot => !reads slot)).trans (exists_congr fun slot => and_congr_right fun _ => ?_)
    rw [Bool.not_eq_true', Bool.eq_false_iff]
    rfl
  have hadded (t : InferredTrade) : t ∈ trades (fun slot => !known slot) ↔
      ∃ slot ∈ before ∪ run.ingested, slot ∉ before ∧ t ∈ slotTrades A chain slot := by
    refine (h'.mem_trades (p := fun slot => !known slot)).trans (exists_congr fun slot => and_congr_right fun _ => ?_)
    rw [Bool.not_eq_true', Bool.eq_false_iff, ne_eq, hknown]
  refine ⟨trades fun slot => !known slot, trades fun slot => !reads slot, ?_, storedTrades_split h'.coherent reads,
    clean_iff hin hout hadded⟩
  rw [hold]
  exact storedTrades_split h'.coherent known

/-- One run: a run that completes stores its slots, and upserts the candles of the trades that its pass reads. -/
theorem runIngest_spec {f : Faults} {run : IngestRun chain} {c : Conn Store} {before : Set UInt64}
    (hidle : c.txn = none) (hstored : StoredSlots chain before c.store) (hdone : Completes A f run c) :
    (runIngest A f run c).2.txn = none ∧ StoredSlots chain (before ∪ run.ingested) (runIngest A f run c).2.store ∧
    ∃ trades : List InferredTrade, (trades : Multiset InferredTrade) = run.readTrades A (runIngest A f run c).2.store ∧
      (runIngest A f run c).2.store.candles = c.store.candles.upsertAll (candleRows A run.ord trades) := by
  obtain ⟨hok, hflush⟩ := hdone
  rcases hstage : storeStage f run.batchSize (run.outcomes.map parseOutcome) c with ⟨e | counts, s⟩
  · simp only [runIngest, hstage] at hok
    cases hok
  obtain ⟨hsidle, hscandles, hsstored⟩ := storeStage_stored hidle hstored run.data hflush hstage
  rcases hpass : buildAndStoreCandles A f run.ord run.startSlot run.toSlot s.conn with ⟨e | ok, c'⟩
  · simp only [runIngest, hstage, hpass] at hok
    cases hok
  have hrun : runIngest A f run c = (.ok (), c') := by
    simp only [runIngest, hstage, hpass]
  obtain ⟨hidle', trades, htrades, hstore⟩ := buildAndStoreCandles_spec hsidle hsstored.readable hsstored.coherent hpass
  have hrows : c'.store.tokenBalanceChanges = s.conn.store.tokenBalanceChanges := by rw [hstore]
  rw [hrun]
  refine ⟨hidle', hsstored.congr (by rw [hstore]) hrows, trades, ?_, ?_⟩
  · rw [htrades, IngestRun.readTrades, hrows]
  · rw [hstore, ← hscandles]

/-- A clean run keeps candles up to date. -/
theorem runIngest_upToDate {f : Faults} {run : IngestRun chain} {c : Conn Store} {before : Set UInt64}
    (hidle : c.txn = none) (hstored : StoredSlots chain before c.store) (hdone : Completes A f run c)
    (hclean : Clean A before run) (h : UpToDate A c.store) : UpToDate A (runIngest A f run c).2.store := by
  obtain ⟨_, hstored', trades, htrades, hcandles⟩ := runIngest_spec hidle hstored hdone
  obtain ⟨added, others, hadded, hothers, hsplit⟩ := exists_split hstored hstored'
  have hrefreshed := refreshed_upsertAll (A := A) run.ord trades c.store.candles
  rw [htrades, ← hcandles] at hrefreshed
  rw [UpToDate, hothers]
  exact h.of_part hrefreshed (hadded.symm.trans hothers) (hsplit.1 hclean)

/-- In exact arithmetic, candles that agreed with the rows before a run agree with them after it exactly when the run is
clean. -/
theorem runIngest_agree {f : Faults} {run : IngestRun chain} {c : Conn Store} {before : Set UInt64}
    (hidle : c.txn = none) (hstored : StoredSlots chain before c.store) (hdone : Completes .exact f run c)
    (ord : CandleOrders) (hagree : CandlesAgree .exact ord c.store) :
    CandlesAgree .exact ord (runIngest .exact f run c).2.store ↔ Clean .exact before run := by
  obtain ⟨_, hstored', trades, htrades, hcandles⟩ := runIngest_spec hidle hstored hdone
  obtain ⟨added, others, hadded, hothers, hsplit⟩ := exists_split (A := .exact) hstored hstored'
  have hpos : ∀ t ∈ run.readTrades .exact (runIngest .exact f run c).2.store + others, 0 < t.volumeSol := by
    rw [← hothers]
    exact fun t ht => volume_pos ht
  rw [candlesAgree_iff hstored.readable hstored.coherent] at hagree
  rw [candlesAgree_iff hstored'.readable hstored'.coherent, hsplit]
  apply forall₂_congr
  intro intervalSec hi
  have hview : storedView (runIngest .exact f run c).2.store intervalSec =
      storedView { c.store with
        candles := c.store.candles.upsertAll (candleRows .exact run.ord trades) } intervalSec := by
    funext k
    rw [storedView, storedView, hcandles]
  rw [hview, storedView_upsertAll run.ord trades c.store hi, hagree intervalSec hi, htrades, hothers]
  exact View.refresh_eq_of _ summary_notices (hadded.symm.trans hothers) hpos

/-! ## Sequences of runs -/

theorem afterRuns_concat (f : Faults) (pre : List (IngestRun chain)) (run : IngestRun chain) :
    afterRuns A f (pre ++ [run]) = (runIngest A f run (afterRuns A f pre)).2 := by
  rw [afterRuns, List.foldl_append]
  rfl

theorem ingestedBy_concat (pre : List (IngestRun chain)) (run : IngestRun chain) :
    ingestedBy (pre ++ [run]) = ingestedBy pre ∪ run.ingested := by
  ext slot
  simp [ingestedBy, or_and_right, exists_or]

theorem AllComplete.left {f : Faults} {pre post : List (IngestRun chain)} (h : AllComplete A f (pre ++ post)) :
    AllComplete A f pre := by
  intro pre' run post' hsplit
  exact h pre' run (post' ++ post) (by rw [hsplit, List.append_assoc, List.cons_append])

/-- Runs complete when each of them does after those before it. -/
theorem allComplete_concat {f : Faults} {pre : List (IngestRun chain)} {run : IngestRun chain} (h : AllComplete A f pre)
    (hrun : Completes A f run (afterRuns A f pre)) : AllComplete A f (pre ++ [run]) := by
  intro pre' run' post hsplit
  rcases List.eq_nil_or_concat post with rfl | ⟨post, run'', rfl⟩
  · obtain ⟨rfl, he⟩ := List.append_inj' hsplit rfl
    obtain rfl := List.singleton_inj.1 he
    exact hrun
  · rw [List.concat_eq_append, ← List.cons_append, ← List.append_assoc] at hsplit
    exact h pre' run' post (List.append_inj_left' hsplit rfl)

/-- The store after some runs holds the slots that they ingested. -/
theorem afterRuns_stored {f : Faults} {runs : List (IngestRun chain)} (h : AllComplete A f runs) :
    (afterRuns A f runs).txn = none ∧ StoredSlots chain (ingestedBy runs) (afterRuns A f runs).store := by
  induction runs using List.reverseRecOn with
  | nil =>
    have : ingestedBy ([] : List (IngestRun chain)) = ∅ :=
      Set.eq_empty_of_forall_notMem fun _ ⟨_, hr, _⟩ => List.not_mem_nil hr
    rw [this]
    exact ⟨rfl, storedSlots_empty chain⟩
  | append_singleton pre run ih =>
    obtain ⟨hidle, hstored⟩ := ih h.left
    obtain ⟨hidle', hstored', _⟩ := runIngest_spec hidle hstored (h pre run [] rfl)
    rw [afterRuns_concat, ingestedBy_concat]
    exact ⟨hidle', hstored'⟩

/-- The empty store agrees with its candles. -/
theorem candlesAgree_empty (ord : CandleOrders) : CandlesAgree .exact ord .empty := by
  have hstored := storedSlots_empty fun _ : UInt64 => (⟨0, none, []⟩ : DecodedBlock)
  rw [candlesAgree_iff hstored.readable hstored.coherent]
  intro intervalSec _
  rfl

theorem upToDate_empty : UpToDate A .empty :=
  ⟨fun _ _ _ _ hne => absurd rfl hne, fun _ _ _ _ => rfl⟩

/-- **Candles over several runs.** When all runs of a sequence complete: clean runs leave the candles up to date,
however the arithmetic rounds; and in exact arithmetic the candles agree with the rows after every run exactly when
each run is clean after those before it. -/
theorem candlesAgree_runs (A : Arithmetic) (f : Faults) (runs : List (IngestRun chain)) (h : AllComplete A f runs) :
    ((∀ pre run post, runs = pre ++ run :: post → Clean A (ingestedBy pre) run) →
      ∀ pre post, runs = pre ++ post → UpToDate A (afterRuns A f pre).store) ∧
    (A = .exact → ∀ ord : CandleOrders,
      (∀ pre post, runs = pre ++ post → CandlesAgree A ord (afterRuns A f pre).store) ↔
        ∀ pre run post, runs = pre ++ run :: post → Clean A (ingestedBy pre) run) := by
  have hstored {pre post : List (IngestRun chain)} {run : IngestRun chain} (hsplit : runs = pre ++ run :: post) :=
    afterRuns_stored (hsplit ▸ h : AllComplete A f (pre ++ run :: post)).left
  constructor
  · intro hclean pre
    induction pre using List.reverseRecOn with
    | nil => exact fun _ _ => upToDate_empty
    | append_singleton pre run ih =>
      intro post hsplit
      rw [List.append_assoc, List.singleton_append] at hsplit
      obtain ⟨hidle, hslots⟩ := hstored hsplit
      rw [afterRuns_concat]
      exact runIngest_upToDate hidle hslots (h pre run post hsplit) (hclean pre run post hsplit)
        (ih (run :: post) hsplit)
  · rintro rfl ord
    have hstep {pre post : List (IngestRun chain)} {run : IngestRun chain} (hsplit : runs = pre ++ run :: post)
        (hagree : CandlesAgree .exact ord (afterRuns .exact f pre).store) :
        CandlesAgree .exact ord (afterRuns .exact f (pre ++ [run])).store ↔ Clean .exact (ingestedBy pre) run := by
      obtain ⟨hidle, hslots⟩ := hstored hsplit
      rw [afterRuns_concat]
      exact runIngest_agree hidle hslots (h pre run post hsplit) ord hagree
    constructor
    · intro hagree pre run post hsplit
      refine (hstep hsplit (hagree pre (run :: post) hsplit)).1 (hagree (pre ++ [run]) post ?_)
      rw [hsplit, List.append_assoc, List.singleton_append]
    · intro hclean pre
      induction pre using List.reverseRecOn with
      | nil => exact fun _ _ => candlesAgree_empty ord
      | append_singleton pre run ih =>
        intro post hsplit
        rw [List.append_assoc, List.singleton_append] at hsplit
        exact (hstep hsplit (ih (run :: post) hsplit)).2 (hclean pre run post hsplit)

/-! ## One slot once more -/

/-- A block whose only transaction buys 100 tokens for `slot` SOL, at time 0. -/
def buyBlock (slot : UInt64) : DecodedBlock :=
  { slot, blockTime := some 0,
    transactions := [
      { signature := if slot = 1 then "sig1" else "sig2", slot, blockTime := some 0, programIds := [], locks := [],
        tokenDeltas := [⟨"mint", 0, 100, 0⟩, ⟨wsolMint, slot * 1000000000, 0, 9⟩], failed := false }] }

/-- Hash maps iterated as they are stored. -/
def storedOrder : CandleOrders := ⟨.stored, .stored, fun _ => .stored⟩

/-- A run over the slots 1 and 2. -/
def bothSlots : IngestRun buyBlock :=
  { startSlot := 1, count := 2, batchSize := 25, outcomes := [.ingested (buyBlock 1), .ingested (buyBlock 2)],
    ord := storedOrder
    slots := by decide
    data := by decide }

/-- A run over slot 2. -/
def secondSlot : IngestRun buyBlock :=
  { startSlot := 2, count := 1, batchSize := 25, outcomes := [.ingested (buyBlock 2)],
    ord := storedOrder
    slots := by decide
    data := by decide }

theorem bothSlots_completes : AllComplete .exact (fun _ => false) [bothSlots] := by
  have hnil : AllComplete .exact (fun _ => false) ([] : List (IngestRun buyBlock)) := fun pre run post h => by simp at h
  exact allComplete_concat hnil ⟨by decide +kernel, flushesSucceed_of_length_lt rfl (by decide)⟩

theorem secondSlot_completes : AllComplete .exact (fun _ => false) [bothSlots, secondSlot] :=
  allComplete_concat bothSlots_completes
    ⟨by decide +kernel, flushesSucceed_of_length_lt (afterRuns_stored bothSlots_completes).1 (by decide)⟩

/-- After the run over both slots the candles are up to date and agree with the rows. -/
theorem candlesAgree_runs_example : UpToDate .exact (afterRuns .exact (fun _ => false) [bothSlots]).store ∧
    CandlesAgree .exact storedOrder (afterRuns .exact (fun _ => false) [bothSlots]).store := by
  obtain ⟨hclean, hiff⟩ := candlesAgree_runs .exact (fun _ => false) [bothSlots] bothSlots_completes
  suffices hall : ∀ pre run post, [bothSlots] = pre ++ run :: post → Clean .exact (ingestedBy pre) run from
    ⟨hclean hall [bothSlots] [] rfl, (hiff rfl storedOrder).2 hall [bothSlots] [] rfl⟩
  intro pre run post hsplit
  obtain ⟨rfl, rfl, rfl⟩ : pre = [] ∧ run = bothSlots ∧ post = [] := by
    cases pre with
    | nil => exact ⟨rfl, (List.cons.inj hsplit).1.symm, (List.cons.inj hsplit).2.symm⟩
    | cons _ pre => simp at hsplit
  have hreads : ∀ slot ∈ bothSlots.ingested, bothSlots.Reads slot := by
    rintro slot ⟨d, hd, rfl⟩
    rcases List.mem_pair.1 hd with rfl | rfl
    · exact (rfl : between 1 2 1 = true)
    · exact (rfl : between 1 2 2 = true)
  refine ⟨fun slot _ slot' hs' _ hr' => ?_, fun slot hs _ hr => absurd (hreads slot hs) hr⟩
  rcases hs' with ⟨_, hrun, _⟩ | hs'
  · cases hrun
  · exact absurd (hreads slot' hs') hr'

/-- Slot 2, ingested once more after both slots: its candle pass rebuilds the shared bucket from slot 2 alone, and the
trade of slot 1 is lost from the stored volume. -/
theorem reingest_loses_trade : AllComplete .exact (fun _ => false) [bothSlots, secondSlot] ∧
    (queryOhlcv "mint" 60 (afterRuns .exact (fun _ => false) [bothSlots]).store).map (·.volume) = [3] ∧
    (queryOhlcv "mint" 60 (afterRuns .exact (fun _ => false) [bothSlots, secondSlot]).store).map (·.volume) = [2] ∧
    ∀ ord, ¬CandlesAgree .exact ord (afterRuns .exact (fun _ => false) [bothSlots, secondSlot]).store := by
  refine ⟨secondSlot_completes, by decide +kernel, by decide +kernel, fun ord h => ?_⟩
  have hstored := (afterRuns_stored secondSlot_completes).2
  have hany : CandlesAgree .exact storedOrder (afterRuns .exact (fun _ => false) [bothSlots, secondSlot]).store :=
    (candlesAgree_iff hstored.readable hstored.coherent).2 ((candlesAgree_iff hstored.readable hstored.coherent).1 h)
  obtain ⟨rows, hrows, hagree⟩ := hany
  rw [mapM_balanceChangeRow hstored.readable, Except.ok.injEq] at hrows
  subst hrows
  exact absurd (hagree 60 (by decide) "mint") (by decide +kernel)

end Tenso.Cli
