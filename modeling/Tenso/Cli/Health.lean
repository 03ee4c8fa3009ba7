import Tenso.Cli.Sessions
import Tenso.Ingest.Decode
import Tenso.Ohlcv.Buckets
import Tenso.Ohlcv.RollUp

/-!
# What holds at any time

However often the program runs and wherever it is stopped, a store that it has filled from decoded replies is healthy
(`sessions_healthy`): its tables refer to each other, a net change has one side, a candle has an interval of the
dashboard, starts at a multiple of it and has a price range and a volume, a candle of five minutes comes with one of a
minute within it, and a status has a note exactly if the slot failed.

So the statistics fit together at any time (`sessions_stats`), and the dashboard never offers five minutes without one
(`sessions_tokens`).
-/

namespace Tenso.Cli

open Tenso.Ingest (DecodedBlock DecodedTransaction FetchOutcome RpcEnvelope Json getBlock getBlockReply fetchOutcome)
open Storage Ohlcv

/-! ## Decoded replies -/

/-- The answers are those that decoding gives on the replies of a server. -/
def Decoded (fromValue : Json → Except String RpcEnvelope) (S : Setting) : Prop :=
  ∃ replies : UInt64 → ℕ → Ingest.Reply, getBlock S.answers = getBlockReply fromValue replies

section Decoded

variable {fromValue : Json → Except String RpcEnvelope}

theorem buildTokenDeltas_nodup (pre post : List Ingest.RawTokenBalance) :
    ((Ingest.buildTokenDeltas pre post).map (·.mint)).Nodup := by
  rw [Ingest.buildTokenDeltas, Ingest.coalesceTokenDeltas, List.map_map]
  exact Netting.netBy_keys_nodup _

/-- Decoding nets the deltas of each mint. -/
theorem decodeBlock_oneDelta (slot : UInt64) (raw : Ingest.RawBlock) : OneDeltaAMint (Ingest.decodeBlock slot raw) := by
  intro t ht
  obtain ⟨rawTx, _, hdecode⟩ := List.mem_filterMap.1 ht
  cases hdecode
  cases rawTx.meta with
  | none => exact List.nodup_nil
  | some m => exact buildTokenDeltas_nodup m.preTokenBalances m.postTokenBalances

theorem decodeGetBlockJson_oneDelta {slot : UInt64} {value : Json} {block : DecodedBlock}
    (h : Ingest.decodeGetBlockJson fromValue slot value = .ok block) : OneDeltaAMint block := by
  cases herr : value.get "error" with
  | some err =>
    rw [Ingest.decode_error herr] at h
    cases h
  | none =>
    unfold Ingest.decodeGetBlockJson at h
    simp only [herr] at h
    rcases hvalue : fromValue value with e | ⟨_ | raw⟩
    · rw [hvalue] at h
      cases h
    · rw [hvalue] at h
      cases h
    · rw [hvalue] at h
      cases h
      exact decodeBlock_oneDelta slot raw

/-- An ingested block is an answer to some attempt. -/
theorem exists_attempt {rpc : Ingest.Rpc} {slot : UInt64} {d : DecodedBlock} (h : fetchOutcome rpc slot = .ingested d) :
    ∃ attempt, rpc slot attempt = .ok d := by
  obtain ⟨attempt, hk⟩ := Ingest.exists_retryLoop_eq (rpc slot) Ingest.isTransient Ingest.maxRetries 0
  rw [fetchOutcome, Ingest.retryWithBackoff, hk] at h
  refine ⟨attempt, ?_⟩
  rcases hanswer : rpc slot attempt with e | block
  · rw [hanswer] at h
    cases e <;> cases h
  · rw [hanswer] at h
    cases h
    rfl

theorem Decoded.oneDelta {S : Setting} (h : Decoded fromValue S) :
    ∀ d ∈ ingestedBlocks (S.args.outcomes S.answers), OneDeltaAMint d := by
  intro d hd
  obtain ⟨replies, hreplies⟩ := h
  obtain ⟨o, ho, hod⟩ := List.mem_filterMap.1 hd
  obtain ⟨slot, _, rfl⟩ := List.mem_map.1 ho
  have houtcome : fetchOutcome (getBlock S.answers) slot = .ingested d := by
    split at hod
    · rename_i block hblock
      rw [hblock, Option.some.inj hod]
    · cases hod
  obtain ⟨attempt, hanswer⟩ := exists_attempt houtcome
  rw [hreplies, getBlockReply] at hanswer
  split at hanswer
  · cases hanswer
  · exact decodeGetBlockJson_oneDelta hanswer

end Decoded

/-! ## Candles -/

/-- The open and the close of a candle are in its price range. -/
def InPriceRange (r : CandlesRow) : Prop :=
  r.low ≤ r.open ∧ r.open ≤ r.high ∧ r.low ≤ r.close ∧ r.close ≤ r.high

/-- A sane candle: of an interval of the dashboard and another mint than wSOL; it starts at a multiple of the interval
that fits an `i64`, its opening and closing price are in its price range, and it has at least the volume of one trade.
-/
structure SaneCandle (A : Arithmetic) (r : CandlesRow) : Prop where
  interval : r.intervalSec ∈ candleIntervals
  mint : r.mint ≠ wsolMint
  start : r.intervalSec.toInt ∣ r.bucketStart ∧ -2 ^ 63 ≤ r.bucketStart ∧ r.bucketStart < 2 ^ 63
  low : 0 < r.low
  inRange : InPriceRange r
  volume : dustThresholdSol A ≤ r.volume

/-- Every candle of five minutes has one of a minute within it. -/
def Nested (st : Store) : Prop :=
  ∀ r ∈ st.candles.rows, r.intervalSec = 300 →
    ∃ r' ∈ st.candles.rows, ∃ start, r'.key = (r.mint, 60, start) ∧ bucketStart start 300 = r.bucketStart

/-- A trade of a mint that is not wSOL, at a positive price; its volume is a float, and not dust. -/
structure SaneTrade (A : Arithmetic) (t : InferredTrade) : Prop where
  mint : t.mint ≠ wsolMint
  price : 0 < t.priceInSol
  dust : dustThresholdSol A ≤ t.volumeSol
  rounded : A.round t.volumeSol = t.volumeSol

section Candles

variable {A : Arithmetic} {ord : CandleOrders} {trades : List InferredTrade}

theorem inferTrades_spec {tx : TxSnapshot} {t : InferredTrade} (h : t ∈ inferTrades A tx) : SaneTrade A t := by
  unfold inferTrades at h
  split at h
  · cases h
  split at h
  · rename_i w _ hw
    obtain ⟨d, _, ht⟩ := List.mem_filterMap.1 h
    unfold tradeOf at ht
    split at ht
    · cases ht
    split at ht
    · cases ht
    split at ht
    · cases ht
    split at ht
    · cases ht
    · rename_i hmint hd _ hdust
      cases ht
      refine ⟨hmint, A.pos (div_pos (abs_pos.2 hw) (abs_pos.2 hd)), not_lt.1 hdust, ?_⟩
      show A.round |w.deltaUi A| = |w.deltaUi A|
      rw [← A.abs_round, TokenDelta.deltaUi, A.idem]
  · cases h

theorem tradesOf_spec {ordS : HashMap.IterOrder} {rows : List BalanceChangeRow} :
    ∀ t ∈ tradesOf A ordS rows, SaneTrade A t := by
  intro t ht
  obtain ⟨tx, _, ht⟩ := List.mem_flatMap.1 ht
  exact inferTrades_spec ht

/-- The trades of a row's candle. -/
theorem candleRows_trades {r : CandlesRow} (h : r ∈ candleRows A ord trades) : ∃ bt : List InferredTrade, bt ≠ [] ∧
    r = candlesRow r.mint r.intervalSec (candleOf A r.bucketStart bt) ∧
    ∀ t ∈ bt, t ∈ trades ∧ t.mint = r.mint ∧ bucketStart t.blockTime r.intervalSec.toInt = r.bucketStart := by
  obtain ⟨_, ⟨t, ht, hbucket⟩, heq⟩ := candleRows_spec h
  refine ⟨_, List.ne_nil_of_mem (mem_bucketTrades.2 ⟨ht, hbucket⟩), heq, fun s hs => ?_⟩
  obtain ⟨hs, hbucket⟩ := mem_bucketTrades.1 hs
  obtain ⟨hs, hmint⟩ := List.mem_filter.1 hs
  exact ⟨hs, of_decide_eq_true hmint, hbucket⟩

theorem candleRows_inRange {r : CandlesRow} (h : r ∈ candleRows A ord trades) : InPriceRange r := by
  obtain ⟨bt, hne, heq, _⟩ := candleRows_trades h
  rw [heq]
  exact candleOf_inRange (A := A) (k := r.bucketStart) hne

theorem candleRows_sane (htrades : ∀ t ∈ trades, SaneTrade A t ∧ -2 ^ 63 + 8 ≤ t.blockTime ∧ t.blockTime < 2 ^ 63)
    {r : CandlesRow} (h : r ∈ candleRows A ord trades) : SaneCandle A r := by
  obtain ⟨hi, _⟩ := candleRows_spec h
  obtain ⟨bt, hne, heq, hbt⟩ := candleRows_trades h
  obtain ⟨t, ht⟩ := List.exists_mem_of_ne_nil bt hne
  obtain ⟨ht', hmint, hbucket⟩ := hbt t ht
  obtain ⟨hsane, htime⟩ := htrades t ht'
  have hsec : r.intervalSec.toInt = 60 ∨ r.intervalSec.toInt = 300 := by
    rcases List.mem_pair.1 hi with h60 | h300
    · exact Or.inl (by rw [h60]; rfl)
    · exact Or.inr (by rw [h300]; rfl)
  refine ⟨hi, hmint ▸ hsane.mint, ?_, ?_, candleRows_inRange h, ?_⟩
  · rw [← hbucket]
    exact ⟨dvd_bucketStart _ _, bucketStart_fits hsec htime⟩
  · obtain ⟨s, hs, hlow⟩ := (candleOf_range (A := A) (k := r.bucketStart) hne).2.1
    have hprice : r.low = s.priceInSol := by
      rw [heq]
      exact hlow
    rw [hprice]
    exact (htrades s (hbt s hs).1).1.price
  · have hvolumes : ∀ x ∈ bt.map (·.volumeSol), 0 ≤ x ∧ A.round x = x := by
      intro x hx
      obtain ⟨s, hs, rfl⟩ := List.mem_map.1 hx
      have hsane := (htrades s (hbt s hs).1).1
      exact ⟨(A.pos (by norm_num)).le.trans hsane.dust, hsane.rounded⟩
    have hvolume : r.volume = A.sum (bt.map (·.volumeSol)) := by
      rw [heq]
      rfl
    rw [hvolume]
    exact hsane.dust.trans (A.le_sum hvolumes (List.mem_map_of_mem ht))

/-- The rows of a candle pass: those of a minute, then those of five. -/
theorem candleRows_split (A : Arithmetic) (ord : CandleOrders) (trades : List InferredTrade) : ∃ fine coarse,
    candleRows A ord trades = fine ++ coarse ∧ (∀ r ∈ fine, r.intervalSec = 60) ∧
    ∀ r ∈ coarse, ∃ r' ∈ fine, ∃ start, r'.key = (r.mint, 60, start) ∧ bucketStart start 300 = r.bucketStart := by
  let rowsOf (intervalSec : Int32) : List CandlesRow :=
    let byMint := buildCandles A (ord.candles intervalSec) trades intervalSec.toInt
    ((ord.candles intervalSec).iter byMint.entries).flatMap fun e => e.2.map (candlesRow e.1 intervalSec)
  have hinterval {intervalSec : Int32} {r : CandlesRow} (hr : r ∈ rowsOf intervalSec) :
      r.intervalSec = intervalSec := by
    obtain ⟨e, _, hr⟩ := List.mem_flatMap.1 hr
    obtain ⟨c, _, rfl⟩ := List.mem_map.1 hr
    rfl
  have hsplit : candleRows A ord trades = rowsOf 60 ++ rowsOf 300 := by
    simp only [candleRows, candleIntervals, List.flatMap_cons, List.flatMap_nil, List.append_nil]
    rfl
  refine ⟨rowsOf 60, rowsOf 300, hsplit, fun r hr => hinterval hr, fun r hr => ?_⟩
  -- a trade of the coarse candle is one of a fine candle
  have hmem : r ∈ candleRows A ord trades := by
    rw [hsplit]
    exact List.mem_append_right _ hr
  obtain ⟨_, ⟨t, ht, hbucket⟩, _⟩ := candleRows_spec hmem
  rw [hinterval hr] at hbucket
  obtain ⟨fine, hfine, hkey⟩ := @exists_candleRow A ord trades 60 (by decide) _ _ ⟨t, ht, rfl⟩
  have hne : (60 : Int32) ≠ 300 := by decide
  have h60 : fine.intervalSec = 60 := congrArg (·.2.1) hkey
  rw [hsplit] at hfine
  refine ⟨fine, (List.mem_append.1 hfine).resolve_right fun h => hne (h60.symm.trans (hinterval h)), _, hkey, ?_⟩
  rw [← hbucket]
  exact bucketStart_nested (a := 60) (k := 5) (by decide) (by decide) t.blockTime

/-- The first rows of a candle pass keep candles nested: those of a minute come first. -/
theorem Nested.upsertAll {st : Store} (h : Nested st) (k : ℕ) :
    Nested { st with candles := st.candles.upsertAll ((candleRows A ord trades).take k) } := by
  obtain ⟨fine, coarse, hsplit, hfine, hcoarse⟩ := candleRows_split A ord trades
  rw [hsplit, List.take_append]
  have hkeeps {key : String × Int32 × ℤ} (hkey : (∃ x ∈ st.candles.rows, x.key = key) ∨
      ∃ x ∈ fine.take k, x.key = key) :
      ∃ x ∈ (st.candles.upsertAll (fine.take k ++ coarse.take (k - fine.length))).rows, x.key = key :=
    Table.exists_upsertAll (hkey.imp_right fun ⟨x, hx, h⟩ => ⟨x, List.mem_append_left _ hx, h⟩)
  intro r hr h300
  rcases Table.mem_or_mem_of_upsertAll hr with hr | hr
  · rcases List.mem_append.1 hr with hr | hr
    · have h60 := hfine r (List.mem_of_mem_take hr)
      rw [h300] at h60
      exact absurd h60 (by decide)
    · obtain ⟨r', hr', start, hkey, hstart⟩ := hcoarse r (List.mem_of_mem_take hr)
      have hall : fine.take k = fine := by
        refine List.take_of_length_le (Nat.le_of_not_lt fun hlt => ?_)
        rw [Nat.sub_eq_zero_of_le hlt.le, List.take_zero] at hr
        cases hr
      obtain ⟨x, hx, hxkey⟩ := hkeeps (Or.inr ⟨r', hall.symm ▸ hr', rfl⟩)
      exact ⟨x, hx, start, hxkey.trans hkey, hstart⟩
  · obtain ⟨r', hr', start, hkey, hstart⟩ := h r hr h300
    obtain ⟨x, hx, hxkey⟩ := hkeeps (Or.inl ⟨r', hr', rfl⟩)
    exact ⟨x, hx, start, hxkey.trans hkey, hstart⟩

end Candles

/-! ## Health -/

/-- The status of a slot has a note exactly if the slot failed. -/
def SaneStatus (r : IngestionStatusRow) : Prop :=
  ((r.status = "ingested" ∨ r.status = "skipped") ∧ r.note = none) ∨ (r.status = "failed" ∧ r.note ≠ none)

/-- A healthy store. -/
structure Healthy (A : Arithmetic) (st : Store) : Prop where
  integrity : Integrity st
  oneSided : OneSidedRows st
  candles : ∀ r ∈ st.candles.rows, SaneCandle A r
  nested : Nested st
  statuses : ∀ r ∈ st.ingestionStatus.rows, SaneStatus r

theorem keptByCalls_nested (S : Setting) : KeptByCalls S Nested where
  flush _ hflush h := by
    rw [Nested, hflush.candles]
    exact h
  status _ h := h
  candles k _ h := h.upsertAll k

/-- What the calls keep, and what all rows of a candle pass have. -/
theorem keptByCalls_candleRows {S : Setting} {J : Store → Prop} {Q : CandlesRow → Prop} (hJ : KeptByCalls S J)
    (hQ : ∀ {rows : List BalanceChangeRow} {st : Store}, J st →
      queryBalanceChangesForRange S.orders.rows S.args.startSlot S.args.toSlot st = .ok rows →
        ∀ r ∈ candleRows S.arith S.orders (tradesOf S.arith S.orders.snapshots rows), Q r) :
    KeptByCalls S fun st => J st ∧ ∀ r ∈ st.candles.rows, Q r where
  flush hown hflush h := ⟨hJ.flush hown hflush h.1, hflush.candles ▸ h.2⟩
  status ho h := ⟨hJ.status ho h.1, h.2⟩
  candles k hrows h := by
    refine ⟨hJ.candles k hrows h.1, fun r hr => ?_⟩
    rcases Table.mem_or_mem_of_upsertAll hr with hr | hr
    · exact hQ h.1 hrows r (List.mem_of_mem_take hr)
    · exact h.2 r hr

/-- Candles are in their price range, in any arithmetic. -/
theorem keptByCalls_inRange (S : Setting) :
    KeptByCalls S fun st => Nested st ∧ ∀ r ∈ st.candles.rows, InPriceRange r :=
  keptByCalls_candleRows (keptByCalls_nested S) fun _ _ _ => candleRows_inRange

/-- The times of the blocks are an `i64`, and so are the starts of their buckets. -/
def TimeFits (d : DecodedBlock) : Prop := ∀ t, d.blockTime = some t → -2 ^ 63 + 8 ≤ t ∧ t < 2 ^ 63

theorem keptByCalls_candles {S : Setting} (htimes : ∀ d ∈ ingestedBlocks (S.args.outcomes S.answers), TimeFits d) :
    KeptByCalls S fun st => (∀ slot, OneBlock TimeFits st slot) ∧ ∀ r ∈ st.candles.rows, SaneCandle S.arith r := by
  refine keptByCalls_candleRows (keptByCalls_oneBlock htimes) fun hone hrows _ => candleRows_sane fun t ht => ?_
  refine ⟨tradesOf_spec t ht, ?_⟩
  -- the time of a trade is that of a stored row, and so of a block
  have hstored : t ∈ storedTrades S.arith _ := tradesOf_query hone hrows ▸ Multiset.mem_coe.2 ht
  obtain ⟨r, hr, htrade⟩ := mem_storedTrades.1 hstored
  obtain ⟨d, hd, hrange, _, _, hx⟩ := OneBlock.of_token hone (List.mem_of_mem_filter hr)
  refine hd t.blockTime ?_
  rw [← rowTrade_blockTime htrade, ((mem_newTokenBalanceChanges_iff hrange).1 hx).blockTime]
  rfl

theorem keptByCalls_statuses (S : Setting) : KeptByCalls S fun st => ∀ r ∈ st.ingestionStatus.rows, SaneStatus r where
  flush _ hflush h := by
    rw [hflush.ingestionStatus]
    exact h
  status {o st} _ h r hr := by
    rcases Table.mem_upsert.1 hr with rfl | ⟨hr, _⟩
    · cases o with
      | ingested d => exact Or.inl ⟨Or.inl rfl, rfl⟩
      | skipped slot => exact Or.inl ⟨Or.inr rfl, rfl⟩
      | failed slot error => exact Or.inr ⟨rfl, nofun⟩
    · exact h r hr
  candles _ _ h := h

/-- The answers are decoded replies, with block times that fit, and the floats are those of `A`. -/
structure Setting.Regular (A : Arithmetic) (fromValue : Json → Except String RpcEnvelope) (S : Setting) : Prop where
  decoded : Decoded fromValue S
  arith : S.arith = A
  times : ∀ d ∈ ingestedBlocks (S.args.outcomes S.answers), TimeFits d

/-- **A store is healthy at any time**: after any number of runs on decoded replies, each of them stopped at any
moment, if the block times are such that the starts of their buckets fit an `i64`. -/
theorem sessions_healthy (A : Arithmetic) (fromValue : Json → Except String RpcEnvelope) (st : Store)
    (h : Transition.Reachable (sessions (Setting.Regular A fromValue) .empty) st) : Healthy A st := by
  obtain ⟨_, hdeltas⟩ :=
    sessions_keep (fun S hS => keptByCalls_oneBlock hS.decoded.oneDelta) written_empty (fun _ => Or.inl rfl) h
  obtain ⟨_, hnested⟩ := sessions_keep (fun S _ => keptByCalls_nested S) written_empty nofun h
  obtain ⟨_, _, hcandles⟩ := sessions_keep (fun S hS => hS.arith ▸ keptByCalls_candles hS.times) written_empty
    ⟨fun _ => Or.inl rfl, nofun⟩ h
  obtain ⟨_, hstatuses⟩ := sessions_keep (fun S _ => keptByCalls_statuses S) written_empty nofun h
  exact ⟨OneBlock.integrity hdeltas, OneBlock.oneSidedRows hdeltas fun d hd => Or.inr hd, hcandles, hnested, hstatuses⟩

/-- A block that decodes to a purchase of tokens. -/
def buyRaw : Ingest.RawBlock :=
  { blockTime := some 0
    transactions :=
      [⟨⟨⟨[], ⟨0, 0, 0⟩, []⟩, ["sig2"]⟩, some ⟨none, [⟨1, "mint", "0", 0⟩, ⟨2, wsolMint, "5000000000", 9⟩],
      [⟨1, "mint", "100", 0⟩, ⟨2, wsolMint, "0", 9⟩], none⟩⟩] }

/-- The server has this block in every slot. -/
def decodedSetting : Setting := oneSlot (fun slot => (Ingest.decodeBlock slot buyRaw).transactions) 1

theorem decoded_decodedSetting : Decoded (fun _ => .ok ⟨some buyRaw⟩) decodedSetting := ⟨fun _ _ => .json .null, rfl⟩

theorem regular_decodedSetting : decodedSetting.Regular .exact fun _ => .ok ⟨some buyRaw⟩ where
  decoded := decoded_decodedSetting
  arith := rfl
  times := by
    have hblocks : ingestedBlocks (decodedSetting.args.outcomes decodedSetting.answers) =
        [Ingest.decodeBlock 5 buyRaw] := by decide +kernel
    rw [hblocks]
    intro d hd t ht
    obtain rfl := List.mem_singleton.1 hd
    obtain rfl : 0 = t := Option.some.inj ht
    norm_num

theorem exists_session :
    ∃ st, Transition.Reachable (sessions (Setting.Regular .exact fun _ => .ok ⟨some buyRaw⟩) .empty) st ∧
    st.candles.rows.length = 2 ∧ queryTokens .stored st = [⟨"mint", 1, 1⟩] := by
  obtain ⟨s, _, hs, _, _, hconn⟩ :=
    @exists_one (fun slot => (Ingest.decodeBlock slot buyRaw).transactions) (by decide +kernel) _
    candles_boughtConn
  have hserved := @served_of_ingest decodedSetting plainExternals _ _ written_empty hs
  refine ⟨_, .step (.init rfl) ⟨_, _, _, regular_decodedSetting, hserved, rfl⟩, ?_⟩
  show s.conn.store.candles.rows.length = 2 ∧ queryTokens .stored s.conn.store = _
  rw [hconn]
  decide +kernel

/-- A purchase is ingested, with a candle of each interval. -/
theorem sessions_healthy_example : ∃ st, st.candles.rows.length = 2 ∧ Healthy .exact st := by
  obtain ⟨st, h, hlength, _⟩ := exists_session
  exact ⟨st, hlength, sessions_healthy _ _ st h⟩

/-! ## Counts -/

/-- The counts fit together. -/
structure ConsistentStats (s : DbStats) : Prop where
  failed : s.failedTransactions + s.distinctTxWithBalances ≤ s.transactions
  wsol : s.txWithWsol ≤ s.distinctTxWithBalances
  rows : s.distinctTxWithBalances ≤ s.tokenChangeRows ∧ s.distinctMints ≤ s.tokenChangeRows ∧
    s.tokenChangeRows ≤ s.distinctTxWithBalances * s.distinctMints
  blocks : s.blocks = 0 → s.transactions = 0
  candles : s.candles5m ≤ s.candles1m

section Counts

variable {st : Store}

/-- Distinct values out of a list are no more than its elements. -/
theorem dedup_length_le_of_subset {α : Type} [DecidableEq α] {xs ys : List α} (h : ∀ x ∈ xs, x ∈ ys) :
    xs.dedup.length ≤ ys.length :=
  (List.subperm_of_subset xs.nodup_dedup fun x hx => h x (List.mem_dedup.1 hx)).length_le

/-- Transactions with token rows have succeeded. -/
theorem Integrity.failed_le (h : Integrity st) : (queryDbStats st).failedTransactions +
    (queryDbStats st).distinctTxWithBalances ≤ (queryDbStats st).transactions := by
  have hsucceeded : (st.tokenBalanceChanges.rows.map (·.txSignature)).dedup.length ≤
      ((st.transactions.rows.filter (!·.failed)).map (·.signature)).length := by
    refine dedup_length_le_of_subset fun sig hsig => ?_
    obtain ⟨c, hc, rfl⟩ := List.mem_map.1 hsig
    obtain ⟨r, hr, hrs, _, hok⟩ := (h.tokenBalanceChanges c hc).1
    exact List.mem_map.2 ⟨r, List.mem_filter.2 ⟨hr, by rw [hok]; rfl⟩, hrs⟩
  rw [List.length_map, ← List.countP_eq_length_filter] at hsucceeded
  have hall := st.transactions.rows.length_eq_countP_add_countP (p := (·.failed))
  simp only [queryDbStats, countDistinct]
  simp only [Bool.not_eq_true] at hall
  have hnot : (st.transactions.rows.countP fun r => decide (r.failed = false)) =
      st.transactions.rows.countP (!·.failed) := List.countP_congr fun r _ => by cases r.failed <;> simp
  omega

/-- The key of a token row is its transaction and its mint. -/
theorem tokenRows_le (st : Store) : (queryDbStats st).tokenChangeRows ≤
    (queryDbStats st).distinctTxWithBalances * (queryDbStats st).distinctMints := by
  have hkeys : (st.tokenBalanceChanges.rows.map (·.key)).Nodup := st.tokenBalanceChanges.keyed
  simp only [queryDbStats, countDistinct]
  rw [← List.length_map (·.key), ← List.length_product]
  refine (List.subperm_of_subset hkeys fun key hkey => ?_).length_le
  obtain ⟨r, hr, rfl⟩ := List.mem_map.1 hkey
  exact List.mem_product.2 ⟨List.mem_dedup.2 (List.mem_map_of_mem hr), List.mem_dedup.2 (List.mem_map_of_mem hr)⟩

/-- Nested candles of some mints: those of five minutes are no more than those of one. -/
theorem Nested.countP_le (h : Nested st) (p : String → Bool) :
    st.candles.rows.countP (fun r => r.intervalSec = 300 ∧ p r.mint) ≤
      st.candles.rows.countP fun r => r.intervalSec = 60 ∧ p r.mint := by
  have hkeys : ((st.candles.rows.filter fun r => r.intervalSec = 300 ∧ p r.mint).map CandlesRow.key).Nodup :=
    st.candles.keyed.sublist (List.filter_sublist.map _)
  let coarseKey (r : CandlesRow) : String × Int32 × ℤ := (r.mint, 300, bucketStart r.bucketStart 300)
  suffices hsub : ∀ key ∈ (st.candles.rows.filter fun r => r.intervalSec = 300 ∧ p r.mint).map CandlesRow.key,
      key ∈ (st.candles.rows.filter fun r => r.intervalSec = 60 ∧ p r.mint).map coarseKey by
    simpa only [List.countP_eq_length_filter, List.length_map] using (List.subperm_of_subset hkeys hsub).length_le
  intro key hkey
  obtain ⟨r, hr, rfl⟩ := List.mem_map.1 hkey
  obtain ⟨hr, hp⟩ := List.mem_filter.1 hr
  obtain ⟨h300, hmint⟩ := of_decide_eq_true hp
  obtain ⟨r', hr', start, hkey', hstart⟩ := h r hr h300
  obtain ⟨hm, hi, rfl⟩ : r'.mint = r.mint ∧ r'.intervalSec = 60 ∧ r'.bucketStart = start := by
    simpa [CandlesRow.key] using hkey'
  refine List.mem_map.2 ⟨r', List.mem_filter.2 ⟨hr', decide_eq_true ⟨hi, hm ▸ hmint⟩⟩, ?_⟩
  simp only [coarseKey, CandlesRow.key, hm, hstart, h300]

theorem Nested.length_le (h : Nested st) (mint : String) :
    (queryOhlcv mint 300 st).length ≤ (queryOhlcv mint 60 st).length := by
  have hcount := h.countP_le (· = mint)
  rw [← sumInterval_filter, ← sumInterval_filter, sumInterval, sumInterval, List.countP_filter, List.countP_filter]
  simpa [Bool.decide_and] using hcount

theorem consistentStats (hint : Integrity st) (hnested : Nested st) : ConsistentStats (queryDbStats st) where
  failed := hint.failed_le
  wsol := by
    have hsub : ∀ sig ∈ (st.tokenBalanceChanges.rows.filter (·.mint = wsolMint)).map (·.txSignature),
        sig ∈ (st.tokenBalanceChanges.rows.map (·.txSignature)).dedup := by
      intro sig hsig
      obtain ⟨c, hc, rfl⟩ := List.mem_map.1 hsig
      exact List.mem_dedup.2 (List.mem_map_of_mem (List.mem_of_mem_filter hc))
    exact dedup_length_le_of_subset hsub
  rows := by
    refine ⟨?_, ?_, tokenRows_le st⟩
    · simpa only [queryDbStats, countDistinct, List.length_map] using
        (List.dedup_sublist (st.tokenBalanceChanges.rows.map (·.txSignature))).length_le
    · simpa only [queryDbStats, countDistinct, List.length_map] using
        (List.dedup_sublist (st.tokenBalanceChanges.rows.map (·.mint))).length_le
  blocks := by
    intro hblocks
    have hnil : st.blocks.rows = [] := List.length_eq_zero_iff.1 hblocks
    refine List.length_eq_zero_iff.2 (List.eq_nil_iff_forall_not_mem.2 fun r hr => ?_)
    obtain ⟨b, hb, _⟩ := hint.transactions r hr
    rw [hnil] at hb
    cases hb
  candles := by
    have hcount := hnested.countP_le fun _ => true
    simpa [queryDbStats, sumInterval] using hcount

/-- A token list has candles of a minute for each of its mints, and no more of five minutes. -/
theorem Nested.tokens (h : Nested st) (ord : HashMap.IterOrder) :
    ∀ t ∈ queryTokens ord st, 0 < t.candles1m ∧ t.candles5m ≤ t.candles1m := by
  intro t ht
  obtain ⟨h1m, h5m, hpos⟩ := mem_queryTokens.1 ht
  have hle := h.length_le t.mint
  omega

end Counts

/-- **The statistics fit together at any time.** -/
theorem sessions_stats (P : Setting → Prop) (st : Store) (h : Transition.Reachable (sessions P .empty) st) :
    ConsistentStats (queryDbStats st) := by
  obtain ⟨hwritten, hnested⟩ := sessions_keep (fun S _ => keptByCalls_nested S) written_empty nofun h
  exact consistentStats (OneBlock.integrity hwritten.oneBlock) hnested

/-- The statistics after the purchase. -/
theorem sessions_stats_example : ∃ st, st.candles.rows.length = 2 ∧ ConsistentStats (queryDbStats st) := by
  obtain ⟨st, h, hlength, _⟩ := exists_session
  exact ⟨st, hlength, sessions_stats _ st h⟩

/-- **No token list offers five minutes without one**: not in any session, not to any client, at any time. -/
theorem sessions_tokens (P : Setting → Prop) (st : Store) (h : Transition.Reachable (sessions P .empty) st)
    (S : Setting) (X : Api.Externals) (s : ServerState) (hs : Served S X ⟨st, none, 0⟩ s) :
    ∀ e ∈ s.world.answered, ∀ tokens, e.response.body = .tokens tokens →
      ∀ t ∈ tokens, 0 < t.candles1m ∧ t.candles5m ≤ t.candles1m := by
  obtain ⟨hwritten, hnested⟩ := sessions_keep (fun S _ => keptByCalls_nested S) written_empty nofun h
  intro e he tokens hbody t ht
  rcases answered_keeps hwritten (keptByCalls_nested S) hnested hs he with hrefused | ⟨i, _, hnested, hresponse⟩
  · obtain ⟨message, htext⟩ := hrefused.body
    rw [htext] at hbody
    cases hbody
  · rw [hresponse] at hbody
    obtain rfl := Api.answerOn_tokens X hbody
    exact hnested.tokens _ t ht

/-- After the purchase a client asks for the tokens. -/
theorem sessions_tokens_example : ∃ e : Answered, e.response.body = .tokens [⟨"mint", 1, 1⟩] ∧
    ∀ tokens, e.response.body = .tokens tokens → ∀ t ∈ tokens, 0 < t.candles1m ∧ t.candles5m ≤ t.candles1m := by
  obtain ⟨st, h, _, htokens⟩ := exists_session
  have hstart : Served decodedSetting plainExternals ⟨st, none, 0⟩
      ⟨⟨st, none, 0⟩, ⟨.start decodedSetting.args, fun _ => none, []⟩, none, false⟩ := .init ⟨⟨rfl, rfl⟩, rfl, rfl⟩
  have hcalled := ((hstart.step (.free (i := .client 0) nofun (.ask ⟨.tokens, 0⟩ rfl))).step
    (.lock (i := .client 0) rfl rfl rfl)).step (.call rfl)
  have hanswered := hcalled.step (.unlock rfl)
  refine ⟨⟨0, ⟨.tokens, 0⟩, Api.ok (.tokens (queryTokens .stored st))⟩, by rw [htokens]; rfl, ?_⟩
  exact sessions_tokens _ st h decodedSetting plainExternals _ hanswered _ (List.mem_singleton_self _)

end Tenso.Cli
