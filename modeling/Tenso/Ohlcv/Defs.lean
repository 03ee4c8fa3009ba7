import Mathlib.Algebra.Order.Field.Basic
import Mathlib.Data.List.Sort
import Mathlib.Data.Rat.Cast.Order
import Mathlib.Data.Rat.Floor
import Mathlib.Order.WithBot
import Tenso.Lib.BinaryRounding
import Tenso.Lib.HashMap

/-!
# Inferred trades and candles

Floats are rationals, and the results of their arithmetic are rounded; how they are rounded is a parameter. `binary64`
is the arithmetic of `f64`, and `exact` is arithmetic without rounding. The amounts are `u64` and the decimals `u8`,
so nothing overflows or underflows. A time is an integer number of seconds, and products of times do not overflow.

- `inferTrades`: the trades of one transaction, from its token deltas: a mint that moves against wSOL.
- `buildCandles`: the candles of a list of trades, per mint and fixed time bucket. It walks hash maps, whose iteration
  order is a parameter.
-/

namespace Tenso.Ohlcv

/-- The arithmetic of floats: how results are rounded, and what `10f64.powi` gives. -/
structure Arithmetic extends Rounding ℚ where
  powTen : ℕ → ℚ
  powTen_pos (n : ℕ) : 0 < powTen n

/-- Arithmetic without rounding. -/
def Arithmetic.exact : Arithmetic :=
  { Rounding.exact with
    powTen := fun n => 10 ^ n
    powTen_pos := fun _ => pow_pos (by norm_num) _ }

/-- The arithmetic of `f64` with unbounded exponents: 53 binary digits. Powers of ten are rounded once. -/
def Arithmetic.binary64 : Arithmetic :=
  { BinaryRounding.rounding 53 (by decide) with
    powTen := fun n => BinaryRounding.nearest 53 (10 ^ n)
    powTen_pos := fun _ => BinaryRounding.nearest_pos (by decide) (pow_pos (by norm_num) _) }

@[simp] theorem Arithmetic.exact_round (x : ℚ) : Arithmetic.exact.round x = x := rfl

@[simp] theorem Arithmetic.exact_sum (l : List ℚ) : Arithmetic.exact.sum l = l.sum := Rounding.exact_sum l

/-- The mint of wrapped SOL. -/
def wsolMint : String := "So11111111111111111111111111111111111111112"

/-- The smallest volume of a trade, in SOL. -/
def dustThresholdSol (A : Arithmetic) : ℚ := A.round (1 / 2000)

/-- The balance change of one mint in one transaction. -/
structure TokenDelta where
  mint : String
  preAmount : UInt64
  postAmount : UInt64
  decimals : UInt8
  deriving DecidableEq

/-- The signed change in units of the mint. -/
def TokenDelta.deltaUi (d : TokenDelta) (A : Arithmetic) : ℚ :=
  A.round (A.round (A.round d.postAmount.toNat - A.round d.preAmount.toNat) / A.powTen d.decimals.toNat)

/-- The balance changes of one transaction. -/
structure TxSnapshot where
  signature : String
  blockTime : ℤ
  tokenDeltas : List TokenDelta
  deriving DecidableEq

/-- One inferred trade. -/
structure InferredTrade where
  signature : String
  blockTime : ℤ
  mint : String
  priceInSol : ℚ
  volumeSol : ℚ
  deriving DecidableEq

/-! ## Trades -/

/-- The trade of one mint against the wSOL change of its transaction, if it is one. -/
def tradeOf (A : Arithmetic) (tx : TxSnapshot) (wsolDelta : ℚ) (d : TokenDelta) : Option InferredTrade :=
  if d.mint = wsolMint then none
  else if d.deltaUi A = 0 then none
  else if decide (d.deltaUi A > 0) = decide (wsolDelta > 0) then none -- same direction: not a swap
  else if |wsolDelta| < dustThresholdSol A then none
  else some
    { signature := tx.signature, blockTime := tx.blockTime, mint := d.mint,
      priceInSol := A.round (|wsolDelta| / |d.deltaUi A|), volumeSol := |wsolDelta| }

/-- The trades of a transaction. -/
def inferTrades (A : Arithmetic) (tx : TxSnapshot) : List InferredTrade :=
  match tx.tokenDeltas.find? (·.mint = wsolMint) with
  | none => []
  | some wsol => if wsol.deltaUi A ≠ 0 then tx.tokenDeltas.filterMap (tradeOf A tx (wsol.deltaUi A)) else []

/-- 0.1 SOL for 0.3 tokens and 1 SOL for 3 tokens have different prices in `f64`. -/
example :
    (inferTrades .binary64 ⟨"a", 0, [⟨wsolMint, 100000000, 0, 9⟩, ⟨"mint", 0, 3, 1⟩]⟩).map (·.priceInSol) ≠
      (inferTrades .binary64 ⟨"b", 0, [⟨wsolMint, 1000000000, 0, 9⟩, ⟨"mint", 0, 3, 0⟩]⟩).map (·.priceInSol) := by
  decide +kernel

/-- A trade has the mint of its delta, the time of its transaction and at least the smallest volume. -/
theorem tradeOf_spec {A : Arithmetic} {tx : TxSnapshot} {w : ℚ} {d : TokenDelta} {t : InferredTrade}
    (h : tradeOf A tx w d = some t) :
    t.mint = d.mint ∧ t.blockTime = tx.blockTime ∧ dustThresholdSol A ≤ t.volumeSol := by
  unfold tradeOf at h
  split at h
  · cases h
  split at h
  · cases h
  split at h
  · cases h
  split at h
  · cases h
  · rename_i hdust
    cases h
    exact ⟨rfl, rfl, not_lt.1 hdust⟩

theorem inferTrades_blockTime {A : Arithmetic} {tx : TxSnapshot} {t : InferredTrade} (h : t ∈ inferTrades A tx) :
    t.blockTime = tx.blockTime := by
  unfold inferTrades at h
  split at h
  · cases h
  split at h
  · obtain ⟨d, _, ht⟩ := List.mem_filterMap.1 h
    exact (tradeOf_spec ht).2.1
  · cases h

/-! ## Candles -/

/-- One candle of a time bucket. -/
structure Candle where
  bucketStart : ℤ
  «open» : ℚ
  high : ℚ
  low : ℚ
  close : ℚ
  volume : ℚ
  deriving DecidableEq

/-- The start of the bucket of a time: `t.div_euclid(interval) * interval`. -/
def bucketStart (t interval : ℤ) : ℤ := t / interval * interval

/-- The candle of the trades `bt` of one bucket, in time order. `f64::MIN` and `f64::MAX`, where the source starts its
folds, are the ends of the order. -/
def candleOf (A : Arithmetic) (bucketStart : ℤ) (bt : List InferredTrade) : Candle :=
  let prices := bt.map (·.priceInSol)
  { bucketStart
    «open» := prices.headD 0
    close := prices.getLastD 0
    high := (prices.foldl (fun m p => max m ↑p) (⊥ : WithBot ℚ)).unbotD 0
    low := (prices.foldl (fun m p => min m ↑p) (⊤ : WithTop ℚ)).untopD 0
    volume := A.sum (bt.map (·.volumeSol)) }

/-- The candles of one mint: sort the trades by time, group them by bucket, one candle a bucket in bucket order. -/
def candleSeries (A : Arithmetic) (ord : HashMap.IterOrder) (mtrades : List InferredTrade) (interval : ℤ) :
    List Candle :=
  let mtrades := mtrades.insertionSort fun s t => s.blockTime ≤ t.blockTime
  let buckets := HashMap.groupBy (fun t => bucketStart t.blockTime interval) mtrades
  let bucketKeys := (ord.iter buckets.keys).insertionSort (· ≤ ·)
  bucketKeys.map fun k => candleOf A k ((buckets.lookup k).getD [])

/-- **The candles of the trades**, per mint. -/
def buildCandles (A : Arithmetic) (ord : HashMap.IterOrder) (trades : List InferredTrade) (interval : ℤ) :
    HashMap String (List Candle) :=
  let byMint := HashMap.groupBy (·.mint) trades
  (ord.iter byMint.entries).foldl (fun result e => result.insert e.1 (candleSeries A ord e.2 interval)) ∅

end Tenso.Ohlcv
