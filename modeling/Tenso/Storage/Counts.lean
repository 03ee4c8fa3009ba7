import Mathlib.Algebra.BigOperators.Group.List.Basic
import Mathlib.Algebra.GroupWithZero.Nat
import Tenso.Storage.Query

/-!
# Counting queries

`queryTokens` lists the mints that the dashboard offers, with the numbers of their candles; `queryDbStats` counts rows
and distinct values of the tables. Groups with equal totals come in the order of `ord`.

The tokens are exact (`queryTokens_exact`): they are the mints with a stored candle of one of the two intervals, each
once, with the lengths of its two series, and the statistics count the same candles.
-/

namespace Tenso.Storage

/-! ## The queries -/

/-- One mint in the dashboard token dropdown. -/
structure TokenOption where
  mint : String
  candles1m : ℕ
  candles5m : ℕ
  deriving DecidableEq

/-- `SUM(CASE WHEN interval_sec = ? THEN 1 ELSE 0 END)`. -/
def sumInterval (intervalSec : Int32) (rows : List CandlesRow) : ℕ := rows.countP (·.intervalSec = intervalSec)

/-- A group of `candles` by mint. -/
def tokenOption (e : Σ _ : String, List CandlesRow) : TokenOption :=
  { mint := e.1, candles1m := sumInterval 60 e.2, candles5m := sumInterval 300 e.2 }

/-- The candles of a mint, of both intervals. -/
def TokenOption.total (t : TokenOption) : ℕ := t.candles1m + t.candles5m

/-- The mints that have a stored candle, those with the most candles first. -/
def queryTokens (ord : HashMap.IterOrder) (st : Store) : List TokenOption :=
  let groups := (ord.iter (HashMap.groupBy (·.mint) st.candles.rows).entries).map tokenOption
  (groups.filter fun t => 0 < t.candles1m ∨ 0 < t.candles5m).insertionSort fun t u => u.total ≤ t.total

/-- Counts for statistics. -/
structure DbStats where
  blocks : ℕ
  transactions : ℕ
  failedTransactions : ℕ
  tokenChangeRows : ℕ
  distinctMints : ℕ
  distinctTxWithBalances : ℕ
  txWithWsol : ℕ
  candles1m : ℕ
  candles5m : ℕ
  deriving DecidableEq

/-- `COUNT(DISTINCT …)`. -/
def countDistinct {α : Type} [DecidableEq α] (xs : List α) : ℕ := xs.dedup.length

/-- The counts, one query each. -/
def queryDbStats (st : Store) : DbStats where
  blocks := st.blocks.rows.length
  transactions := st.transactions.rows.length
  failedTransactions := st.transactions.rows.countP (·.failed)
  tokenChangeRows := st.tokenBalanceChanges.rows.length
  distinctMints := countDistinct (st.tokenBalanceChanges.rows.map (·.mint))
  distinctTxWithBalances := countDistinct (st.tokenBalanceChanges.rows.map (·.txSignature))
  txWithWsol :=
    countDistinct ((st.tokenBalanceChanges.rows.filter (·.mint = Ohlcv.wsolMint)).map (·.txSignature))
  candles1m := sumInterval 60 st.candles.rows
  candles5m := sumInterval 300 st.candles.rows

/-! ## The tokens are exact -/

/-- The tokens are exact: the mints with a candle, each once, with the lengths of the two series; those with the most
candles first; and together they have the candles that the statistics count. -/
structure TokensExact (st : Store) (tokens : List TokenOption) : Prop where
  mem : ∀ t, t ∈ tokens ↔ t.candles1m = (queryOhlcv t.mint 60 st).length ∧
    t.candles5m = (queryOhlcv t.mint 300 st).length ∧ (0 < t.candles1m ∨ 0 < t.candles5m)
  once : (tokens.map (·.mint)).Nodup
  sorted : tokens.Pairwise fun t u => u.total ≤ t.total
  sum1m : (tokens.map (·.candles1m)).sum = (queryDbStats st).candles1m
  sum5m : (tokens.map (·.candles5m)).sum = (queryDbStats st).candles5m

/-- A mint's group has the candles of its series. -/
theorem sumInterval_filter (mint : String) (intervalSec : Int32) (st : Store) :
    sumInterval intervalSec (st.candles.rows.filter (·.mint = mint)) = (queryOhlcv mint intervalSec st).length := by
  rw [sumInterval, queryOhlcv, List.length_map, List.length_insertionSort, ← List.countP_eq_length_filter,
    List.countP_filter]
  apply List.countP_congr
  intro r _
  simp only [Bool.and_eq_true, decide_eq_true_eq, and_comm]

/-- The groups have the rows of the table. -/
theorem sum_sumInterval (ord : HashMap.IterOrder) (intervalSec : Int32) (rows : List CandlesRow) :
    ((ord.iter (HashMap.groupBy (·.mint) rows).entries).map fun e => sumInterval intervalSec e.2).sum =
      sumInterval intervalSec rows := by
  have hgroups : (HashMap.groupBy (·.mint) rows).entries.flatMap (·.2) =
      ((HashMap.groupBy (·.mint) rows).entries.map (·.1)).flatMap fun mint => rows.filter (·.mint = mint) := by
    rw [List.flatMap_map]
    exact List.flatMap_congr fun e he => (HashMap.mem_entries_groupBy.1 he).2
  have hperm : ((HashMap.groupBy (·.mint) rows).entries.flatMap (·.2)).Perm rows := by
    rw [hgroups]
    apply HashMap.flatMap_filter_perm rows (HashMap.groupBy (·.mint) rows).nodupKeys
    intro r hr
    exact (HashMap.keys_groupBy_perm rows).mem_iff.2 (List.mem_dedup.2 (List.mem_map_of_mem hr))
  calc ((ord.iter (HashMap.groupBy (·.mint) rows).entries).map fun e => sumInterval intervalSec e.2).sum
      = ((HashMap.groupBy (·.mint) rows).entries.map fun e => sumInterval intervalSec e.2).sum :=
        ((ord.perm _).map _).sum_eq
    _ = ((HashMap.groupBy (·.mint) rows).entries.flatMap (·.2)).countP (·.intervalSec = intervalSec) :=
        List.countP_flatMap.symm
    _ = sumInterval intervalSec rows := hperm.countP_eq _

/-- Options without a candle count for nothing. -/
theorem sum_filter_of_zero {α : Type} (l : List α) (p : α → Bool) (f : α → ℕ) (h : ∀ a ∈ l, p a = false → f a = 0) :
    ((l.filter p).map f).sum = (l.map f).sum := by
  induction l with
  | nil => rfl
  | cons a l ih =>
    obtain ⟨ha, hl⟩ := List.forall_mem_cons.1 h
    cases hp : p a with
    | true => rw [List.filter_cons_of_pos hp, List.map_cons, List.map_cons, List.sum_cons, List.sum_cons, ih hl]
    | false => rw [List.filter_cons_of_neg (by simp [hp]), List.map_cons, List.sum_cons, ha hp, ih hl, Nat.zero_add]

theorem sum_queryTokens (ord : HashMap.IterOrder) (st : Store) (f : TokenOption → ℕ)
    (h : ∀ t, ¬(0 < t.candles1m ∨ 0 < t.candles5m) → f t = 0) : ((queryTokens ord st).map f).sum =
      ((ord.iter (HashMap.groupBy (·.mint) st.candles.rows).entries).map fun e => f (tokenOption e)).sum := by
  rw [queryTokens, ((List.perm_insertionSort _ _).map f).sum_eq, sum_filter_of_zero, List.map_map]
  · rfl
  · exact fun t _ ht => h t (of_decide_eq_false ht)

theorem mem_queryTokens {ord : HashMap.IterOrder} {st : Store} {t : TokenOption} : t ∈ queryTokens ord st ↔
    t.candles1m = (queryOhlcv t.mint 60 st).length ∧ t.candles5m = (queryOhlcv t.mint 300 st).length ∧
      (0 < t.candles1m ∨ 0 < t.candles5m) := by
  simp only [queryTokens, List.mem_insertionSort, List.mem_filter, List.mem_map, (ord.perm _).mem_iff,
    decide_eq_true_eq]
  constructor
  · rintro ⟨⟨e, he, rfl⟩, hpos⟩
    have hgroup := (HashMap.mem_entries_groupBy.1 he).2
    refine ⟨?_, ?_, hpos⟩
    · rw [← sumInterval_filter, tokenOption, hgroup]
    · rw [← sumInterval_filter, tokenOption, hgroup]
  · rintro ⟨h1, h5, hpos⟩
    refine ⟨⟨⟨t.mint, st.candles.rows.filter (·.mint = t.mint)⟩, HashMap.mem_entries_groupBy.2 ⟨?_, rfl⟩, ?_⟩, hpos⟩
    · -- a candle that is counted is a row of the mint
      by_contra hno
      have hnil : st.candles.rows.filter (·.mint = t.mint) = [] :=
        List.filter_eq_nil_iff.2 fun r hr hm => hno ⟨r, hr, of_decide_eq_true hm⟩
      rw [← sumInterval_filter, hnil] at h1 h5
      have h1' : t.candles1m = 0 := h1
      have h5' : t.candles5m = 0 := h5
      omega
    · rw [tokenOption, sumInterval_filter, sumInterval_filter, ← h1, ← h5]

/-- **The tokens are exact.** -/
theorem queryTokens_exact (ord : HashMap.IterOrder) (st : Store) : TokensExact st (queryTokens ord st) where
  mem _ := mem_queryTokens
  once := by
    have hkeys : ((HashMap.groupBy (·.mint) st.candles.rows).entries.map (·.1)).Nodup :=
      AList.nodupKeys _
    have hmints :
        (((ord.iter (HashMap.groupBy (·.mint) st.candles.rows).entries).map tokenOption).map (·.mint)).Nodup := by
      rw [List.map_map]
      exact ((ord.perm _).map _).nodup_iff.2 hkeys
    rw [queryTokens, ((List.perm_insertionSort _ _).map _).nodup_iff]
    exact hmints.sublist (List.filter_sublist.map _)
  sorted := List.pairwise_insertionSort _ _
  sum1m := by
    rw [sum_queryTokens ord st (·.candles1m) fun t h => by omega]
    exact sum_sumInterval ord 60 st.candles.rows
  sum5m := by
    rw [sum_queryTokens ord st (·.candles5m) fun t h => by omega]
    exact sum_sumInterval ord 300 st.candles.rows

end Tenso.Storage
