import Mathlib.Algebra.BigOperators.Group.Finset.Basic
import Mathlib.Algebra.Order.BigOperators.Group.List
import Mathlib.Tactic.NormNum
import Tenso.Ingest.NetChange
import Tenso.Ohlcv.Defs

/-!
# A swap seen from the token balances of its transaction

In a two-sided swap the trader's and the pool's accounts both are in the transaction: one side gains `x` of a mint and
loses `y` wSOL, the other side the reverse (`TwoSidedSwap`). Decoding nets every mint over all accounts, so the two
legs of each mint cancel (`total_swap`), no token delta is left (`buildTokenDeltas_swap`) and no trade is inferred.
-/

namespace Tenso.Ingest

open Netting Ohlcv

variable {pre post : List RawTokenBalance}

/-! ## Two-sided swaps -/

/-- The account at index `i` holds `mint` and goes from `a` to `b`. -/
structure AccountMove (pre post : List RawTokenBalance) (i : UInt32) (mint : String) (decimals : UInt8) (a b : ℕ) :
    Prop where
  before : ∃ p ∈ pre, p.accountIndex = i ∧ p.mint = mint ∧ p.uiTokenAmount.decimals = decimals ∧ p.amount.toNat = a
  after : ∃ q ∈ post, q.accountIndex = i ∧ q.mint = mint ∧ q.uiTokenAmount.decimals = decimals ∧ q.amount.toNat = b

/-- The account at index `i` is the same before and after. -/
def Unchanged (pre post : List RawTokenBalance) (i : UInt32) : Prop :=
  (pre.find? (·.accountIndex = i)).map (fun b => (b.mint, b.amount)) =
    (post.find? (·.accountIndex = i)).map fun b => (b.mint, b.amount)

/-- A trader and a pool swap `x` of the mint `mint` against `y` of wSOL: the first side's accounts are `i₁` and `j₁`,
the other side's `i₂` and `j₂`, and nothing else changes. -/
structure TwoSidedSwap (pre post : List RawTokenBalance) (mint : String) (x y : ℕ) (decMint decWsol : UInt8) :
    Prop where
  mint_ne : mint ≠ wsolMint
  gain : 0 < x
  notDust : dustThresholdSol .exact ≤ (y : ℚ) / 10 ^ decWsol.toNat
  preDistinct : (pre.map (·.accountIndex)).Nodup
  postDistinct : (post.map (·.accountIndex)).Nodup
  accounts : ∃ i₁ i₂ j₁ j₂ : UInt32, [i₁, i₂, j₁, j₂].Nodup ∧
    (∃ a, AccountMove pre post i₁ mint decMint a (a + x)) ∧ (∃ a, AccountMove pre post i₂ mint decMint (a + x) a) ∧
    (∃ a, AccountMove pre post j₁ wsolMint decWsol (a + y) a) ∧
    (∃ a, AccountMove pre post j₂ wsolMint decWsol a (a + y)) ∧
    ∀ i, i ∉ [i₁, i₂, j₁, j₂] → Unchanged pre post i

/-- The share of an account that moved. -/
theorem AccountMove.share_eq {i : UInt32} {mint : String} {decimals : UInt8} {a b : ℕ}
    (h : AccountMove pre post i mint decimals a b) (hpre : (pre.map (·.accountIndex)).Nodup) :
    ∃ q ∈ post, q.accountIndex = i ∧ ∀ k, share pre k q = if mint = k then (b : ℤ) - a else 0 := by
  obtain ⟨p, hp, rfl, _, _, rfl⟩ := h.before
  obtain ⟨q, hq, hqi, rfl, _, rfl⟩ := h.after
  refine ⟨q, hq, hqi, fun k => ?_⟩
  simp [share, amountAt, hqi, find?_accountIndex hpre hp]

/-- The share of an unchanged account is `0`. -/
theorem Unchanged.share_eq {q : RawTokenBalance} (h : Unchanged pre post q.accountIndex) (hq : q ∈ post)
    (hpost : (post.map (·.accountIndex)).Nodup) (k : String) : share pre k q = 0 := by
  rw [Unchanged, find?_accountIndex hpost hq, Option.map_some, Option.map_eq_some_iff] at h
  obtain ⟨p, hp, he⟩ := h
  rw [Prod.mk.injEq] at he
  simp [share, amountAt, hp, he.2]

/-- An index before the transaction is an index after it. -/
theorem TwoSidedSwap.index_mem {mint : String} {x y : ℕ} {decMint decWsol : UInt8}
    (h : TwoSidedSwap pre post mint x y decMint decWsol) {p : RawTokenBalance} (hp : p ∈ pre) :
    ∃ q ∈ post, q.accountIndex = p.accountIndex := by
  obtain ⟨i₁, i₂, j₁, j₂, _, ⟨_, h₁⟩, ⟨_, h₂⟩, ⟨_, h₃⟩, ⟨_, h₄⟩, hrest⟩ := h.accounts
  by_cases hi : p.accountIndex ∈ [i₁, i₂, j₁, j₂]
  · have hall : ∀ i ∈ [i₁, i₂, j₁, j₂], ∃ q ∈ post, q.accountIndex = i := by
      intro i hi
      simp only [List.mem_cons, List.not_mem_nil, or_false] at hi
      rcases hi with rfl | rfl | rfl | rfl
      · exact h₁.after.imp fun q hq => ⟨hq.1, hq.2.1⟩
      · exact h₂.after.imp fun q hq => ⟨hq.1, hq.2.1⟩
      · exact h₃.after.imp fun q hq => ⟨hq.1, hq.2.1⟩
      · exact h₄.after.imp fun q hq => ⟨hq.1, hq.2.1⟩
    exact hall _ hi
  · have := hrest _ hi
    rw [Unchanged, find?_accountIndex h.preDistinct hp, Option.map_some, eq_comm, Option.map_eq_some_iff] at this
    obtain ⟨q, hq, _⟩ := this
    exact ⟨q, List.mem_of_find?_eq_some hq, by simpa using List.find?_some hq⟩

/-- The shares of the four accounts cancel. -/
theorem TwoSidedSwap.sum_share {mint : String} {x y : ℕ} {decMint decWsol : UInt8}
    (h : TwoSidedSwap pre post mint x y decMint decWsol) (k : String) : (post.map (share pre k)).sum = 0 := by
  obtain ⟨i₁, i₂, j₁, j₂, hd, ⟨a₁, h₁⟩, ⟨a₂, h₂⟩, ⟨b₁, h₃⟩, ⟨b₂, h₄⟩, hrest⟩ := h.accounts
  obtain ⟨q₁, hq₁, rfl, hs₁⟩ := h₁.share_eq h.preDistinct
  obtain ⟨q₂, hq₂, rfl, hs₂⟩ := h₂.share_eq h.preDistinct
  obtain ⟨q₃, hq₃, rfl, hs₃⟩ := h₃.share_eq h.preDistinct
  obtain ⟨q₄, hq₄, rfl, hs₄⟩ := h₄.share_eq h.preDistinct
  have hq : [q₁, q₂, q₃, q₄].Nodup := List.Nodup.of_map RawTokenBalance.accountIndex hd
  have hsub : ([q₁, q₂, q₃, q₄] : List RawTokenBalance).toFinset ⊆ post.toFinset := by
    intro q hq
    simp only [List.mem_toFinset, List.mem_cons, List.not_mem_nil, or_false] at hq ⊢
    rcases hq with rfl | rfl | rfl | rfl <;> assumption
  have hzero : ∀ q ∈ post.toFinset, q ∉ ([q₁, q₂, q₃, q₄] : List RawTokenBalance).toFinset → share pre k q = 0 := by
    intro q hqp hqn
    rw [List.mem_toFinset] at hqp hqn
    refine (hrest q.accountIndex fun hi => hqn ?_).share_eq hqp h.postDistinct k
    -- the four entries are the only ones with the four indices
    obtain ⟨r, hr, hri⟩ : ∃ r ∈ [q₁, q₂, q₃, q₄], r.accountIndex = q.accountIndex := List.mem_map.1 hi
    have hrp : r ∈ post := List.mem_toFinset.1 (hsub (List.mem_toFinset.2 hr))
    rwa [← List.inj_on_of_nodup_map h.postDistinct hrp hqp hri]
  rw [← List.sum_toFinset _ (List.Nodup.of_map _ h.postDistinct), ← Finset.sum_subset hsub hzero,
    List.sum_toFinset _ hq]
  simp only [List.map_cons, List.map_nil, List.sum_cons, List.sum_nil, hs₁, hs₂, hs₃, hs₄]
  by_cases hm : mint = k <;> by_cases hw : wsolMint = k <;> simp [hm, hw]

/-- The legs of a swap cancel: no token delta is left. -/
theorem buildTokenDeltas_swap {mint : String} {x y : ℕ} {decMint decWsol : UInt8}
    (h : TwoSidedSwap pre post mint x y decMint decWsol) : buildTokenDeltas pre post = [] := by
  have hclosed : pre.filterMap (closedDelta post) = [] := by
    apply List.filterMap_eq_nil_iff.2
    intro p hp
    obtain ⟨q, hq, hqi⟩ := h.index_mem hp
    have : post.any (·.accountIndex = p.accountIndex) = true := List.any_eq_true.2 ⟨q, hq, by simpa using hqi⟩
    rw [closedDelta, if_pos this]
  have htotal : ∀ k, total ((post.filterMap (postDelta pre)).map (·.netItem)) k = 0 := fun k => by
    rw [total_postDelta, h.sum_share]
  rw [buildTokenDeltas, hclosed, List.append_nil, coalesceTokenDeltas, netBy_eq_nil htotal, List.map_nil]

/-! ## Pricing a swap -/

/-- A decoded token delta as the candle code reads it. -/
def TokenBalanceChange.toTokenDelta (d : TokenBalanceChange) : TokenDelta :=
  { mint := d.mint, preAmount := d.preAmount, postAmount := d.postAmount, decimals := d.decimals }

/-- The trades inferred from the token balances of a transaction. -/
def decodedTrades (A : Arithmetic) (signature : String) (blockTime : ℤ) (pre post : List RawTokenBalance) :
    List InferredTrade :=
  inferTrades A { signature, blockTime, tokenDeltas := (buildTokenDeltas pre post).map (·.toTokenDelta) }

/-- There is exactly one trade of `mint`, with volume `y` and price `y / x` in units of the mints. -/
def PricedOnce (trades : List InferredTrade) (mint : String) (x y : ℕ) (decMint decWsol : UInt8) : Prop :=
  ∃ t, trades.filter (·.mint = mint) = [t] ∧ t.volumeSol = (y : ℚ) / 10 ^ decWsol.toNat ∧
    t.priceInSol = ((y : ℚ) / 10 ^ decWsol.toNat) / ((x : ℚ) / 10 ^ decMint.toNat)

/-- **A two-sided swap is never priced**: its transaction yields no trade at all. -/
theorem swap_not_priced {mint : String} {x y : ℕ} {decMint decWsol : UInt8}
    (h : TwoSidedSwap pre post mint x y decMint decWsol) (A : Arithmetic) (signature : String) (blockTime : ℤ) :
    decodedTrades A signature blockTime pre post = [] ∧
      ¬PricedOnce (decodedTrades A signature blockTime pre post) mint x y decMint decWsol := by
  have hnil : decodedTrades A signature blockTime pre post = [] := by
    rw [decodedTrades, buildTokenDeltas_swap h]
    rfl
  refine ⟨hnil, ?_⟩
  rintro ⟨t, ht, _⟩
  rw [hnil] at ht
  cases ht

/-- A token balance of the example. -/
def balance (i : UInt32) (mint amount : String) (decimals : UInt8) : RawTokenBalance :=
  ⟨i, mint, ⟨amount, decimals⟩⟩

/-- The balances before a swap: the trader's accounts 1 and 2, the pool's 3 and 4. -/
def swapPre : List RawTokenBalance :=
  [balance 1 "MINT" "0" 6, balance 2 wsolMint "5000000000" 9, balance 3 "MINT" "900000000" 6,
    balance 4 wsolMint "70000000000" 9]

/-- The balances after the trader bought 100 of the mint for 1 SOL. -/
def swapPost : List RawTokenBalance :=
  [balance 1 "MINT" "100000000" 6, balance 2 wsolMint "4000000000" 9, balance 3 "MINT" "800000000" 6,
    balance 4 wsolMint "71000000000" 9]

theorem swapExample : TwoSidedSwap swapPre swapPost "MINT" 100000000 1000000000 6 9 where
  mint_ne := by decide
  gain := by decide
  notDust := by
    have h9 : UInt8.toNat 9 = 9 := rfl
    norm_num [dustThresholdSol, h9]
  preDistinct := by decide
  postDistinct := by decide
  accounts := by
    refine ⟨1, 3, 2, 4, by decide, ⟨0, ?_⟩, ⟨800000000, ?_⟩, ⟨4000000000, ?_⟩, ⟨70000000000, ?_⟩, fun i hi => ?_⟩
    · exact ⟨by decide, by decide⟩
    · exact ⟨by decide, by decide⟩
    · exact ⟨by decide, by decide⟩
    · exact ⟨by decide, by decide⟩
    · simp only [List.mem_cons, List.not_mem_nil, or_false, not_or] at hi
      obtain ⟨h1, h3, h2, h4⟩ := hi
      simp [Unchanged, swapPre, swapPost, balance, Ne.symm h1, Ne.symm h2, Ne.symm h3, Ne.symm h4]

theorem swap_not_priced_example : decodedTrades .exact "sig" 0 swapPre swapPost = [] ∧
    ¬PricedOnce (decodedTrades .exact "sig" 0 swapPre swapPost) "MINT" 100000000 1000000000 6 9 :=
  swap_not_priced swapExample .exact "sig" 0

/-- A swap of 100 of a mint against 1 SOL is not priced. -/
theorem swap_priced_counterexample : TwoSidedSwap swapPre swapPost "MINT" 100000000 1000000000 6 9 ∧
    ¬PricedOnce (decodedTrades .exact "sig" 0 swapPre swapPost) "MINT" 100000000 1000000000 6 9 := by
  refine ⟨swapExample, ?_⟩
  rintro ⟨t, ht, _⟩
  rw [decodedTrades, buildTokenDeltas_swap swapExample] at ht
  cases ht

end Tenso.Ingest
