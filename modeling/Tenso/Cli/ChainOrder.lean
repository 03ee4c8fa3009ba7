import Tenso.Cli.Latest
import Tenso.Cli.Reruns

/-!
# Candles in chain order

The chain orders trades by slot, and within a block by the position of their transactions. The candles of a range open
and close in chain order exactly when the transactions that trade a mint in the first second of a bucket agree on the
price there, and so do those of its last second (`chainOrder_iff`). The query still orders the rows by slot, but the
hash map of the snapshots does not keep that order: the candle of two slots in one second may open at the price of the
second one (`chainOrder_reversed`).
-/

namespace Tenso.Cli

open Ingest (DecodedBlock DecodedTransaction)
open Ohlcv Storage

/-! ## The chain -/

/-- The stored blocks of a slot range, in chain order. -/
def chainBlocks (blocks : List DecodedBlock) (fromSlot toSlot : UInt64) : List DecodedBlock :=
  ((latest blocks).filter fun d => between fromSlot toSlot d.slot.toInt64).insertionSort fun d e => d.slot ≤ e.slot

/-- The stored rows of a slot range. -/
def rangeRows (fromSlot toSlot : UInt64) (st : Store) : List TokenBalanceChangesRow :=
  st.tokenBalanceChanges.rows.filter fun r => between fromSlot toSlot r.slot

/-- The transactions of the chain, in chain order, each with the snapshot of its stored rows. -/
def chainSnapshots (chain : List DecodedBlock) (rows : List TokenBalanceChangesRow) : List TxSnapshot :=
  (chain.flatMap (·.transactions)).filterMap fun t => snapshotOf t.signature (txRows rows t.signature)

/-- The trades of the chain, in chain order. -/
def chainTrades (A : Arithmetic) (chain : List DecodedBlock) (rows : List TokenBalanceChangesRow) :
    List InferredTrade :=
  (chainSnapshots chain rows).flatMap (inferTrades A)

/-- A candle follows the chain: it opens at the price of the first trade of its bucket and closes at that of the last.
-/
structure FollowsChain (interval : ℤ) (trades : List InferredTrade) (mint : String) (c : Candle) : Prop where
  opens : (trades.filter fun t => t.mint = mint ∧ bucketStart t.blockTime interval = c.bucketStart).head?.map
    (·.priceInSol) = some c.open
  closes : (trades.filter fun t => t.mint = mint ∧ bucketStart t.blockTime interval = c.bucketStart).getLast?.map
    (·.priceInSol) = some c.close

/-! ## The trades of a mint in a transaction -/

/-- The trades of a mint are those of its rows. -/
theorem mintTrades_snapshotOf {rows : List TokenBalanceChangesRow} (h : Coherent rows) {sig : String} {tx : TxSnapshot}
    (htx : snapshotOf sig (txRows rows sig) = some tx) (mint : String) :
    mintTrades A mint tx = ((txRows rows sig).filter (·.mint = mint)).filterMap (rowTrade A rows) := by
  rw [mintTrades, inferTrades_snapshotOf h htx, List.filter_filterMap, List.filterMap_filter]
  apply List.filterMap_congr
  intro r _
  cases ht : rowTrade A rows r with
  | none => simp
  | some t => simp [Option.filter, (rowTrade_spec ht).1]

/-- A transaction has at most one row of a mint, so the order of the rows does not matter. -/
theorem filter_mint_perm {rows rows' : List TokenBalanceChangesRow} (h : Coherent rows) (hp : rows'.Perm rows)
    (sig mint : String) : (txRows rows' sig).filter (·.mint = mint) = (txRows rows sig).filter (·.mint = mint) := by
  have hone {l : List TokenBalanceChangesRow} (hl : (l.map (·.key)).Nodup) :
      ((txRows l sig).filter (·.mint = mint)).Pairwise fun _ _ => False := by
    have hsub : ((txRows l sig).filter (·.mint = mint)).Sublist l :=
      List.filter_sublist.trans (List.filter_sublist.trans List.filter_sublist)
    have hkeys := hl.sublist (hsub.map _)
    rw [List.Nodup, List.pairwise_map] at hkeys
    refine hkeys.imp_of_mem fun {r s} hr hs hne => hne ?_
    simp only [List.mem_filter, mem_txRows, decide_eq_true_eq] at hr hs
    rw [TokenBalanceChangesRow.key, TokenBalanceChangesRow.key, hr.1.2.1, hs.1.2.1, hr.2, hs.2]
  have hperm : ((txRows rows' sig).filter (·.mint = mint)).Perm ((txRows rows sig).filter (·.mint = mint)) :=
    ((hp.filter _).filter _).filter _
  exact hperm.eq_of_pairwise (fun _ _ _ _ h _ => h.elim) (hone (h.perm hp).keyed) (hone h.keyed)

theorem exists_snapshotOf (sig : String) {rows : List TokenBalanceChangesRow} (h : rows ≠ []) :
    ∃ tx, snapshotOf sig rows = some tx := by
  cases rows with
  | nil => exact absurd rfl h
  | cons r rs => exact ⟨_, rfl⟩

/-- The trades of a mint in a transaction do not depend on the order of the rows. -/
theorem map_mintTrades_perm {rows rows' : List TokenBalanceChangesRow} (h : Coherent rows) (hp : rows'.Perm rows)
    (sig mint : String) : (snapshotOf sig (txRows rows' sig)).map (mintTrades A mint) =
      (snapshotOf sig (txRows rows sig)).map (mintTrades A mint) := by
  have htrade : rowTrade A rows' = rowTrade A rows := funext fun _ => rowTrade_congr (h.perm hp) h fun _ _ => hp.mem_iff
  have hrows : (txRows rows' sig).Perm (txRows rows sig) := (hp.filter _).filter _
  by_cases hnil : txRows rows sig = []
  · have hnil' : txRows rows' sig = [] := List.Perm.eq_nil (hnil ▸ hrows)
    rw [hnil, hnil']
  · have hnil' : txRows rows' sig ≠ [] := fun h' => hnil (List.Perm.eq_nil (h' ▸ hrows.symm))
    obtain ⟨tx, htx⟩ := exists_snapshotOf sig hnil
    obtain ⟨tx', htx'⟩ := exists_snapshotOf sig hnil'
    rw [htx, htx', Option.map_some, Option.map_some, mintTrades_snapshotOf h htx,
      mintTrades_snapshotOf (h.perm hp) htx', htrade, filter_mint_perm h hp]

/-! ## The rows of the chain -/

section Chain

variable {blocks : List DecodedBlock} {st : Store} {fromSlot toSlot : UInt64}

theorem mem_chainBlocks {d : DecodedBlock} : d ∈ chainBlocks blocks fromSlot toSlot ↔
    d ∈ latest blocks ∧ between fromSlot toSlot d.slot.toInt64 = true := by
  simp [chainBlocks]

/-- Every row is one of a latest block. -/
theorem HoldsLatest.exists_tokenBlock (h : HoldsLatest blocks st) {r : TokenBalanceChangesRow}
    (hr : r ∈ st.tokenBalanceChanges.rows) :
    ∃ d ∈ latest blocks, d.slot.toInt64 = r.slot ∧ r ∈ newTokenBalanceChanges (parseBlock d).slotRow :=
  h.exists_block (·.tokenBalanceChanges) rfl (List.mem_filter.2 ⟨hr, decide_eq_true rfl⟩)

theorem HoldsLatest.readable (h : HoldsLatest blocks st) : ∀ r ∈ st.tokenBalanceChanges.rows, Readable r := by
  intro r hr
  obtain ⟨d, _, _, hrow⟩ := h.exists_tokenBlock hr
  exact (newTokenBalanceChanges_spec hrow).2.2.2

/-- The rows of the slot of a latest block have the time of the block. -/
theorem HoldsLatest.blockTime_eq (h : HoldsLatest blocks st) {d : DecodedBlock} (hd : d ∈ latest blocks)
    {r : TokenBalanceChangesRow} (hr : r ∈ st.tokenBalanceChanges.rows) (hslot : r.slot = d.slot.toInt64) :
    r.blockTime = d.blockTime := by
  obtain ⟨d', hd', hslot', hrow⟩ := h.exists_tokenBlock hr
  have hdd : d' = d :=
    List.inj_on_of_nodup_map (latest_slots_nodup blocks) hd' hd (toInt64_injective (hslot'.trans hslot))
  rw [← hdd]
  exact (newTokenBalanceChanges_spec hrow).2.2.1

theorem HoldsLatest.coherent (h : HoldsLatest blocks st) : Coherent st.tokenBalanceChanges.rows := by
  refine .of_transactions (fun r hr => ?_) fun r hr r' hr' he => ?_
  · obtain ⟨d, hd, hslot, hrow⟩ := h.exists_tokenBlock hr
    obtain ⟨t, ht, hsig⟩ := (newTokenBalanceChanges_spec hrow).1
    obtain ⟨x, hx, hxs, hxslot, _⟩ := transactionsRow_mem (h.live d hd) ht
    exact ⟨x, hx, hxs.trans hsig, hxslot.trans hslot⟩
  · obtain ⟨d, hd, hslot, _⟩ := h.exists_tokenBlock hr
    rw [h.blockTime_eq hd hr hslot.symm, h.blockTime_eq hd hr' (he ▸ hslot.symm)]

/-- The rows with the signature of a transaction are in the slot of its block. -/
theorem HoldsLatest.slot_of_signature (h : HoldsLatest blocks st) {d : DecodedBlock} (hd : d ∈ latest blocks)
    {t : DecodedTransaction} (ht : t ∈ d.transactions) {r : TokenBalanceChangesRow}
    (hr : r ∈ st.tokenBalanceChanges.rows) (hsig : r.txSignature = t.signature) : r.slot = d.slot.toInt64 := by
  obtain ⟨d', hd', hslot', hrow⟩ := h.exists_tokenBlock hr
  obtain ⟨t', ht', hsig'⟩ := (newTokenBalanceChanges_spec hrow).1
  obtain ⟨x, hx, hxs, hxslot, _⟩ := transactionsRow_mem (h.live d hd) ht
  obtain ⟨x', hx', hxs', hxslot', _⟩ := transactionsRow_mem (h.live d' hd') ht'
  have hxx : x' = x := Table.eq_of_key hx' hx (hxs'.trans (hsig'.trans (hsig.trans hxs.symm)))
  rw [← hslot', ← hxslot', hxx, hxslot]

/-- The signatures of the chain are distinct: they are keys. -/
theorem HoldsLatest.signatures_nodup (h : HoldsLatest blocks st) (fromSlot toSlot : UInt64) :
    (((chainBlocks blocks fromSlot toSlot).flatMap (·.transactions)).map (·.signature)).Nodup := by
  have hslots (slot : Int64) : (slotTables st slot).transactions =
      (st.transactions.rows.map withoutStep).filter (·.slot = slot) := by
    rw [List.filter_map]
    rfl
  have hperm := (h.rows_perm (·.transactions) rfl hslots (between fromSlot toSlot)).map (·.signature)
  have hnodup : (((st.transactions.rows.map withoutStep).filter fun r => between fromSlot toSlot r.slot).map
      (·.signature)).Nodup := by
    have hkeys : ((st.transactions.rows.map withoutStep).map (·.signature)).Nodup := by
      rw [List.map_map]
      exact st.transactions.keyed
    exact hkeys.sublist (List.filter_sublist.map _)
  have hsigs (d : DecodedBlock) :
      (blockTables d).transactions.map (·.signature) = d.transactions.map (·.signature) := by
    simp [blockTables, newTransactions, ParsedBlock.slotRow, parseBlock, transactionsRow]
  rw [List.map_flatMap] at hperm ⊢
  simp only [hsigs] at hperm
  exact (((List.perm_insertionSort _ _).flatMap_right _).trans hperm.symm).nodup_iff.2 hnodup

/-- The rows of a range have the signatures of the chain. -/
theorem HoldsLatest.signature_mem (h : HoldsLatest blocks st) {r : TokenBalanceChangesRow}
    (hr : r ∈ rangeRows fromSlot toSlot st) :
    r.txSignature ∈ ((chainBlocks blocks fromSlot toSlot).flatMap (·.transactions)).map (·.signature) := by
  obtain ⟨hr, hb⟩ := List.mem_filter.1 hr
  obtain ⟨d, hd, hslot, hrow⟩ := h.exists_tokenBlock hr
  obtain ⟨t, ht, hsig⟩ := (newTokenBalanceChanges_spec hrow).1
  rw [← hslot] at hb
  exact List.mem_map.2 ⟨t, List.mem_flatMap.2 ⟨d, mem_chainBlocks.2 ⟨hd, hb⟩, ht⟩, hsig⟩

/-- The code groups the trades of a mint as the chain does, in another order. -/
theorem HoldsLatest.groups_perm (h : HoldsLatest blocks st) {rows : List TokenBalanceChangesRow}
    (hp : rows.Perm (rangeRows fromSlot toSlot st)) (mint : String) :
    ((rowSnapshots (rows.map handedOut)).map (mintTrades A mint)).Perm
      ((chainSnapshots (chainBlocks blocks fromSlot toSlot) (rangeRows fromSlot toSlot st)).map
        (mintTrades A mint)) := by
  have hcoh : Coherent (rangeRows fromSlot toSlot st) := h.coherent.filter fun r => between fromSlot toSlot r.slot
  let sigs := ((chainBlocks blocks fromSlot toSlot).flatMap (·.transactions)).map (·.signature)
  have hsigs : ∀ r ∈ rows.map handedOut, r.1 ∈ sigs := by
    simp only [List.forall_mem_map]
    exact fun r hr => h.signature_mem (hp.mem_iff.1 hr)
  have hperm := (snapshots_perm .stored (rows.map handedOut)).symm.trans
    (snapshotsFromBalanceRows_perm .stored (h.signatures_nodup fromSlot toSlot) hsigs)
  simp only [rowSnapshot_handedOut] at hperm
  have hgroups : (sigs.filterMap fun sig => snapshotOf sig (txRows rows sig)).map (mintTrades A mint) =
      (chainSnapshots (chainBlocks blocks fromSlot toSlot) (rangeRows fromSlot toSlot st)).map (mintTrades A mint) := by
    rw [chainSnapshots, List.map_filterMap, List.map_filterMap, List.filterMap_map]
    apply List.filterMap_congr
    intro t _
    exact map_mintTrades_perm hcoh hp t.signature mint
  rw [← hgroups]
  exact hperm.map _

/-- A snapshot of the chain has the time of its block. -/
theorem HoldsLatest.snapshot_time (h : HoldsLatest blocks st) {d : DecodedBlock} (hd : d ∈ latest blocks)
    {t : DecodedTransaction} (ht : t ∈ d.transactions) {tx : TxSnapshot}
    (htx : snapshotOf t.signature (txRows (rangeRows fromSlot toSlot st) t.signature) = some tx) :
    d.blockTime = some tx.blockTime := by
  have hcoh : Coherent (rangeRows fromSlot toSlot st) := h.coherent.filter fun r => between fromSlot toSlot r.slot
  obtain ⟨_, htime, _⟩ := snapshotOf_spec hcoh htx
  cases hrows : txRows (rangeRows fromSlot toSlot st) t.signature with
  | nil =>
    rw [hrows] at htx
    cases htx
  | cons r rs =>
    have hr : r ∈ txRows (rangeRows fromSlot toSlot st) t.signature := hrows ▸ List.mem_cons_self
    obtain ⟨hr, hsig, _⟩ := mem_txRows.1 hr
    have hmem : r ∈ st.tokenBalanceChanges.rows := List.mem_of_mem_filter hr
    rw [← htime r hr hsig, h.blockTime_eq hd hmem (h.slot_of_signature hd ht hmem hsig)]

/-- Over blocks in time order the trades of the chain are in time order. -/
theorem HoldsLatest.chainTrades_sorted (h : HoldsLatest blocks st)
    (htimes : (chainBlocks blocks fromSlot toSlot).Pairwise fun d e => ∀ s ∈ d.blockTime, ∀ t ∈ e.blockTime, s ≤ t) :
    (chainTrades A (chainBlocks blocks fromSlot toSlot) (rangeRows fromSlot toSlot st)).Pairwise fun s t =>
      s.blockTime ≤ t.blockTime := by
  have hsnapshots : (chainSnapshots (chainBlocks blocks fromSlot toSlot) (rangeRows fromSlot toSlot st)).Pairwise
      fun tx tx' => tx.blockTime ≤ tx'.blockTime := by
    rw [chainSnapshots, List.filterMap_flatMap, List.pairwise_flatMap]
    constructor
    · intro d hd
      refine List.pairwise_of_forall_mem_list fun tx htx tx' htx' => ?_
      obtain ⟨t, ht, htx⟩ := List.mem_filterMap.1 htx
      obtain ⟨t', ht', htx'⟩ := List.mem_filterMap.1 htx'
      have hd := (mem_chainBlocks.1 hd).1
      have := (h.snapshot_time hd ht htx).symm.trans (h.snapshot_time hd ht' htx')
      exact le_of_eq (Option.some.inj this)
    · refine htimes.imp_of_mem fun {d e} hd he hle tx htx tx' htx' => ?_
      obtain ⟨t, ht, htx⟩ := List.mem_filterMap.1 htx
      obtain ⟨t', ht', htx'⟩ := List.mem_filterMap.1 htx'
      exact hle _ (h.snapshot_time (mem_chainBlocks.1 hd).1 ht htx)
        _ (h.snapshot_time (mem_chainBlocks.1 he).1 ht' htx')
  rw [chainTrades, List.pairwise_flatMap]
  constructor
  · intro tx _
    refine List.pairwise_of_forall_mem_list fun s hs t ht => ?_
    rw [inferTrades_blockTime hs, inferTrades_blockTime ht]
  · refine hsnapshots.imp fun hle s hs t ht => ?_
    rwa [inferTrades_blockTime hs, inferTrades_blockTime ht]

end Chain

/-! ## The candles -/

theorem chainTrades_filter (chain : List DecodedBlock) (rows : List TokenBalanceChangesRow) (mint : String) :
    (chainTrades A chain rows).filter (·.mint = mint) =
      ((chainSnapshots chain rows).map (mintTrades A mint)).flatten := by
  rw [chainTrades, List.filter_flatMap, List.flatMap_def]
  rfl

/-- In time order, following the chain is to open and close at the prices of the chain. -/
theorem followsChain_iff {interval : ℤ} {trades : List InferredTrade}
    (h : trades.Pairwise fun s t => s.blockTime ≤ t.blockTime) {mint : String} {c : Candle} :
    FollowsChain interval trades mint c ↔
      openPrice interval c.bucketStart (trades.filter (·.mint = mint)) = some c.open ∧
      closePrice interval c.bucketStart (trades.filter (·.mint = mint)) = some c.close := by
  have hbucket : bucketTrades interval c.bucketStart (trades.filter (·.mint = mint)) =
      trades.filter fun t => t.mint = mint ∧ bucketStart t.blockTime interval = c.bucketStart := by
    rw [bucketTrades_of_sorted (h.filter _), List.filter_filter]
    apply List.filter_congr
    intro t _
    simp [Bool.and_comm]
  rw [openPrice, closePrice, hbucket]
  exact ⟨fun hc => ⟨hc.opens, hc.closes⟩, fun hc => ⟨hc.1, hc.2⟩⟩

/-- The candles of some rows follow the chain when they have its opens and closes. -/
theorem HoldsLatest.candles_follow_iff {blocks : List DecodedBlock} {st : Store} (h : HoldsLatest blocks st)
    {fromSlot toSlot : UInt64}
    (htimes : (chainBlocks blocks fromSlot toSlot).Pairwise fun d e => ∀ s ∈ d.blockTime, ∀ t ∈ e.blockTime, s ≤ t)
    {rows : List TokenBalanceChangesRow} (hp : rows.Perm (rangeRows fromSlot toSlot st)) (ordS ordC : HashMap.IterOrder)
    (interval : ℤ) (mint : String) :
    let chain := chainTrades A (chainBlocks blocks fromSlot toSlot) (rangeRows fromSlot toSlot st)
    let trades := tradesOf A ordS (rows.map handedOut)
    (∀ c ∈ ((buildCandles A ordC trades interval).lookup mint).getD [], FollowsChain interval chain mint c) ↔
    ∀ k, openPrice interval k (trades.filter (·.mint = mint)) = openPrice interval k (chain.filter (·.mint = mint)) ∧
      closePrice interval k (trades.filter (·.mint = mint)) = closePrice interval k (chain.filter (·.mint = mint)) := by
  have hperm :=
    (((snapshots_perm ordS (rows.map handedOut)).map (mintTrades A mint)).trans (h.groups_perm hp mint)).flatten
  rw [← tradesOf_filter, ← chainTrades_filter] at hperm
  simp only [buildCandles_lookup, followsChain_iff (h.chainTrades_sorted htimes)]
  exact forall_candleSeries_iff ordC hperm interval

/-- **When candles follow the chain.** After a run of accepted flushes on an empty store, where the blocks of a slot
range have non-decreasing times, the candles of the range open and close in chain order, in whatever orders the code
meets rows and hash maps, if and only if ties agree among the transactions of the chain. -/
theorem chainOrder_iff (f : Faults) (batches : List (List DecodedBlock)) (n : ℕ) (c : Conn Store)
    (hrun : flushAll f batches ⟨.empty, none, n⟩ = (.ok (), c)) (fromSlot toSlot : UInt64)
    (htimes : (chainBlocks batches.flatten fromSlot toSlot).Pairwise fun d e =>
      ∀ s ∈ d.blockTime, ∀ t ∈ e.blockTime, s ≤ t) (interval : ℤ) :
    (∀ ordR rows, queryBalanceChangesForRange ordR fromSlot toSlot c.store = .ok rows → ∀ ordS ordC mint,
      ∀ candle ∈ ((buildCandles A ordC (tradesOf A ordS rows) interval).lookup mint).getD [],
        FollowsChain interval (chainTrades A (chainBlocks batches.flatten fromSlot toSlot)
          (rangeRows fromSlot toSlot c.store)) mint candle) ↔
    TxTiesAgree A interval (chainSnapshots (chainBlocks batches.flatten fromSlot toSlot)
      (rangeRows fromSlot toSlot c.store)) := by
  have h := flushAll_tables hrun
  have hquery (ordR : HashMap.IterOrder) :=
    queryBalanceChangesForRange_eq_ok ordR fromSlot toSlot fun r hr _ => h.readable r hr
  constructor
  · intro hall mint
    obtain ⟨rows, hp, hok⟩ := hquery .stored
    have hties : TiesAgree interval ((rowSnapshots (rows.map handedOut)).map (mintTrades A mint)) :=
      tiesAgree_of_tradesOf fun ordS k =>
        (h.candles_follow_iff htimes hp ordS .stored interval mint).1 (hall .stored _ hok ordS .stored mint) k
    exact hties.perm (h.groups_perm hp mint).symm
  · intro hties ordR rows hok ordS ordC mint
    obtain ⟨rows', hp, hok'⟩ := hquery ordR
    rw [hok, Except.ok.injEq] at hok'
    subst hok'
    refine (h.candles_follow_iff htimes hp ordS ordC interval mint).2 fun k => ?_
    rw [tradesOf_filter, chainTrades_filter]
    exact (hties mint).prices (((snapshots_perm ordS _).map (mintTrades A mint)).trans (h.groups_perm hp mint)) k

/-- A block with one transaction that sells `amount` tokens for one SOL. -/
def swapBlock (slot : UInt64) (time : ℤ) (sig : String) (amount : UInt64) : DecodedBlock :=
  { slot, blockTime := some time,
    transactions := [⟨sig, slot, some time, [], [], [⟨wsolMint, 0, 1000000000, 9⟩, ⟨"mint", amount, 0, 0⟩], false⟩] }

/-- Slot 1 is flushed twice, the second time with a swap in slot 2 half a minute later. -/
def swapBatches : List (List DecodedBlock) := [[swapBlock 1 0 "a" 50], [swapBlock 1 0 "a" 10, swapBlock 2 30 "b" 20]]

/-- Two swaps at different times: in `f64` their candle opens and closes in chain order. -/
theorem chainOrder_iff_example : ∃ c rows candle,
    flushAll (fun _ => false) swapBatches ⟨.empty, none, 0⟩ = (.ok (), c) ∧
    queryBalanceChangesForRange .stored 1 2 c.store = .ok rows ∧
    (buildCandles .binary64 .stored (tradesOf .binary64 .stored rows) 60).lookup "mint" = some [candle] ∧
    candle.open = Arithmetic.binary64.round (1 / 10) ∧ candle.close = Arithmetic.binary64.round (1 / 20) ∧
    FollowsChain 60 (chainTrades .binary64 (chainBlocks swapBatches.flatten 1 2) (rangeRows 1 2 c.store))
      "mint" candle := by
  let price (x : ℚ) := Arithmetic.binary64.round x
  refine ⟨_, _, ⟨0, price (1 / 10), price (1 / 10), price (1 / 20), price (1 / 20), 2⟩, rfl,
    rfl, by decide +kernel, rfl, rfl, ?_⟩
  refine (chainOrder_iff (fun _ => false) swapBatches 0 _ rfl 1 2 (by decide +kernel) 60).2
    (fun mint => tiesAgree_of_times (List.pairwise_map.2 ?_)) .stored _ rfl .stored .stored "mint" _ (by decide +kernel)
  have htimes : (chainSnapshots (chainBlocks swapBatches.flatten 1 2) (rangeRows 1 2
      (flushAll (fun _ => false) swapBatches ⟨.empty, none, 0⟩).2.store)).Pairwise
      fun tx tx' => tx.blockTime ≠ tx'.blockTime := by decide +kernel
  refine htimes.imp fun hne s hs t ht he => hne ?_
  rwa [inferTrades_blockTime (List.mem_of_mem_filter hs), inferTrades_blockTime (List.mem_of_mem_filter ht)] at he

/-- Two slots in one second: the candle opens at the price of the second one. -/
theorem chainOrder_reversed : ¬∀ (f : Faults) (batches : List (List DecodedBlock)) (n : ℕ) (c : Conn Store),
    flushAll f batches ⟨.empty, none, n⟩ = (.ok (), c) → ∀ fromSlot toSlot,
    ((chainBlocks batches.flatten fromSlot toSlot).Pairwise fun d e => ∀ s ∈ d.blockTime, ∀ t ∈ e.blockTime, s ≤ t) →
    ∀ interval ordR rows, queryBalanceChangesForRange ordR fromSlot toSlot c.store = .ok rows → ∀ ordS ordC mint,
      ∀ candle ∈ ((buildCandles .binary64 ordC (tradesOf .binary64 ordS rows) interval).lookup mint).getD [],
        FollowsChain interval (chainTrades .binary64 (chainBlocks batches.flatten fromSlot toSlot)
          (rangeRows fromSlot toSlot c.store)) mint candle := by
  intro h
  let price (x : ℚ) := Arithmetic.binary64.round x
  have hopens := (h (fun _ => false) [[swapBlock 1 0 "a" 10, swapBlock 2 0 "b" 20]] 0 _ rfl 1 2
    (List.pairwise_pair.2 (by decide)) 60 .stored _ rfl .stored .stored "mint"
    ⟨0, price (1 / 20), price (1 / 10), price (1 / 20), price (1 / 10), 2⟩ (by decide +kernel)).opens
  revert hopens
  decide +kernel

end Tenso.Cli
