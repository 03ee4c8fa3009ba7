import Tenso.Cli.Parse
import Tenso.Storage.Atomic
import Tenso.Storage.Columns

/-!
# Netting on both sides of the parse stage

Decoding nets the token changes of a transaction by mint (`coalesceTokenDeltas`), storage nets the token changes of a
slot by signature and mint (`coalesceTokenBalanceRows`). Both are `Netting.netBy`: on the rows of one signature
storage does what decoding does (`coalesce_filter`), so it leaves alone what decoding has netted (`netting_agrees`).
-/

namespace Tenso.Cli

open Ingest Storage

/-- A row of a slot as a token delta of its transaction. -/
def rowDelta (r : TokenBalanceRow) : TokenBalanceChange :=
  let (_, mint, preAmount, postAmount, decimals) := r
  { mint, preAmount, postAmount, decimals }

/-- A token delta as a row of its slot. -/
def withSignature (sig : String) (d : TokenBalanceChange) : TokenBalanceRow :=
  (sig, d.mint, d.preAmount, d.postAmount, d.decimals)

/-- The mint of a key, if its signature is `sig`. -/
def mintOf (sig : String) (k : String × String) : Option String := if k.1 = sig then some k.2 else none

theorem mintOf_injective (sig : String) (k l : String × String) (m : String) (hk : mintOf sig k = some m)
    (hl : mintOf sig l = some m) : k = l := by
  simp only [mintOf, Option.ite_none_right_eq_some, Option.some.injEq] at hk hl
  exact Prod.ext (hk.1.trans hl.1.symm) (hk.2.trans hl.2.symm)

/-! ## The rows of one signature -/

theorem renameKey_tokenNetItem (sig : String) (r : TokenBalanceRow) : Netting.renameKey (mintOf sig) (tokenNetItem r) =
    if r.1 = sig then some (rowDelta r).netItem else none := by
  obtain ⟨s, mint, pre, post, decimals⟩ := r
  by_cases h : s = sig <;> simp [Netting.renameKey, mintOf, tokenNetItem, rowDelta, TokenBalanceChange.netItem,
    TokenBalanceChange.delta, h]

/-- The changes of the rows of `sig`, by mint. -/
theorem filterMap_tokenNetItem (sig : String) (rows : List TokenBalanceRow) :
    (rows.map tokenNetItem).filterMap (Netting.renameKey (mintOf sig)) =
      ((rows.filter (·.1 = sig)).map rowDelta).map (·.netItem) := by
  rw [List.filterMap_map, List.map_map, ← List.filterMap_eq_map, List.filterMap_filter]
  apply List.filterMap_congr
  intro r _
  simp only [Function.comp_apply, renameKey_tokenNetItem, decide_eq_true_eq]

/-- The rows of a signature are netted as decoding nets its deltas: in the same order, with the same decimals and the
same amounts. -/
theorem coalesce_filter (rows : List TokenBalanceRow) (sig : String) :
    (coalesceTokenBalanceRows rows).filter (·.1 = sig) =
      (coalesceTokenDeltas ((rows.filter (·.1 = sig)).map rowDelta)).map (withSignature sig) := by
  rw [coalesceTokenDeltas, ← filterMap_tokenNetItem, Netting.netBy_filterMap (mintOf_injective sig),
    coalesceTokenBalanceRows, List.filter_map, List.map_map, List.map_filterMap, ← List.filterMap_eq_map,
    List.filterMap_filter]
  apply List.filterMap_congr
  rintro ⟨⟨s, mint⟩, n, decimals⟩ _
  by_cases h : s = sig <;> simp [Netting.renameKey, mintOf, withSignature, h]

/-! ## What decoding emits -/

/-- The changes of the accounts of a transaction, before they are netted. -/
def accountDeltas (pre post : List RawTokenBalance) : List TokenBalanceChange :=
  post.filterMap (postDelta pre) ++ pre.filterMap (closedDelta post)

/-- The token deltas that decoding emits for some balance lists, with nets below `2 ^ 64`. -/
def DecodedDeltas (deltas : List TokenBalanceChange) : Prop :=
  ∃ pre post, deltas = buildTokenDeltas pre post ∧
    ∀ mint, |Netting.total ((accountDeltas pre post).map (·.netItem)) mint| < 2 ^ 64

/-- The amounts of a delta are those of its net, which is not `0`. -/
def Settled (d : TokenBalanceChange) : Prop := d.delta ≠ 0 ∧ Netting.oneSided d.delta = (d.preAmount, d.postAmount)

/-- Decoding emits settled deltas, one for each mint. -/
theorem DecodedDeltas.settled {deltas : List TokenBalanceChange} (h : DecodedDeltas deltas) :
    (deltas.map (·.mint)).Nodup ∧ ∀ d ∈ deltas, Settled d := by
  obtain ⟨pre, post, rfl, hnets⟩ := h
  constructor
  · have hkeys := Netting.netBy_keys_nodup ((accountDeltas pre post).map (·.netItem))
    rw [buildTokenDeltas, coalesceTokenDeltas, List.map_map]
    exact hkeys
  · intro d hd
    obtain ⟨⟨mint, n, decimals⟩, he, rfl⟩ := List.mem_map.1 hd
    obtain ⟨_, hn, h0⟩ := Netting.mem_netBy.1 he
    have hbound : |n| < 2 ^ 64 := by
      rw [hn]
      exact hnets mint
    obtain ⟨hdelta, _⟩ := Netting.oneSided_exact (neg_lt_of_abs_lt hbound) (lt_of_abs_lt hbound)
    have hd' : TokenBalanceChange.delta ⟨mint, (Netting.oneSided n).1, (Netting.oneSided n).2, decimals⟩ = n := hdelta
    exact ⟨by rw [hd']; exact h0, by rw [hd']⟩

/-! ## The rows of a parsed block -/

theorem parseBlock_tokenChanges (block : DecodedBlock) : (parseBlock block).tokenChanges =
    (block.transactions.filter fun t => !t.failed).flatMap fun t => t.tokenDeltas.map (withSignature t.signature) := rfl

/-- With distinct signatures, and distinct items in each transaction, the signed items are distinct. -/
theorem nodup_signed {β : Type} {txs : List DecodedTransaction} (hd : (txs.map (·.signature)).Nodup)
    {items : DecodedTransaction → List β} (h : ∀ t ∈ txs, (items t).Nodup) :
    (txs.flatMap fun t => (items t).map fun b => (t.signature, b)).Nodup := by
  rw [List.nodup_flatMap]
  constructor
  · intro t ht
    exact (h t ht).map fun _ _ he => (Prod.mk.inj he).2
  · rw [List.Nodup, List.pairwise_map] at hd
    apply hd.imp
    intro t u hne k hk hk'
    obtain ⟨d, _, rfl⟩ := List.mem_map.1 hk
    obtain ⟨d', _, he⟩ := List.mem_map.1 hk'
    exact hne (Prod.mk.inj he).1.symm

/-- With distinct signatures, and distinct mints in each transaction, the keys of the rows are distinct. -/
theorem tokenChanges_keys_nodup {txs : List DecodedTransaction} (hd : (txs.map (·.signature)).Nodup)
    (hmints : ∀ t ∈ txs, (t.tokenDeltas.map (·.mint)).Nodup) :
    (((txs.flatMap fun t => t.tokenDeltas.map (withSignature t.signature)).map tokenNetItem).map (·.1)).Nodup := by
  have hkeys := nodup_signed hd hmints
  simp only [List.map_map] at hkeys
  simp only [List.map_flatMap, List.map_map]
  exact hkeys

/-- Storage leaves netted rows alone. -/
theorem coalesce_parseBlock {block : DecodedBlock} (hd : (block.transactions.map (·.signature)).Nodup)
    (h : ∀ t ∈ block.transactions, DecodedDeltas t.tokenDeltas) :
    coalesceTokenBalanceRows (parseBlock block).tokenChanges = (parseBlock block).tokenChanges := by
  have hrow : ∀ r ∈ (parseBlock block).tokenChanges, ∃ s d, Settled d ∧ r = withSignature s d := by
    intro r hr
    rw [parseBlock_tokenChanges, List.mem_flatMap] at hr
    obtain ⟨t, ht, hr⟩ := hr
    obtain ⟨d, hd, rfl⟩ := List.mem_map.1 hr
    exact ⟨_, d, (h t (List.mem_of_mem_filter ht)).settled.2 d hd, rfl⟩
  rw [coalesceTokenBalanceRows, Netting.netBy_eq_self, List.map_map]
  · conv => rhs; rw [← List.map_id (parseBlock block).tokenChanges]
    apply List.map_congr_left
    intro r hr
    obtain ⟨s, d, ⟨_, hside⟩, rfl⟩ := hrow r hr
    have hside' : Netting.oneSided ((d.postAmount.toNat : ℤ) - d.preAmount.toNat) = (d.preAmount, d.postAmount) := hside
    simp [tokenNetItem, withSignature, hside']
  · rw [parseBlock_tokenChanges]
    apply tokenChanges_keys_nodup (hd.sublist (List.filter_sublist.map _))
    exact fun t ht => (h t (List.mem_of_mem_filter ht)).settled.1
  · intro c hc
    obtain ⟨r, hr, rfl⟩ := List.mem_map.1 hc
    obtain ⟨s, d, ⟨h0, _⟩, rfl⟩ := hrow r hr
    exact h0

/-- A stored row as it was handed to storage. -/
def handedIn (r : TokenBalanceChangesRow) : TokenBalanceRow :=
  (r.txSignature, r.mint, r.preAmount, r.postAmount, UInt8.ofInt r.decimals.toInt)

theorem handedIn_of_ok {slot : Int64} {blockTime : Option ℤ} {x : TokenBalanceRow} {r : TokenBalanceChangesRow}
    (h : tokenBalanceChangesRow slot blockTime x = .ok r) : handedIn r = x := by
  obtain ⟨sig, mint, pre, post, d⟩ := x
  obtain ⟨hsig, _, _, hmint, hpre, hpost, hd⟩ := tokenBalanceChangesRow_eq_ok h
  simp only [handedIn, hsig, hmint, hpre, hpost, hd, ofInt_toNat]

/-- Rows that are in range are stored as they are netted. -/
theorem map_handedIn {row : SlotBatchRow} (h : InRange row) :
    (newTokenBalanceChanges row).map handedIn = coalesceTokenBalanceRows row.tokenChanges := by
  rw [InRange, tokenRows] at h
  generalize newTokenBalanceChanges row = rows at h
  generalize coalesceTokenBalanceRows row.tokenChanges = xs at h
  induction xs generalizing rows with
  | nil => simpa using h.symm
  | cons x xs ih =>
    cases rows with
    | nil => cases h
    | cons r rows =>
      rw [List.map_cons, List.map_cons, List.cons.injEq] at h
      rw [List.map_cons, handedIn_of_ok h.1, ih rows h.2]

/-- **The two implementations of netting agree.** The rows that storage nets for a signature are those that decoding
would net for it. So storing the rows of a decoded block with nets below `2 ^ 64` neither merges nor drops nor alters
a delta that decoding emitted. -/
theorem netting_agrees :
    (∀ (rows : List TokenBalanceRow) (sig : String), (coalesceTokenBalanceRows rows).filter (·.1 = sig) =
      (coalesceTokenDeltas ((rows.filter (·.1 = sig)).map rowDelta)).map (withSignature sig)) ∧
    ∀ block : DecodedBlock, (block.transactions.map (·.signature)).Nodup →
      (∀ t ∈ block.transactions, DecodedDeltas t.tokenDeltas) →
      coalesceTokenBalanceRows (parseBlock block).tokenChanges = (parseBlock block).tokenChanges ∧
      ∀ f st n c, replaceSlotsBatch f [(parseBlock block).slotRow] ⟨st, none, n⟩ = (.ok (), c) →
        (c.store.tokenBalanceChanges.rows.filter (·.slot = block.slot.toInt64)).map handedIn =
          (parseBlock block).tokenChanges := by
  refine ⟨coalesce_filter, fun block hd h => ⟨coalesce_parseBlock hd h, fun f st n c hrun => ?_⟩⟩
  have hholds := holds_of_ok hrun
  have hrows := hholds.tokenBalanceChanges
  rw [slotRow_slot, parseBlock_slot] at hrows
  rw [hrows, map_handedIn hholds.inRange]
  exact coalesce_parseBlock hd h

/-- A block whose one transaction moves tokens of a mint between two accounts and gains 3. -/
def nettedBlock : DecodedBlock :=
  { slot := 1, blockTime := none,
    transactions := [⟨"sig", 1, none, [], [], buildTokenDeltas [⟨0, "mint", ⟨"10", 6⟩⟩]
      [⟨0, "mint", ⟨"4", 6⟩⟩, ⟨1, "mint", ⟨"9", 6⟩⟩], false⟩] }

/-- Two changes of a mint are netted by decoding, and storage keeps the net. -/
theorem netting_agrees_example : ∃ c,
    replaceSlotsBatch (fun _ => false) [(parseBlock nettedBlock).slotRow] ⟨.empty, none, 0⟩ = (.ok (), c) ∧
    (c.store.tokenBalanceChanges.rows.filter (·.slot = 1)).map handedIn = [("sig", "mint", 0, 3, 6)] := by
  refine ⟨_, rfl, ((netting_agrees.2 nettedBlock (by decide) ?_).2 (fun _ => false) .empty 0 _ rfl).trans rfl⟩
  intro t ht
  rw [List.mem_singleton.1 ht]
  refine ⟨_, _, rfl, fun mint => ?_⟩
  have hdeltas : (accountDeltas [⟨0, "mint", ⟨"10", 6⟩⟩] [⟨0, "mint", ⟨"4", 6⟩⟩, ⟨1, "mint", ⟨"9", 6⟩⟩]).map
      (·.netItem) = [("mint", -6, 6), ("mint", 9, 6)] := by decide +kernel
  rw [hdeltas]
  by_cases h : "mint" = mint <;> simp [Netting.total, h]

end Tenso.Cli
