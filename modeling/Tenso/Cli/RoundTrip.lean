import Tenso.Cli.Flush
import Tenso.Cli.TokenRows
import Tenso.Storage.Query

/-!
# The way of a token row through storage

An amount goes from `u64` through `i64` into a `UBIGINT` column and back through `i64`, the decimals from `u8` through
`i32` into a `TINYINT` column. The way in fails on an amount from `2 ^ 63` on and on decimals from `128` on, and with
it the whole batch. So the net rows of a block come back as they were exactly when all of them fit
(`survivesStorage_iff`).
-/

namespace Tenso.Cli

open Ingest Storage

/-! ## Storing a new block -/

/-- The keys stay distinct when a group is replaced by rows with new keys. -/
theorem replaceGroup_keyed {ρ κ : Type} {key : ρ → κ} (t : Table key) (slotOf : ρ → Int64) (slot : Int64) {new : List ρ}
    (hd : (new.map key).Nodup) (hnew : ∀ r ∈ t.rows, ∀ r' ∈ new, key r ≠ key r') :
    ((Groups.replaceGroup slotOf t.rows (slot, new)).map key).Nodup := by
  rw [Groups.replaceGroup, List.map_append, List.nodup_append]
  refine ⟨t.keyed.sublist (List.filter_sublist.map _), hd, ?_⟩
  intro a ha b hb
  obtain ⟨r, hr, rfl⟩ := List.mem_map.1 ha
  obtain ⟨r', hr', rfl⟩ := List.mem_map.1 hb
  exact hnew r (List.mem_of_mem_filter hr) r' hr'

/-- The store holds no row of a transaction with the signature. -/
structure HoldsNone (st : Store) (sig : String) : Prop where
  transactions : ∀ r ∈ st.transactions.rows, r.signature ≠ sig
  accountLocks : ∀ r ∈ st.accountLocks.rows, r.txSignature ≠ sig
  tokenBalanceChanges : ∀ r ∈ st.tokenBalanceChanges.rows, r.txSignature ≠ sig

/-- A block that the store can take for the first time: distinct signatures, none of them in the store, and distinct
accounts in each transaction. -/
structure NewBlock (st : Store) (block : DecodedBlock) : Prop where
  signatures : (block.transactions.map (·.signature)).Nodup
  accounts : ∀ t ∈ block.transactions, (t.locks.map (·.account)).Nodup
  holdsNone : ∀ t ∈ block.transactions, HoldsNone st t.signature

theorem newTransactions_signature {block : DecodedBlock} {r : TransactionsRow}
    (hr : r ∈ newTransactions (parseBlock block).slotRow) : ∃ t ∈ block.transactions, t.signature = r.signature := by
  obtain ⟨x, hx, rfl⟩ := List.mem_map.1 hr
  obtain ⟨t, ht, rfl⟩ := List.mem_map.1 hx
  exact ⟨t, ht, rfl⟩

theorem newAccountLocks_signature {block : DecodedBlock} {r : AccountLocksRow}
    (hr : r ∈ newAccountLocks (parseBlock block).slotRow) : ∃ t ∈ block.transactions, t.signature = r.txSignature := by
  obtain ⟨x, hx, rfl⟩ := List.mem_map.1 hr
  obtain ⟨t, ht, hx⟩ := List.mem_flatMap.1 hx
  obtain ⟨l, _, rfl⟩ := List.mem_map.1 hx
  exact ⟨t, ht, rfl⟩

theorem newTokenBalanceChanges_signature {block : DecodedBlock} {r : TokenBalanceChangesRow}
    (hr : r ∈ newTokenBalanceChanges (parseBlock block).slotRow) :
    ∃ t ∈ block.transactions, t.failed = false ∧ t.signature = r.txSignature := by
  obtain ⟨⟨sig, mint, pre, post, d⟩, hx, he⟩ := mem_newTokenBalanceChanges.1 hr
  obtain ⟨rfl, _⟩ := tokenBalanceChangesRow_eq_ok he
  obtain ⟨hd, _⟩ := mem_coalesceTokenBalanceRows.1 hx
  obtain ⟨c, hc, hkey, _⟩ := Netting.exists_of_firstTag hd
  obtain ⟨x, hx, rfl⟩ := List.mem_map.1 hc
  obtain ⟨t, ht, hx⟩ := List.mem_flatMap.1 hx
  obtain ⟨d', _, rfl⟩ := List.mem_map.1 hx
  obtain ⟨ht, hf⟩ := List.mem_filter.1 ht
  exact ⟨t, ht, by simpa using hf, (Prod.mk.inj hkey).1⟩

theorem newAccountLocks_keys_nodup {block : DecodedBlock} (hd : (block.transactions.map (·.signature)).Nodup)
    (h : ∀ t ∈ block.transactions, (t.locks.map (·.account)).Nodup) :
    ((newAccountLocks (parseBlock block).slotRow).map (·.key)).Nodup := by
  have hkeys := nodup_signed hd h
  simp only [List.map_map] at hkeys
  simp only [newAccountLocks, ParsedBlock.slotRow, parseBlock, List.map_flatMap, List.map_map]
  exact hkeys

theorem newTokenBalanceChanges_keys_nodup {row : SlotBatchRow} (hr : InRange row) :
    ((newTokenBalanceChanges row).map (·.key)).Nodup := by
  have hkeys := Netting.netBy_keys_nodup (row.tokenChanges.map tokenNetItem)
  have hmap : (newTokenBalanceChanges row).map (·.key) =
      ((newTokenBalanceChanges row).map handedIn).map fun x => (x.1, x.2.1) := by
    rw [List.map_map]
    rfl
  rw [hmap, map_handedIn hr, coalesceTokenBalanceRows, List.map_map]
  exact hkeys

/-- A new block is stored when its rows are in range. -/
theorem NewBlock.replaces {st : Store} {block : DecodedBlock} (h : NewBlock st block)
    (hr : InRange (parseBlock block).slotRow) : ∃ st', Replaces (parseBlock block).slotRow st st' := by
  have htx : ((Groups.replaceGroup TransactionsRow.slot st.transactions.rows
      (block.slot.toInt64, newTransactions (parseBlock block).slotRow)).map TransactionsRow.signature).Nodup := by
    apply replaceGroup_keyed
    · rw [newTransactions_signatures]
      exact h.signatures
    · intro r hr r' hr' he
      obtain ⟨t, ht, hs⟩ := newTransactions_signature hr'
      exact (h.holdsNone t ht).transactions r hr (by rw [hs, he])
  have hlock : ((Groups.replaceGroup AccountLocksRow.slot st.accountLocks.rows
      (block.slot.toInt64, newAccountLocks (parseBlock block).slotRow)).map AccountLocksRow.key).Nodup := by
    apply replaceGroup_keyed
    · exact newAccountLocks_keys_nodup h.signatures h.accounts
    · intro r hr r' hr' he
      obtain ⟨t, ht, hs⟩ := newAccountLocks_signature hr'
      exact (h.holdsNone t ht).accountLocks r hr (by rw [hs]; exact (Prod.mk.inj he).1)
  have htok : ((Groups.replaceGroup TokenBalanceChangesRow.slot st.tokenBalanceChanges.rows
      (block.slot.toInt64, newTokenBalanceChanges (parseBlock block).slotRow)).map
        TokenBalanceChangesRow.key).Nodup := by
    apply replaceGroup_keyed
    · exact newTokenBalanceChanges_keys_nodup hr
    · intro r hr r' hr' he
      obtain ⟨t, ht, _, hs⟩ := newTokenBalanceChanges_signature hr'
      exact (h.holdsNone t ht).tokenBalanceChanges r hr (by rw [hs]; exact (Prod.mk.inj he).1)
  exact ⟨{ st with
    blocks := st.blocks.upsert (blocksRow (parseBlock block).slotRow)
    transactions := ⟨_, htx⟩, accountLocks := ⟨_, hlock⟩, tokenBalanceChanges := ⟨_, htok⟩ },
    hr, rfl, rfl, rfl, rfl, rfl, rfl⟩

/-! ## The round trip -/

/-- A net change with its amounts as numbers. -/
structure NetRow where
  signature : String
  slot : UInt64
  blockTime : Option ℤ
  mint : String
  preAmount : ℕ
  postAmount : ℕ
  decimals : UInt8
  deriving DecidableEq

/-- The net rows of a block: for each signature and mint of its successful transactions the net change, if it is not
`0`, as what went out or what came in. -/
def netRows (block : DecodedBlock) : List NetRow :=
  (Netting.netBy ((parseBlock block).tokenChanges.map tokenNetItem)).map fun ((signature, mint), n, decimals) =>
    { signature, slot := block.slot, blockTime := block.blockTime, mint, preAmount := (-n).toNat, postAmount := n.toNat,
      decimals }

/-- A row of the query as a net row. -/
def netRow (x : BalanceChangeRow) : NetRow :=
  let (signature, slot, blockTime, mint, preAmount, postAmount, decimals) := x
  { signature, slot, blockTime, mint, preAmount := preAmount.toNat, postAmount := postAmount.toNat, decimals }

/-- The token rows of the block survive storage: without a database fault the block is stored, and the query for its
slot gives its net rows. -/
def SurvivesStorage (ord : HashMap.IterOrder) (block : DecodedBlock) (st : Store) (n : ℕ) : Prop :=
  ∃ st' m, replaceSlotsBatch (fun _ => false) [(parseBlock block).slotRow] ⟨st, none, n⟩ = (.ok (), ⟨st', none, m⟩) ∧
    ∃ xs, queryBalanceChangesForRange ord block.slot block.slot st' = .ok xs ∧ (xs.map netRow).Perm (netRows block)

/-- The net rows fit their columns: the amounts are below `2 ^ 63` and the decimals below `128`. -/
def FitsColumns (block : DecodedBlock) : Prop :=
  ∀ r ∈ netRows block, r.preAmount < 2 ^ 63 ∧ r.postAmount < 2 ^ 63 ∧ r.decimals.toNat < 128

theorem between_self (slot : UInt64) (x : Int64) : between slot slot x = decide (x = slot.toInt64) := by
  rw [between, decide_eq_decide]
  exact ⟨fun h => Int64.le_antisymm h.2 h.1, fun h => by rw [h]; exact ⟨Int64.le_refl _, Int64.le_refl _⟩⟩

/-- The net row of a row that is handed to storage. -/
def netRowOf (block : DecodedBlock) (x : TokenBalanceRow) : NetRow :=
  let (signature, mint, preAmount, postAmount, decimals) := x
  { signature, slot := block.slot, blockTime := block.blockTime, mint, preAmount := preAmount.toNat,
    postAmount := postAmount.toNat, decimals }

/-- A stored row of a block comes back as it was handed in. -/
theorem netRow_handedOut {block : DecodedBlock} {r : TokenBalanceChangesRow}
    (hr : r ∈ newTokenBalanceChanges (parseBlock block).slotRow) :
    netRow (handedOut r) = netRowOf block (handedIn r) := by
  obtain ⟨⟨sig, mint, pre, post, d⟩, _, he⟩ := mem_newTokenBalanceChanges.1 hr
  obtain ⟨_, hslot, htime, _⟩ := tokenBalanceChangesRow_eq_ok he
  have hslot' : r.slot.toUInt64 = block.slot := by
    rw [hslot]
    exact UInt64.toUInt64_toInt64 _
  simp only [netRow, handedOut, netRowOf, handedIn, hslot', htime]
  rfl

/-- Nets that fit are netted exactly. -/
theorem map_netRowOf {block : DecodedBlock} (h : FitsColumns block) :
    (coalesceTokenBalanceRows (parseBlock block).slotRow.tokenChanges).map (netRowOf block) = netRows block := by
  rw [coalesceTokenBalanceRows, List.map_map, netRows]
  apply List.map_congr_left
  rintro ⟨⟨sig, mint⟩, n, d⟩ he
  obtain ⟨hpre, hpost, _⟩ := h _ (List.mem_map_of_mem he)
  simp only at hpre hpost
  obtain ⟨h₁, h₂⟩ := Netting.oneSided_toNat (n := n) (by omega) (by omega)
  simp only [Function.comp_apply, netRowOf, h₁, h₂]

/-- Net rows that fit can be stored. -/
theorem FitsColumns.inRange {block : DecodedBlock} (h : FitsColumns block) : InRange (parseBlock block).slotRow := by
  rw [inRange_iff_forall]
  rintro ⟨sig, mint, pre, post, d⟩ hx
  have hmem : netRowOf block (sig, mint, pre, post, d) ∈ netRows block := by
    rw [← map_netRowOf h]
    exact List.mem_map_of_mem hx
  exact tokenBalanceChangesRow_isOk_iff.2 (h _ hmem)

/-- A row of a block has a signature of the block, its slot and its time, and amounts that can be read back. -/
theorem newTokenBalanceChanges_spec {block : DecodedBlock} {r : TokenBalanceChangesRow}
    (hr : r ∈ newTokenBalanceChanges (parseBlock block).slotRow) :
    (∃ t ∈ block.transactions, t.signature = r.txSignature) ∧ r.slot = block.slot.toInt64 ∧
      r.blockTime = block.blockTime ∧ Readable r := by
  obtain ⟨t, ht, _, hsig⟩ := newTokenBalanceChanges_signature hr
  obtain ⟨⟨sig, mint, pre, post, d⟩, _, he⟩ := mem_newTokenBalanceChanges.1 hr
  obtain ⟨_, hslot, htime, _⟩ := tokenBalanceChangesRow_eq_ok he
  exact ⟨⟨t, ht, hsig⟩, hslot, htime, newTokenBalanceChanges_readable hr⟩

/-- **When the token rows of a block survive storage.** A new block is stored and its net rows come back as they were
if and only if every net amount is below `2 ^ 63` and all decimals are below `128`. -/
theorem survivesStorage_iff (ord : HashMap.IterOrder) (block : DecodedBlock) (st : Store) (n : ℕ)
    (h : NewBlock st block) :
    SurvivesStorage ord block st n ↔ FitsColumns block := by
  constructor
  · rintro ⟨st', m, hrun, xs, hquery, hperm⟩ r hr
    have hholds : Holds (parseBlock block).slotRow st' := holds_of_ok hrun
    -- the net row is one of the rows that came back
    obtain ⟨x, hx, rfl⟩ := List.mem_map.1 (hperm.mem_iff.2 hr)
    obtain ⟨s, hs, hb, _, rfl⟩ := mem_queryBalanceChangesForRange hquery x hx
    rw [between_self] at hb
    have hnew : s ∈ newTokenBalanceChanges (parseBlock block).slotRow := by
      rw [← hholds.tokenBalanceChanges]
      exact List.mem_filter.2 ⟨hs, hb⟩
    exact newTokenBalanceChanges_fits hnew
  · intro hfits
    obtain ⟨st', hst⟩ := h.replaces hfits.inRange
    have hall : ReplacesAll [(parseBlock block).slotRow] st st' := ⟨st', hst, rfl⟩
    have hholds : Holds (parseBlock block).slotRow st' := @ReplacesAll.holds_last [] _ _ _ hall
    have hslot : (st'.tokenBalanceChanges.rows.filter fun r => between block.slot block.slot r.slot) =
        newTokenBalanceChanges (parseBlock block).slotRow := by
      simp only [between_self]
      exact hholds.tokenBalanceChanges
    have hread : ∀ r ∈ st'.tokenBalanceChanges.rows, between block.slot block.slot r.slot = true → Readable r := by
      intro r hr hb
      have hnew : r ∈ newTokenBalanceChanges (parseBlock block).slotRow := hslot ▸ List.mem_filter.2 ⟨hr, hb⟩
      exact (newTokenBalanceChanges_spec hnew).2.2.2
    obtain ⟨rows, hperm, hquery⟩ := queryBalanceChangesForRange_eq_ok ord block.slot block.slot hread
    refine ⟨st', _, replaceSlotsBatch_accepts (fun _ _ => rfl) hall, _, hquery, ?_⟩
    rw [hslot] at hperm
    have hback : ((newTokenBalanceChanges (parseBlock block).slotRow).map handedOut).map netRow = netRows block := by
      rw [← map_netRowOf hfits, ← map_handedIn hfits.inRange, List.map_map, List.map_map]
      exact List.map_congr_left fun r hr => netRow_handedOut hr
    rw [← hback]
    exact (hperm.map _).map _

/-- A block with one transaction that receives `amount` tokens with the given decimals. -/
def oneDeltaBlock (amount : UInt64) (decimals : UInt8) : DecodedBlock :=
  { slot := 1, blockTime := some 0,
    transactions := [⟨"sig", 1, some 0, [], [], [⟨"mint", 0, amount, decimals⟩], false⟩] }

theorem oneDeltaBlock_new (amount : UInt64) (decimals : UInt8) : NewBlock .empty (oneDeltaBlock amount decimals) :=
  ⟨List.nodup_singleton _, fun _ ht => by rw [List.mem_singleton.1 ht]; exact List.nodup_nil,
    fun _ _ => ⟨nofun, nofun, nofun⟩⟩

/-- A small amount survives. -/
theorem survivesStorage_iff_example : SurvivesStorage .stored (oneDeltaBlock 5 6) .empty 0 :=
  (survivesStorage_iff .stored (oneDeltaBlock 5 6) .empty 0 (oneDeltaBlock_new 5 6)).2 (by unfold FitsColumns; decide)

/-- An amount of `2 ^ 63` and decimals of `128` are rejected. -/
theorem largeDelta_rejected :
    NewBlock .empty (oneDeltaBlock 9223372036854775808 6) ∧
    ¬SurvivesStorage .stored (oneDeltaBlock 9223372036854775808 6) .empty 0 ∧
    NewBlock .empty (oneDeltaBlock 5 128) ∧ ¬SurvivesStorage .stored (oneDeltaBlock 5 128) .empty 0 := by
  refine ⟨oneDeltaBlock_new _ _, ?_, oneDeltaBlock_new _ _, ?_⟩
  · rintro ⟨st', m, hrun, _⟩
    have herr : (replaceSlotsBatch (fun _ => false) [(parseBlock (oneDeltaBlock 9223372036854775808 6)).slotRow]
      ⟨.empty, none, 0⟩).1 = .error .conversion := rfl
    rw [hrun] at herr
    cases herr
  · rintro ⟨st', m, hrun, _⟩
    have herr : (replaceSlotsBatch (fun _ => false) [(parseBlock (oneDeltaBlock 5 128)).slotRow]
      ⟨.empty, none, 0⟩).1 = .error .conversion := rfl
    rw [hrun] at herr
    cases herr

end Tenso.Cli
