import Tenso.Storage.Replace

/-!
# Batches replace slots atomically

`replaceSlotsBatch` is one transaction: it ends with the whole batch replaced or with the store as it was
(`replaceSlotsBatch_cases`), and the connection is idle again.

- After a batch that is accepted, the slot of every last occurrence holds the data of that occurrence, with the token
  rows netted by signature and mint (`SlotData`), and nothing else changed (`replaceSlotsBatch_atomic`).
- The net of a signature and mint is stored by its low 64 bits: it is exact below `2 ^ 64`, and larger nets wrap
  (`replaceSlotsBatch_wraps`).
-/

namespace Tenso.Storage

/-! ## Netted token rows -/

/-- The net change of a mint in a transaction: the sum over its token balance changes. -/
def netChange (row : SlotBatchRow) (sig mint : String) : ℤ :=
  Netting.total (row.tokenChanges.map tokenNetItem) (sig, mint)

/-- The decimals of the first change of a mint in a transaction. -/
def firstDecimals (row : SlotBatchRow) (sig mint : String) : Option UInt8 :=
  Netting.firstTag (row.tokenChanges.map tokenNetItem) (sig, mint)

/-- `r` is the net of its signature and mint over the token balance changes of `row`. -/
structure Netted (row : SlotBatchRow) (r : TokenBalanceChangesRow) : Prop where
  slot : r.slot = row.slot.toInt64
  blockTime : r.blockTime = row.blockTime
  net_ne : netChange row r.txSignature r.mint ≠ 0
  amounts : (r.preAmount, r.postAmount) = Netting.oneSided (netChange row r.txSignature r.mint)
  decimals : ∃ d, firstDecimals row r.txSignature r.mint = some d ∧ r.decimals.toInt = d.toNat

theorem mem_coalesceTokenBalanceRows {row : SlotBatchRow} {sig mint : String} {pre post : UInt64} {d : UInt8} :
    (sig, mint, pre, post, d) ∈ coalesceTokenBalanceRows row.tokenChanges ↔
      firstDecimals row sig mint = some d ∧ netChange row sig mint ≠ 0 ∧
        (pre, post) = Netting.oneSided (netChange row sig mint) := by
  simp only [coalesceTokenBalanceRows, List.mem_map, Prod.exists, Prod.mk.injEq, Netting.mem_netBy]
  constructor
  · rintro ⟨_, _, n, _, ⟨hd, hn, hne⟩, rfl, rfl, rfl, rfl, rfl⟩
    rw [← netChange] at hn
    exact ⟨hd, hn ▸ hne, hn ▸ rfl⟩
  · rintro ⟨hd, hne, ham⟩
    exact ⟨sig, mint, _, d, ⟨hd, rfl, hne⟩, rfl, rfl, (congrArg Prod.fst ham).symm, (congrArg Prod.snd ham).symm,
      rfl⟩

/-- The token rows of a slot are the nets of its changes. -/
theorem mem_newTokenBalanceChanges_iff {row : SlotBatchRow} (hrow : InRange row) {r : TokenBalanceChangesRow} :
    r ∈ newTokenBalanceChanges row ↔ Netted row r := by
  constructor
  · intro hr
    obtain ⟨⟨sig, mint, pre, post, d⟩, hx, h⟩ := mem_newTokenBalanceChanges.1 hr
    obtain ⟨rfl, hslot, htime, rfl, rfl, rfl, hdec⟩ := tokenBalanceChangesRow_eq_ok h
    obtain ⟨hd, hne, ham⟩ := mem_coalesceTokenBalanceRows.1 hx
    exact ⟨hslot, htime, hne, ham, d, hd, hdec⟩
  · intro h
    obtain ⟨d, hd, hdec⟩ := h.decimals
    have hx := mem_coalesceTokenBalanceRows.2 ⟨hd, h.net_ne, h.amounts⟩
    -- the row of this net is in range, hence it is one of the new rows
    have hok :
        tokenBalanceChangesRow row.slot.toInt64 row.blockTime (r.txSignature, r.mint, r.preAmount, r.postAmount, d)
        ∈ (newTokenBalanceChanges row).map .ok := by
      rw [← (hrow : tokenRows row = _)]
      exact List.mem_map_of_mem hx
    obtain ⟨r', hr', he⟩ := List.mem_map.1 hok
    obtain ⟨h1, h2, h3, h4, h5, h6, h7⟩ := tokenBalanceChangesRow_eq_ok he.symm
    have hdec' : r'.decimals = r.decimals := Int8.toInt_inj.1 (h7.trans hdec.symm)
    have : r' = r := by
      cases r'
      cases r
      simp only [TokenBalanceChangesRow.mk.injEq] at *
      exact ⟨h1, h2.trans h.slot.symm, h3.trans h.blockTime.symm, h4, h5, h6, hdec'⟩
    exact this ▸ hr'

/-- A net that fits 64 bits is stored exactly. -/
theorem Netted.exact {row : SlotBatchRow} {r : TokenBalanceChangesRow} (h : Netted row r)
    (hlo : -2 ^ 64 < netChange row r.txSignature r.mint) (hhi : netChange row r.txSignature r.mint < 2 ^ 64) :
    (r.postAmount.toNat : ℤ) - r.preAmount.toNat = netChange row r.txSignature r.mint ∧
      (r.preAmount = 0 ∨ r.postAmount = 0) := by
  have he := Netting.oneSided_exact hlo hhi
  rw [← h.amounts] at he
  exact he

/-! ## A batch -/

/-- The slot of `row` holds exactly the data of `row`. -/
structure SlotData (row : SlotBatchRow) (st : Store) : Prop where
  blocks : st.blocks.rows.filter (·.slot = row.slot.toInt64) = [blocksRow row]
  transactions : st.transactions.rows.filter (·.slot = row.slot.toInt64) =
    row.transactions.map (transactionsRow row.slot.toInt64 row.blockTime)
  accountLocks : st.accountLocks.rows.filter (·.slot = row.slot.toInt64) =
    row.locks.map (accountLocksRow row.slot.toInt64)
  tokenBalanceChanges : ∀ r, r ∈ st.tokenBalanceChanges.rows ∧ r.slot = row.slot.toInt64 ↔ Netted row r
  exact : ∀ r ∈ st.tokenBalanceChanges.rows, r.slot = row.slot.toInt64 →
    -2 ^ 64 < netChange row r.txSignature r.mint → netChange row r.txSignature r.mint < 2 ^ 64 →
    (r.postAmount.toNat : ℤ) - r.preAmount.toNat = netChange row r.txSignature r.mint ∧
      (r.preAmount = 0 ∨ r.postAmount = 0)

theorem Holds.slotData {row : SlotBatchRow} {st : Store} (h : Holds row st) : SlotData row st := by
  have htok : ∀ r, r ∈ st.tokenBalanceChanges.rows ∧ r.slot = row.slot.toInt64 ↔ Netted row r := by
    intro r
    rw [← mem_newTokenBalanceChanges_iff h.inRange, ← h.tokenBalanceChanges, List.mem_filter, decide_eq_true_iff]
  exact ⟨h.blocks, h.transactions, h.accountLocks, htok, fun r hr hs => ((htok r).1 ⟨hr, hs⟩).exact⟩

/-- The number of statements of a batch, with `BEGIN` and `COMMIT`. -/
def statementCount (slots : List SlotBatchRow) : ℕ := (slots.flatMap replaceSlotDataInner).length + 2

/-- The batch can be stored: every slot can be replaced, one after the other. -/
def Valid (st : Store) (slots : List SlotBatchRow) : Prop := ∃ st', ReplacesAll slots st st'

/-- All or nothing: on an idle connection a batch is replaced as a whole, or the store stays; it is replaced exactly
when it is valid and no fault hits its statements. -/
theorem replaceSlotsBatch_cases (f : Faults) (slots : List SlotBatchRow) (st : Store) (n : ℕ) :
    (∃ st', replaceSlotsBatch f slots ⟨st, none, n⟩ = (.ok (), ⟨st', none, n + statementCount slots⟩) ∧
      Conn.Quiet f n (statementCount slots) ∧ ReplacesAll slots st st') ∨
    ∃ e m, replaceSlotsBatch f slots ⟨st, none, n⟩ = (.error e, ⟨st, none, m⟩) ∧
      ¬(Conn.Quiet f n (statementCount slots) ∧ Valid st slots) := by
  have h := Conn.transaction_cases (f := f) (slots.flatMap replaceSlotDataInner) st n
  simp only [run_replaceSlots] at h
  exact h

/-- A batch that is accepted is replaced. -/
theorem replacesAll_of_ok {f : Faults} {slots : List SlotBatchRow} {st : Store} {n : ℕ} {c : Conn Store}
    (h : replaceSlotsBatch f slots ⟨st, none, n⟩ = (.ok (), c)) : ReplacesAll slots st c.store := by
  rcases replaceSlotsBatch_cases f slots st n with ⟨t, hrun, _, ht⟩ | ⟨e, m, hrun, _⟩
  · rw [hrun] at h
    cases h
    exact ht
  · rw [hrun] at h
    cases h

/-- A slot that is accepted holds its rows. -/
theorem holds_of_ok {f : Faults} {row : SlotBatchRow} {st : Store} {n : ℕ} {c : Conn Store}
    (h : replaceSlotsBatch f [row] ⟨st, none, n⟩ = (.ok (), c)) : Holds row c.store :=
  @ReplacesAll.holds_last [] _ _ _ (replacesAll_of_ok h)

/-- A valid batch is accepted when no fault hits it. -/
theorem replaceSlotsBatch_accepts {f : Faults} {slots : List SlotBatchRow} {st st' : Store} {n : ℕ}
    (hq : Conn.Quiet f n (statementCount slots)) (h : ReplacesAll slots st st') :
    replaceSlotsBatch f slots ⟨st, none, n⟩ = (.ok (), ⟨st', none, n + statementCount slots⟩) := by
  rcases replaceSlotsBatch_cases f slots st n with ⟨t, hrun, _, ht⟩ | ⟨_, _, _, hno⟩
  · have : Stmt.run (slots.flatMap replaceSlotDataInner) st = .ok t := run_replaceSlots.2 ht
    rw [run_replaceSlots.2 h, Except.ok.injEq] at this
    rw [hrun, this]
  · exact absurd ⟨hq, st', h⟩ hno

/-- Consecutive batches, up to the first error. -/
def replaceBatches (f : Faults) : List (List SlotBatchRow) → Conn Store → Except DbError Unit × Conn Store
  | [], c => (.ok (), c)
  | slots :: batches, c =>
    match replaceSlotsBatch f slots c with
    | (.ok (), c') => replaceBatches f batches c'
    | (.error e, c') => (.error e, c')

/-- Batches that are all accepted replace what one batch of all their slots replaces. -/
theorem replaceBatches_replacesAll {f : Faults} : ∀ {batches : List (List SlotBatchRow)} {st : Store} {n : ℕ}
    {c : Conn Store}, replaceBatches f batches ⟨st, none, n⟩ = (.ok (), c) → ReplacesAll batches.flatten st c.store
  | [], st, n, c, h => by
    cases h
    rfl
  | slots :: batches, st, n, c, h => by
    rcases replaceSlotsBatch_cases f slots st n with ⟨t, hrun, _, ht⟩ | ⟨e, m, hrun, _⟩
    · rw [replaceBatches, hrun] at h
      rw [List.flatten_cons]
      exact replacesAll_append.2 ⟨t, ht, replaceBatches_replacesAll h⟩
    · rw [replaceBatches, hrun] at h
      cases h

/-- **Atomic replacement of slots.** A batch that is rejected leaves the store as it was, and the connection accepts
later batches. A batch that is accepted leaves at each of its slots the data of the last occurrence and nothing else
changed; with distinct slots it can be made again without a change; made in consecutive parts it gives the same. -/
theorem replaceSlotsBatch_atomic (f : Faults) (slots : List SlotBatchRow) (st : Store) (n : ℕ) :
    (∀ e c, replaceSlotsBatch f slots ⟨st, none, n⟩ = (.error e, c) →
      c.store = st ∧
      ∀ f' slots', Valid st slots' → Conn.Quiet f' c.clock (statementCount slots') →
        ∃ c', replaceSlotsBatch f' slots' c = (.ok (), c')) ∧
    ∀ c, replaceSlotsBatch f slots ⟨st, none, n⟩ = (.ok (), c) →
      (∀ pre row post, slots = pre ++ row :: post → row.slot ∉ post.map (·.slot) → SlotData row c.store) ∧
      (∀ slot, slot ∉ slots.map (·.slot.toInt64) → SameSlot slot st c.store) ∧
      c.store.candles = st.candles ∧ c.store.ingestionStatus = st.ingestionStatus ∧
      ((slots.map (·.slot)).Nodup → ∀ f', Conn.Quiet f' c.clock (statementCount slots) →
        ∃ c', replaceSlotsBatch f' slots c = (.ok (), c') ∧ c'.store = c.store) ∧
      ∀ f' batches n' c', batches.flatten = slots → replaceBatches f' batches ⟨st, none, n'⟩ = (.ok (), c') →
        c'.store = c.store := by
  rcases replaceSlotsBatch_cases f slots st n with ⟨st', hrun, _, hst⟩ | ⟨e, m, hrun, _⟩
  · rw [hrun]
    refine ⟨nofun, fun c hc => ?_⟩
    cases hc
    refine ⟨fun pre row post hsplit hlast => ?_, fun slot hs => hst.frame hs, hst.candles, hst.ingestionStatus,
      fun hd f' hq => ⟨_, replaceSlotsBatch_accepts hq (hst.again hd), rfl⟩, fun f' batches n' c' hflat hb => ?_⟩
    · rw [hsplit] at hst
      refine (hst.holds fun hm => hlast ?_).slotData
      obtain ⟨row', hrow', he⟩ := List.mem_map.1 hm
      exact toInt64_injective he ▸ List.mem_map_of_mem hrow'
    · have hall := replaceBatches_replacesAll hb
      rw [hflat, ← run_replaceSlots, run_replaceSlots.2 hst, Except.ok.injEq] at hall
      exact hall.symm
  · rw [hrun]
    refine ⟨fun e' c hc => ?_, nofun⟩
    cases hc
    exact ⟨rfl, fun f' slots' ⟨_, hs⟩ hq => ⟨_, replaceSlotsBatch_accepts hq hs⟩⟩

/-! ## Nets beyond 64 bits -/

/-- A slot with a transaction that moves `2 ^ 64 - 1` and `6` tokens of one mint. -/
def wrapRow : SlotBatchRow :=
  { slot := 1, blockTime := none, transactions := [("sig", false, [], none)], locks := [],
    tokenChanges := [("sig", "mint", 0, 18446744073709551615, 0), ("sig", "mint", 0, 6, 0)] }

/-- A net of `2 ^ 64 + 5` is accepted and stored as `5`. -/
theorem replaceSlotsBatch_wraps :
    ∃ c, replaceSlotsBatch (fun _ => false) [wrapRow] ⟨.empty, none, 0⟩ = (.ok (), c) ∧
      ∃ r ∈ c.store.tokenBalanceChanges.rows, r.slot = wrapRow.slot.toInt64 ∧
        (r.postAmount.toNat : ℤ) - r.preAmount.toNat = 5 ∧ netChange wrapRow r.txSignature r.mint = 2 ^ 64 + 5 := by
  refine ⟨_, rfl, ⟨"sig", 1, none, "mint", 0, 5, 0⟩, ?_, rfl, rfl, rfl⟩
  exact List.mem_singleton_self _

end Tenso.Storage
