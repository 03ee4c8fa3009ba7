import Mathlib.Tactic.Common
import Tenso.Lib.Groups
import Tenso.Storage.Repository

/-!
# Replacing slots

What a batch of slot replacements does to the store.

- `Replaces row st st'` says table by table what the statements of one slot do; they succeed exactly with such an
  `st'` (`run_replaceSlotDataInner`).
- `ReplacesAll` is a run over a batch (`run_replaceSlots`). A `SlotTable` is one of the tables whose rows of a slot are
  replaced together; on it the batch is a run of group replacements, so the last occurrence of a slot decides its rows
  (`ReplacesAll.holds`) and no other row moves (`ReplacesAll.frame`).
- Over a batch of distinct slots a second run gives the same store (`ReplacesAll.again`).
-/

namespace Tenso.Storage

/-! ## One slot -/

/-- The rows of `transactions` of a slot. -/
def newTransactions (row : SlotBatchRow) : List TransactionsRow :=
  row.transactions.map (transactionsRow row.slot.toInt64 row.blockTime)

/-- The rows of `account_locks` of a slot. -/
def newAccountLocks (row : SlotBatchRow) : List AccountLocksRow := row.locks.map (accountLocksRow row.slot.toInt64)

/-- The rows of `token_balance_changes` of a slot, each possibly out of its column's range. -/
def tokenRows (row : SlotBatchRow) : List (Except DbError TokenBalanceChangesRow) :=
  (coalesceTokenBalanceRows row.tokenChanges).map (tokenBalanceChangesRow row.slot.toInt64 row.blockTime)

/-- The rows of `token_balance_changes` that are in range. -/
def newTokenBalanceChanges (row : SlotBatchRow) : List TokenBalanceChangesRow := (tokenRows row).filterMap (·.toOption)

/-- Every row of `token_balance_changes` is in range. -/
def InRange (row : SlotBatchRow) : Prop := tokenRows row = (newTokenBalanceChanges row).map .ok

/-- The replacement of one slot. -/
structure Replaces (row : SlotBatchRow) (st st' : Store) : Prop where
  inRange : InRange row
  blocks : st'.blocks = st.blocks.upsert (blocksRow row)
  transactions : st'.transactions.rows =
    Groups.replaceGroup TransactionsRow.slot st.transactions.rows (row.slot.toInt64, newTransactions row)
  accountLocks : st'.accountLocks.rows =
    Groups.replaceGroup AccountLocksRow.slot st.accountLocks.rows (row.slot.toInt64, newAccountLocks row)
  tokenBalanceChanges : st'.tokenBalanceChanges.rows =
    Groups.replaceGroup TokenBalanceChangesRow.slot st.tokenBalanceChanges.rows
      (row.slot.toInt64, newTokenBalanceChanges row)
  candles : st'.candles = st.candles
  ingestionStatus : st'.ingestionStatus = st.ingestionStatus

theorem run_checked_ok {α β : Type} (g : α → β) (st : Store) :
    ∀ xs : List α, Stmt.run (xs.map fun x => checked (.ok (g x))) st = .ok st
  | [] => rfl
  | x :: xs => by
    rw [List.map_cons, Stmt.run]
    exact run_checked_ok g st xs

/-- Collecting results succeeds when all of them do. -/
theorem mapM_id_eq_ok {α : Type} {xs : List (Except DbError α)} {ys : List α} :
    xs.mapM id = .ok ys ↔ xs = ys.map .ok := by
  induction xs generalizing ys with
  | nil =>
    cases ys with
    | nil => simp [pure, Except.pure]
    | cons y ys => simp [pure, Except.pure]
  | cons x xs ih =>
    simp only [List.mapM_cons, id_eq, bind, Except.bind, pure, Except.pure]
    cases x with
    | error e => cases ys <;> simp
    | ok y =>
      simp only
      cases h : xs.mapM id with
      | error e =>
        refine ⟨nofun, fun he => ?_⟩
        cases ys with
        | nil => simp at he
        | cons z zs =>
          rw [List.map_cons, List.cons.injEq] at he
          rw [ih.2 he.2] at h
          cases h
      | ok zs =>
        have hzs := ih.1 h
        simp only [Except.ok.injEq]
        constructor
        · rintro rfl
          rw [hzs, List.map_cons]
        · intro he
          cases ys with
          | nil => simp at he
          | cons z zs' =>
            rw [List.map_cons, List.cons.injEq, Except.ok.injEq] at he
            have := ih.2 he.2
            rw [h, Except.ok.injEq] at this
            rw [he.1, this]

theorem inRange_iff {row : SlotBatchRow} {rows : List TokenBalanceChangesRow} :
    tokenRows row = rows.map .ok ↔ InRange row ∧ rows = newTokenBalanceChanges row := by
  constructor
  · intro h
    have hrows : rows = newTokenBalanceChanges row := by
      rw [newTokenBalanceChanges, h, List.filterMap_map]
      exact (List.filterMap_some).symm
    exact ⟨by rw [InRange, ← hrows, h], hrows⟩
  · rintro ⟨h, rfl⟩
    exact h

theorem orConstraint_map_eq_ok {α : Type} {x : Option α} {f : α → Store} {st' : Store} :
    (orConstraint x).map f = .ok st' ↔ ∃ a, x = some a ∧ st' = f a := by
  cases x with
  | none => simp [orConstraint, Except.map]
  | some a => simp [orConstraint, Except.map, eq_comm]

theorem insertTransactions_eq_ok {rows : List TransactionsRow} {st st' : Store} :
    insertTransactions rows st = .ok st' ↔
      ∃ t, t.rows = st.transactions.rows ++ rows ∧ st' = { st with transactions := t } := by
  simp only [insertTransactions, orConstraint_map_eq_ok, Table.insertAll_eq_some]

theorem insertAccountLocks_eq_ok {rows : List AccountLocksRow} {st st' : Store} :
    insertAccountLocks rows st = .ok st' ↔
      ∃ t, t.rows = st.accountLocks.rows ++ rows ∧ st' = { st with accountLocks := t } := by
  simp only [insertAccountLocks, orConstraint_map_eq_ok, Table.insertAll_eq_some]

theorem insertTokenBalanceChanges_eq_ok {xs : List (Except DbError TokenBalanceChangesRow)} {st st' : Store} :
    insertTokenBalanceChanges (xs.mapM id) st = .ok st' ↔
      ∃ rows t, xs = rows.map .ok ∧ t.rows = st.tokenBalanceChanges.rows ++ rows ∧
        st' = { st with tokenBalanceChanges := t } := by
  unfold insertTokenBalanceChanges
  cases h : xs.mapM id with
  | error e =>
    refine ⟨nofun, ?_⟩
    rintro ⟨rows, t, hx, _⟩
    rw [mapM_id_eq_ok.2 hx] at h
    cases h
  | ok rows =>
    have hrows := mapM_id_eq_ok.1 h
    constructor
    · intro hst
      obtain ⟨t, ht, rfl⟩ := orConstraint_map_eq_ok.1 hst
      exact ⟨rows, t, hrows, Table.insertAll_eq_some.1 ht, rfl⟩
    · rintro ⟨rows', t, hx, ht, rfl⟩
      have : rows' = rows := by
        rw [mapM_id_eq_ok.2 hx, Except.ok.injEq] at h
        exact h
      subst this
      exact orConstraint_map_eq_ok.2 ⟨t, Table.insertAll_eq_some.2 ht, rfl⟩

/-- The store after the three deletes and the upsert of the block. -/
def cleared (row : SlotBatchRow) (st : Store) : Store :=
  { st with
    blocks := st.blocks.upsert (blocksRow row)
    transactions := st.transactions.deleteWhere (·.slot = row.slot.toInt64)
    accountLocks := st.accountLocks.deleteWhere (·.slot = row.slot.toInt64)
    tokenBalanceChanges := st.tokenBalanceChanges.deleteWhere (·.slot = row.slot.toInt64) }

/-- What the statements of a slot do after the deletes. -/
theorem run_inserts {row : SlotBatchRow} {st st' : Store} :
    Stmt.run (replaceSlotDataInner row) st = .ok st' ↔ ∃ t l c,
      t.rows = (cleared row st).transactions.rows ++ newTransactions row ∧
      l.rows = (cleared row st).accountLocks.rows ++ newAccountLocks row ∧
      InRange row ∧ c.rows = (cleared row st).tokenBalanceChanges.rows ++ newTokenBalanceChanges row ∧
      st' = { cleared row st with transactions := t, accountLocks := l, tokenBalanceChanges := c } := by
  have hpre : ∀ st₁, Stmt.run [deleteAccountLocks row.slot.toInt64, deleteTokenBalanceChanges row.slot.toInt64,
      deleteTransactions row.slot.toInt64, upsertBlock (blocksRow row)] st = .ok st₁ ↔ st₁ = cleared row st :=
    fun st₁ => ⟨fun h => (Except.ok.inj h).symm, fun h => h ▸ rfl⟩
  have hone : ∀ (x : Stmt Store) (s s' : Store), Stmt.run [x] s = .ok s' ↔ x s = .ok s' := fun x s s' => by
    rw [Stmt.run_cons_ok]
    exact ⟨fun ⟨t, ht, he⟩ => (Except.ok.inj he) ▸ ht, fun h => ⟨s', h, rfl⟩⟩
  have htx := run_checked_ok (transactionsRow row.slot.toInt64 row.blockTime)
  have hlock := run_checked_ok (accountLocksRow row.slot.toInt64)
  have htok : ∀ (rows : List TokenBalanceChangesRow) (s : Store), Stmt.run ((rows.map .ok).map fun r => checked r) s
      = .ok s := fun rows s => by
    rw [List.map_map]
    exact run_checked_ok id s rows
  show Stmt.run (_ ++ (tokenRows row).map _ ++ [insertTokenBalanceChanges ((tokenRows row).mapM id)]) st = _ ↔ _
  simp only [Stmt.run_append_ok, hpre, hone, htx, hlock, insertTransactions_eq_ok, insertAccountLocks_eq_ok,
    insertTokenBalanceChanges_eq_ok, Except.ok.injEq]
  constructor
  · intro h
    obtain ⟨_, ⟨_, ⟨_, ⟨_, ⟨_, ⟨_, rfl, rfl⟩, t, ht, rfl⟩, rfl⟩, l, hl, rfl⟩, hchk⟩, rows, c, hrows, hc, rfl⟩ := h
    obtain ⟨hr, rfl⟩ := inRange_iff.1 hrows
    rw [hrows, htok, Except.ok.injEq] at hchk
    subst hchk
    exact ⟨t, l, c, ht, hl, hr, hc, rfl⟩
  · rintro ⟨t, l, c, ht, hl, hr, hc, rfl⟩
    have hr' : tokenRows row = (newTokenBalanceChanges row).map .ok := hr
    refine ⟨{ cleared row st with transactions := t, accountLocks := l },
      ⟨_, ⟨_, ⟨_, ⟨_, ⟨_, rfl, rfl⟩, t, ht, rfl⟩, rfl⟩, l, hl, rfl⟩, ?_⟩, _, c, hr, hc, rfl⟩
    rw [hr', htok]

/-- One slot: the statements of a slot succeed exactly with its replacement. -/
theorem run_replaceSlotDataInner {row : SlotBatchRow} {st st' : Store} :
    Stmt.run (replaceSlotDataInner row) st = .ok st' ↔ Replaces row st st' := by
  have hfilter {ρ : Type} (slotOf : ρ → Int64) (rows new : List ρ) : rows.filter (fun r =>
      !decide (slotOf r = row.slot.toInt64)) ++ new = Groups.replaceGroup slotOf rows (row.slot.toInt64, new) := by
    simp only [Groups.replaceGroup, ← decide_not]
  rw [run_inserts]
  simp only [cleared, Table.deleteWhere_rows, hfilter]
  constructor
  · rintro ⟨t, l, c, ht, hl, hr, hc, rfl⟩
    exact ⟨hr, rfl, ht, hl, hc, rfl, rfl⟩
  · intro h
    refine ⟨st'.transactions, st'.accountLocks, st'.tokenBalanceChanges, h.transactions, h.accountLocks, h.inRange,
      h.tokenBalanceChanges, Store.ext h.blocks rfl rfl rfl h.candles h.ingestionStatus⟩

/-! ## A batch -/

/-- The replacements of a batch, one after the other. -/
def ReplacesAll : List SlotBatchRow → Store → Store → Prop
  | [], st, st' => st' = st
  | row :: rows, st, st' => ∃ t, Replaces row st t ∧ ReplacesAll rows t st'

/-- A batch: the statements of a batch succeed exactly with its replacements. -/
theorem run_replaceSlots : ∀ {rows : List SlotBatchRow} {st st' : Store},
    Stmt.run (rows.flatMap replaceSlotDataInner) st = .ok st' ↔ ReplacesAll rows st st'
  | [], st, st' => by
    rw [List.flatMap_nil, Stmt.run_nil, Except.ok.injEq, ReplacesAll]
    exact eq_comm
  | row :: rows, st, st' => by
    simp only [List.flatMap_cons, Stmt.run_append_ok, run_replaceSlotDataInner, run_replaceSlots, ReplacesAll]

theorem replacesAll_append : ∀ {rows rows' : List SlotBatchRow} {st st' : Store},
    ReplacesAll (rows ++ rows') st st' ↔ ∃ t, ReplacesAll rows st t ∧ ReplacesAll rows' t st'
  | [], rows', st, st' => by simp [ReplacesAll]
  | row :: rows, rows', st, st' => by
    simp only [List.cons_append, ReplacesAll, replacesAll_append]
    exact ⟨fun ⟨t, ht, u, hu, hs⟩ => ⟨u, ⟨t, ht, hu⟩, hs⟩, fun ⟨u, ⟨t, ht, hu⟩, hs⟩ => ⟨t, ht, u, hu, hs⟩⟩

/-- The replacements of a batch in one of the tables. -/
def slices {ρ : Type} (new : SlotBatchRow → List ρ) (rows : List SlotBatchRow) : List (Int64 × List ρ) :=
  rows.map fun row => (row.slot.toInt64, new row)

theorem slices_grouped {ρ : Type} {slotOf : ρ → Int64} {new : SlotBatchRow → List ρ}
    (h : ∀ row, ∀ r ∈ new row, slotOf r = row.slot.toInt64) (rows : List SlotBatchRow) :
    Groups.Grouped slotOf (slices new rows) := by
  intro p hp r hr
  obtain ⟨row, _, rfl⟩ := List.mem_map.1 hp
  exact h row r hr

theorem slices_slots {ρ : Type} (new : SlotBatchRow → List ρ) (rows : List SlotBatchRow) :
    (slices new rows).map (·.1) = rows.map (·.slot.toInt64) := by
  rw [slices, List.map_map]
  rfl

theorem slot_newTransactions (row : SlotBatchRow) : ∀ r ∈ newTransactions row, r.slot = row.slot.toInt64 := by
  intro r hr
  obtain ⟨t, _, rfl⟩ := List.mem_map.1 hr
  rfl

theorem slot_newAccountLocks (row : SlotBatchRow) : ∀ r ∈ newAccountLocks row, r.slot = row.slot.toInt64 := by
  intro r hr
  obtain ⟨l, _, rfl⟩ := List.mem_map.1 hr
  rfl

theorem mem_newTokenBalanceChanges {row : SlotBatchRow} {r : TokenBalanceChangesRow} :
    r ∈ newTokenBalanceChanges row ↔
      ∃ x ∈ coalesceTokenBalanceRows row.tokenChanges,
        tokenBalanceChangesRow row.slot.toInt64 row.blockTime x = .ok r := by
  simp only [newTokenBalanceChanges, tokenRows, List.mem_filterMap, List.mem_map]
  constructor
  · rintro ⟨_, ⟨x, hx, rfl⟩, h⟩
    refine ⟨x, hx, ?_⟩
    cases hr : tokenBalanceChangesRow row.slot.toInt64 row.blockTime x with
    | error e => rw [hr] at h; cases h
    | ok r' => rw [hr] at h; rw [Option.some.inj h]
  · rintro ⟨x, hx, h⟩
    exact ⟨_, ⟨x, hx, rfl⟩, by rw [h]; rfl⟩

theorem toUBigInt_eq_ok {n m : UInt64} (h : toUBigInt n.toInt64 = .ok m) : m = n := by
  unfold toUBigInt at h
  split at h
  · cases h
  · rw [← Except.ok.inj h, UInt64.toUInt64_toInt64]

theorem toTinyInt_eq_ok {d : UInt8} {n : Int8} (h : toTinyInt (Int32.ofNat d.toNat) = .ok n) :
    n.toInt = d.toNat := by
  have hd := d.toNat_lt
  have hx : (Int32.ofNat d.toNat).toInt = d.toNat := by
    rw [Int32.toInt_ofNat', Int32.size]
    exact Int.bmod_eq_of_le (by omega) (by omega)
  unfold toTinyInt at h
  split at h
  · rename_i hr
    have hle : (d.toNat : ℤ) ≤ 127 := by
      rw [← hx]
      exact Int32.le_iff_toInt_le.1 hr.2
    rw [← Except.ok.inj h, Int32.toInt_toInt8, hx]
    exact Int.bmod_eq_of_le (by omega) (by omega)
  · cases h

theorem tokenBalanceChangesRow_eq_ok {slot : Int64} {blockTime : Option ℤ} {sig mint : String} {pre post : UInt64}
    {d : UInt8} {r : TokenBalanceChangesRow}
    (h : tokenBalanceChangesRow slot blockTime (sig, mint, pre, post, d) = .ok r) :
    r.txSignature = sig ∧ r.slot = slot ∧ r.blockTime = blockTime ∧ r.mint = mint ∧ r.preAmount = pre ∧
      r.postAmount = post ∧ r.decimals.toInt = d.toNat := by
  simp only [tokenBalanceChangesRow, bind, Except.bind] at h
  split at h
  · cases h
  rename_i a ha
  split at h
  · cases h
  rename_i b hb
  split at h
  · cases h
  rename_i n hn
  cases h
  exact ⟨rfl, rfl, rfl, rfl, toUBigInt_eq_ok ha, toUBigInt_eq_ok hb, toTinyInt_eq_ok hn⟩

theorem slot_newTokenBalanceChanges (row : SlotBatchRow) :
    ∀ r ∈ newTokenBalanceChanges row, r.slot = row.slot.toInt64 := by
  intro r hr
  obtain ⟨⟨sig, mint, pre, post, d⟩, _, h⟩ := mem_newTokenBalanceChanges.1 hr
  exact (tokenBalanceChangesRow_eq_ok h).2.1

/-- A table whose rows of a slot are replaced together. -/
structure SlotTable (ρ : Type) where
  rows : Store → List ρ
  slotOf : ρ → Int64
  new : SlotBatchRow → List ρ
  grouped : ∀ row, ∀ r ∈ new row, slotOf r = row.slot.toInt64
  replaced : ∀ {row : SlotBatchRow} {st st' : Store}, Replaces row st st' →
    rows st' = Groups.replaceGroup slotOf (rows st) (row.slot.toInt64, new row)

/-- `transactions`. -/
def transactionsTable : SlotTable TransactionsRow :=
  ⟨(·.transactions.rows), (·.slot), newTransactions, slot_newTransactions, (·.transactions)⟩

/-- `account_locks`. -/
def accountLocksTable : SlotTable AccountLocksRow :=
  ⟨(·.accountLocks.rows), (·.slot), newAccountLocks, slot_newAccountLocks, (·.accountLocks)⟩

/-- `token_balance_changes`. -/
def tokenBalanceChangesTable : SlotTable TokenBalanceChangesRow :=
  ⟨(·.tokenBalanceChanges.rows), (·.slot), newTokenBalanceChanges, slot_newTokenBalanceChanges, (·.tokenBalanceChanges)⟩

namespace SlotTable

variable {ρ : Type} (t : SlotTable ρ)

/-- A batch replaces groups. -/
theorem replacesAll : ∀ {rows : List SlotBatchRow} {st st' : Store}, ReplacesAll rows st st' →
    t.rows st' = Groups.replaceGroups t.slotOf (t.rows st) (slices t.new rows)
  | [], _, _, h => by rw [h]; rfl
  | _ :: _, _, _, ⟨_, hrow, h⟩ => by rw [replacesAll h, t.replaced hrow]; rfl

/-- The rows of a slot that the batch does not name stay. -/
theorem frame {rows : List SlotBatchRow} {st st' : Store} (h : ReplacesAll rows st st') {slot : Int64}
    (hs : slot ∉ rows.map (·.slot.toInt64)) :
    (t.rows st').filter (t.slotOf · = slot) = (t.rows st).filter (t.slotOf · = slot) := by
  rw [t.replacesAll h]
  exact Groups.filter_replaceGroups_of_notMem (slices_grouped t.grouped _) (by rwa [slices_slots])

/-- The last occurrence of a slot decides its rows. -/
theorem last {pre post : List SlotBatchRow} {row : SlotBatchRow} {st st' : Store}
    (h : ReplacesAll (pre ++ row :: post) st st') (hlast : row.slot.toInt64 ∉ post.map (·.slot.toInt64)) :
    (t.rows st').filter (t.slotOf · = row.slot.toInt64) = t.new row := by
  have hslices : slices t.new (pre ++ row :: post) =
      slices t.new pre ++ (row.slot.toInt64, t.new row) :: slices t.new post := by
    simp [slices]
  have hgrouped := slices_grouped t.grouped (pre ++ row :: post)
  rw [hslices] at hgrouped
  rw [t.replacesAll h, hslices]
  exact Groups.filter_replaceGroups_last hgrouped (by rwa [slices_slots])

/-- A batch of distinct slots, made once more, gives the same rows. -/
theorem again {rows : List SlotBatchRow} {st st' st'' : Store} (h : ReplacesAll rows st st')
    (h' : ReplacesAll rows st' st'') (hd : (rows.map (·.slot.toInt64)).Nodup) : t.rows st'' = t.rows st' := by
  rw [t.replacesAll h', t.replacesAll h]
  exact Groups.replaceGroups_idem (slices_grouped t.grouped _) (by rwa [slices_slots])

end SlotTable

theorem ReplacesAll.candles : ∀ {rows : List SlotBatchRow} {st st' : Store}, ReplacesAll rows st st' →
    st'.candles = st.candles
  | [], _, _, h => by rw [h]
  | _ :: _, _, _, ⟨_, ht, h⟩ => by rw [h.candles, ht.candles]

theorem ReplacesAll.ingestionStatus : ∀ {rows : List SlotBatchRow} {st st' : Store}, ReplacesAll rows st st' →
    st'.ingestionStatus = st.ingestionStatus
  | [], _, _, h => by rw [h]
  | _ :: _, _, _, ⟨_, ht, h⟩ => by rw [h.ingestionStatus, ht.ingestionStatus]

theorem ReplacesAll.inRange : ∀ {rows : List SlotBatchRow} {st st' : Store}, ReplacesAll rows st st' →
    ∀ row ∈ rows, InRange row
  | [], _, _, _ => nofun
  | _ :: _, _, _, ⟨_, ht, h⟩ => List.forall_mem_cons.2 ⟨ht.inRange, h.inRange⟩

/-- The block of a slot that the batch does not name stays. -/
theorem ReplacesAll.blocks_frame {slot : Int64} : ∀ {rows : List SlotBatchRow} {st st' : Store},
    ReplacesAll rows st st' → slot ∉ rows.map (·.slot.toInt64) →
    st'.blocks.rows.filter (·.slot = slot) = st.blocks.rows.filter (·.slot = slot)
  | [], _, _, h, _ => by rw [h]
  | row :: rows, st, st', ⟨t, ht, h⟩, hs => by
    rw [List.map_cons, List.mem_cons, not_or] at hs
    rw [h.blocks_frame hs.2, ht.blocks]
    refine Table.filter_upsert_of_ne fun x hx => decide_eq_false ?_
    rw [hx]
    exact Ne.symm hs.1

/-! ## Every slot of the result -/

/-- The rows of the slot of `row` are those of `row`. -/
structure Holds (row : SlotBatchRow) (st : Store) : Prop where
  inRange : InRange row
  blocks : st.blocks.rows.filter (·.slot = row.slot.toInt64) = [blocksRow row]
  transactions : st.transactions.rows.filter (·.slot = row.slot.toInt64) = newTransactions row
  accountLocks : st.accountLocks.rows.filter (·.slot = row.slot.toInt64) = newAccountLocks row
  tokenBalanceChanges :
    st.tokenBalanceChanges.rows.filter (·.slot = row.slot.toInt64) = newTokenBalanceChanges row

/-- Two stores have the same rows of a slot. -/
structure SameSlot (slot : Int64) (st st' : Store) : Prop where
  blocks : st'.blocks.rows.filter (·.slot = slot) = st.blocks.rows.filter (·.slot = slot)
  transactions : st'.transactions.rows.filter (·.slot = slot) = st.transactions.rows.filter (·.slot = slot)
  accountLocks : st'.accountLocks.rows.filter (·.slot = slot) = st.accountLocks.rows.filter (·.slot = slot)
  tokenBalanceChanges :
    st'.tokenBalanceChanges.rows.filter (·.slot = slot) = st.tokenBalanceChanges.rows.filter (·.slot = slot)

/-- Frame: the rows of a slot that the batch does not name stay. -/
theorem ReplacesAll.frame {rows : List SlotBatchRow} {st st' : Store} (h : ReplacesAll rows st st') {slot : Int64}
    (hs : slot ∉ rows.map (·.slot.toInt64)) : SameSlot slot st st' :=
  ⟨h.blocks_frame hs, transactionsTable.frame h hs, accountLocksTable.frame h hs, tokenBalanceChangesTable.frame h hs⟩

/-- The last occurrence of a slot decides its rows. -/
theorem ReplacesAll.holds {pre post : List SlotBatchRow} {row : SlotBatchRow} {st st' : Store}
    (h : ReplacesAll (pre ++ row :: post) st st') (hlast : row.slot.toInt64 ∉ post.map (·.slot.toInt64)) :
    Holds row st' := by
  have hblocks : st'.blocks.rows.filter (·.slot = row.slot.toInt64) = [blocksRow row] := by
    obtain ⟨t, _, u, hu, hpost⟩ := replacesAll_append.1 h
    rw [hpost.blocks_frame hlast, hu.blocks]
    exact Table.filter_upsert_eq fun x => decide_eq_true_iff
  exact ⟨h.inRange row (by simp), hblocks, transactionsTable.last h hlast, accountLocksTable.last h hlast,
    tokenBalanceChangesTable.last h hlast⟩

theorem ReplacesAll.holds_last {pre : List SlotBatchRow} {row : SlotBatchRow} {st st' : Store}
    (h : ReplacesAll (pre ++ [row]) st st') : Holds row st' := h.holds List.not_mem_nil

/-- A row of a slot that the batch does not name shares its signature with no row of the batch. -/
theorem ReplacesAll.signature_ne {rows : List SlotBatchRow} {st st' : Store} (h : ReplacesAll rows st st')
    {r : TransactionsRow} (hr : r ∈ st.transactions.rows) (hslot : r.slot ∉ rows.map (·.slot.toInt64))
    {row : SlotBatchRow} (hrow : row ∈ rows) {r' : TransactionsRow} (hr' : r' ∈ newTransactions row) :
    r'.signature ≠ r.signature := by
  obtain ⟨pre, post, rfl⟩ := List.append_of_mem hrow
  rw [← List.singleton_append, ← List.append_assoc, replacesAll_append] at h
  obtain ⟨t, ht, _⟩ := h
  rw [List.map_append, List.map_cons, List.mem_append, List.mem_cons, not_or, not_or] at hslot
  -- after the replacement by `row` both rows are in the table
  have hrt : r ∈ t.transactions.rows := by
    have hnot : r.slot ∉ (pre ++ [row]).map (·.slot.toInt64) := by
      rw [List.map_append, List.map_singleton, List.mem_append, List.mem_singleton, not_or]
      exact ⟨hslot.1, hslot.2.1⟩
    have hframe := (ht.frame hnot).transactions
    have hmem : r ∈ st.transactions.rows.filter (·.slot = r.slot) := List.mem_filter.2 ⟨hr, by simp⟩
    rw [← hframe] at hmem
    exact List.mem_of_mem_filter hmem
  have hr't : r' ∈ t.transactions.rows := by
    rw [← ht.holds_last.transactions] at hr'
    exact List.mem_of_mem_filter hr'
  intro he
  have := Table.eq_of_key hr't hrt he
  exact hslot.2.1 (this ▸ slot_newTransactions row r' hr')

/-- A slot's last rows share no signature with the rows that are replaced after them. -/
theorem ReplacesAll.signature_ne_later {pre post : List SlotBatchRow} {row row' : SlotBatchRow} {st st' : Store}
    (h : ReplacesAll (pre ++ row :: post) st st') (hlast : row.slot.toInt64 ∉ post.map (·.slot.toInt64))
    (hrow' : row' ∈ post) {r r' : TransactionsRow} (hr : r ∈ newTransactions row) (hr' : r' ∈ newTransactions row') :
    r'.signature ≠ r.signature := by
  rw [← List.singleton_append, ← List.append_assoc, replacesAll_append] at h
  obtain ⟨t, ht, hpost⟩ := h
  have hrt : r ∈ t.transactions.rows := by
    rw [← ht.holds_last.transactions] at hr
    exact List.mem_of_mem_filter hr
  exact hpost.signature_ne hrt (slot_newTransactions row r hr ▸ hlast) hrow' hr'

/-- The rows of a slot have distinct signatures. -/
theorem Holds.signatures_nodup {row : SlotBatchRow} {st : Store} (h : Holds row st) :
    ((newTransactions row).map (·.signature)).Nodup := by
  rw [← h.transactions]
  exact st.transactions.keyed.sublist (List.filter_sublist.map _)

/-! ## The batch once more -/

/-- The rows of the slot of `row` are those of `row`, in some order. -/
structure HoldsPerm (row : SlotBatchRow) (st : Store) : Prop where
  inRange : InRange row
  blocks : blocksRow row ∈ st.blocks.rows
  transactions : (st.transactions.rows.filter (·.slot = row.slot.toInt64)).Perm (newTransactions row)
  accountLocks : (st.accountLocks.rows.filter (·.slot = row.slot.toInt64)).Perm (newAccountLocks row)
  tokenBalanceChanges :
    (st.tokenBalanceChanges.rows.filter (·.slot = row.slot.toInt64)).Perm (newTokenBalanceChanges row)

theorem Holds.perm {row : SlotBatchRow} {st : Store} (h : Holds row st) : HoldsPerm row st := by
  refine ⟨h.inRange, ?_, .of_eq h.transactions, .of_eq h.accountLocks, .of_eq h.tokenBalanceChanges⟩
  have : blocksRow row ∈ st.blocks.rows.filter (·.slot = row.slot.toInt64) := by
    rw [h.blocks]
    exact List.mem_singleton_self _
  exact List.mem_of_mem_filter this

/-- A slot that holds `row` can be replaced by `row`: rows only move. -/
theorem HoldsPerm.replaces {row : SlotBatchRow} {st : Store} (h : HoldsPerm row st) :
    ∃ t, Replaces row st t ∧ t.blocks = st.blocks ∧ t.transactions.rows.Perm st.transactions.rows ∧
      t.accountLocks.rows.Perm st.accountLocks.rows ∧
      t.tokenBalanceChanges.rows.Perm st.tokenBalanceChanges.rows := by
  have htx := Groups.replaceGroup_perm (p := (row.slot.toInt64, _)) h.transactions
  have hlock := Groups.replaceGroup_perm (p := (row.slot.toInt64, _)) h.accountLocks
  have htok := Groups.replaceGroup_perm (p := (row.slot.toInt64, _)) h.tokenBalanceChanges
  refine ⟨{ st with
    transactions := st.transactions.ofPerm _ htx
    accountLocks := st.accountLocks.ofPerm _ hlock
    tokenBalanceChanges := st.tokenBalanceChanges.ofPerm _ htok }, ?_, rfl, htx, hlock, htok⟩
  exact ⟨h.inRange, (Table.upsert_of_mem h.blocks).symm, rfl, rfl, rfl, rfl, rfl⟩

/-- A batch whose slots hold its rows can be replaced by it. -/
theorem exists_replacesAll : ∀ {rows : List SlotBatchRow} {st : Store}, (∀ row ∈ rows, HoldsPerm row st) →
    ∃ t, ReplacesAll rows st t ∧ t.blocks = st.blocks
  | [], st, _ => ⟨st, rfl, rfl⟩
  | row :: rows, st, h => by
    obtain ⟨t, ht, hb, htx, hlock, htok⟩ := (h row List.mem_cons_self).replaces
    have hrows : ∀ row' ∈ rows, HoldsPerm row' t := by
      intro row' hrow'
      have h' := h row' (List.mem_cons_of_mem row hrow')
      exact ⟨h'.inRange, hb ▸ h'.blocks, (htx.filter _).trans h'.transactions, (hlock.filter _).trans h'.accountLocks,
        (htok.filter _).trans h'.tokenBalanceChanges⟩
    obtain ⟨u, hu, hbu⟩ := exists_replacesAll hrows
    exact ⟨u, ⟨t, ht, hu⟩, hbu.trans hb⟩

theorem toInt64_injective {a b : UInt64} (h : a.toInt64 = b.toInt64) : a = b := by
  rw [← UInt64.toUInt64_toInt64 a, h, UInt64.toUInt64_toInt64]

theorem nodup_toInt64 {rows : List SlotBatchRow} (h : (rows.map (·.slot)).Nodup) :
    (rows.map (·.slot.toInt64)).Nodup := by
  have := h.map (f := UInt64.toInt64) fun _ _ => toInt64_injective
  rwa [List.map_map] at this

/-- **Idempotence.** A batch of distinct slots, replaced once more, gives the same store. -/
theorem ReplacesAll.again {rows : List SlotBatchRow} {st st' : Store} (h : ReplacesAll rows st st')
    (hd : (rows.map (·.slot)).Nodup) : ReplacesAll rows st' st' := by
  have hd' := nodup_toInt64 hd
  have hholds : ∀ row ∈ rows, HoldsPerm row st' := by
    intro row hrow
    obtain ⟨pre, post, rfl⟩ := List.append_of_mem hrow
    rw [List.map_append, List.map_cons] at hd'
    exact (h.holds (List.nodup_cons.1 (List.nodup_append.1 hd').2.1).1).perm
  obtain ⟨t, ht, hb⟩ := exists_replacesAll hholds
  have htx : t.transactions = st'.transactions := Table.rows_injective (transactionsTable.again h ht hd')
  have hlock : t.accountLocks = st'.accountLocks := Table.rows_injective (accountLocksTable.again h ht hd')
  have htok : t.tokenBalanceChanges = st'.tokenBalanceChanges :=
    Table.rows_injective (tokenBalanceChangesTable.again h ht hd')
  have : t = st' := Store.ext hb htx hlock htok ht.candles ht.ingestionStatus
  rwa [this] at ht

end Tenso.Storage
