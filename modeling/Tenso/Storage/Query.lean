import Mathlib.Data.List.Sort
import Mathlib.Data.Prod.Lex
import Tenso.Storage.Columns

/-!
# Queries

Slots are compared as `BIGINT`. The order of rows that a query leaves open is the order of `ord`.

- `queryContentionSummary`: the depth of a slot range, from the largest step (`NULL` is ignored), and its most written
  accounts.
- `queryBalanceChangesForRange`: the token balance changes of a slot range.
- `queryOhlcv`: the candles of a mint.
-/

namespace Tenso.Storage

/-- `slot BETWEEN ? AND ?`. -/
def between (fromSlot toSlot : UInt64) (slot : Int64) : Bool := fromSlot.toInt64 ≤ slot ∧ slot ≤ toSlot.toInt64

/-! ## Contention -/

/-- The contention metrics of a slot range. -/
structure ContentionSummary where
  depth : UInt64
  topConflictingAccounts : List (String × Nat)
  deriving DecidableEq

/-- `MAX(step)`. -/
def maxStep (rows : List TransactionsRow) : Option ℤ := (rows.filterMap fun r => r.step.map Int32.toInt).max?

/-- The sum of two `INTEGER` values. -/
def addInteger (a b : ℤ) : Except DbError ℤ :=
  if -2 ^ 31 ≤ a + b ∧ a + b < 2 ^ 31 then .ok (a + b) else .error .outOfRange

/-- The accounts with the most writable locks, at most 20. -/
def topAccounts (ord : HashMap.IterOrder) (rows : List AccountLocksRow) : List (String × Nat) :=
  let groups := HashMap.groupBy (·.account) (rows.filter (·.isWritable))
  let counts := (ord.iter groups.entries).map fun e => (e.1, e.2.length)
  (counts.insertionSort fun a b => b.2 ≤ a.2).take 20

/-- The contention metrics of a slot range. -/
def queryContentionSummary (ord : HashMap.IterOrder) (fromSlot toSlot : UInt64) (st : Store) :
    Except DbError ContentionSummary := do
  let transactions := st.transactions.rows.filter fun r => between fromSlot toSlot r.slot
  let locks := st.accountLocks.rows.filter fun r => between fromSlot toSlot r.slot
  let depth ← addInteger ((maxStep transactions).getD (-1)) 1
  return { depth := UInt64.ofInt (max depth 0), topConflictingAccounts := topAccounts ord locks }

/-- The largest step of a slot range. -/
def rangeMaxStep (fromSlot toSlot : UInt64) (st : Store) : Option ℤ :=
  maxStep (st.transactions.rows.filter fun r => between fromSlot toSlot r.slot)

theorem queryContentionSummary_eq_ok {ord : HashMap.IterOrder} {fromSlot toSlot : UInt64} {st : Store} {depth : ℤ}
    (h : addInteger ((rangeMaxStep fromSlot toSlot st).getD (-1)) 1 = .ok depth) :
    ∃ s, queryContentionSummary ord fromSlot toSlot st = .ok s ∧ s.depth = UInt64.ofInt (max depth 0) := by
  unfold rangeMaxStep at h
  rw [queryContentionSummary]
  simp only [h]
  exact ⟨_, rfl, rfl⟩

/-- A summary shows the top accounts of the locks of the range. -/
theorem queryContentionSummary_top {ord : HashMap.IterOrder} {fromSlot toSlot : UInt64} {st : Store}
    {s : ContentionSummary} (h : queryContentionSummary ord fromSlot toSlot st = .ok s) : s.topConflictingAccounts =
      topAccounts ord (st.accountLocks.rows.filter fun r => between fromSlot toSlot r.slot) := by
  simp only [queryContentionSummary, bind, Except.bind] at h
  split at h
  · cases h
  · cases h
    rfl

theorem queryContentionSummary_eq_error {ord : HashMap.IterOrder} {fromSlot toSlot : UInt64} {st : Store} {e : DbError}
    (h : addInteger ((rangeMaxStep fromSlot toSlot st).getD (-1)) 1 = .error e) :
    queryContentionSummary ord fromSlot toSlot st = .error e := by
  unfold rangeMaxStep at h
  rw [queryContentionSummary]
  simp only [h]
  rfl

/-! ## Balance changes -/

/-- One token balance change, as handed to the candle builder. -/
abbrev BalanceChangeRow := String × UInt64 × Option ℤ × String × UInt64 × UInt64 × UInt8

/-- Reading a `UBIGINT` as an `i64`. -/
def getI64 (x : UInt64) : Except DbError Int64 := if x < 9223372036854775808 then .ok x.toInt64 else .error .conversion

/-- A row as handed out: integers go through `i64` and `i32`. -/
def balanceChangeRow (r : TokenBalanceChangesRow) : Except DbError BalanceChangeRow := do
  let preAmount ← getI64 r.preAmount
  let postAmount ← getI64 r.postAmount
  return (r.txSignature, r.slot.toUInt64, r.blockTime, r.mint, preAmount.toUInt64, postAmount.toUInt64,
    UInt8.ofInt r.decimals.toInt)

/-- `ORDER BY slot ASC, tx_signature ASC`. -/
def rowLe (r s : TokenBalanceChangesRow) : Bool := r.slot < s.slot ∨ (r.slot = s.slot ∧ r.txSignature ≤ s.txSignature)

/-- The token balance changes of a slot range. -/
def queryBalanceChangesForRange (ord : HashMap.IterOrder) (fromSlot toSlot : UInt64) (st : Store) :
    Except DbError (List BalanceChangeRow) :=
  let rows := st.tokenBalanceChanges.rows.filter fun r => between fromSlot toSlot r.slot
  ((ord.iter rows).insertionSort fun r s => rowLe r s).mapM balanceChangeRow

/-- A row as it is handed out, when its amounts are in range. -/
def handedOut (r : TokenBalanceChangesRow) : BalanceChangeRow :=
  (r.txSignature, r.slot.toUInt64, r.blockTime, r.mint, r.preAmount, r.postAmount, UInt8.ofInt r.decimals.toInt)

/-- The amounts can be read as `i64`. -/
def Readable (r : TokenBalanceChangesRow) : Prop :=
  r.preAmount < 9223372036854775808 ∧ r.postAmount < 9223372036854775808

/-- Stored amounts can be read. -/
theorem newTokenBalanceChanges_readable {row : SlotBatchRow} {r : TokenBalanceChangesRow}
    (hr : r ∈ newTokenBalanceChanges row) : Readable r := by
  obtain ⟨hpre, hpost, _⟩ := newTokenBalanceChanges_fits hr
  exact ⟨UInt64.lt_iff_toNat_lt.2 hpre, UInt64.lt_iff_toNat_lt.2 hpost⟩

theorem balanceChangeRow_eq_ok {r : TokenBalanceChangesRow} (h : Readable r) :
    balanceChangeRow r = .ok (handedOut r) := by
  simp only [balanceChangeRow, getI64, h.1, h.2, if_true, bind, Except.bind, pure, Except.pure, UInt64.toUInt64_toInt64]
  rfl

/-- Readable rows are all handed out. -/
theorem mapM_balanceChangeRow : ∀ {rows : List TokenBalanceChangesRow}, (∀ r ∈ rows, Readable r) →
    rows.mapM balanceChangeRow = .ok (rows.map handedOut)
  | [], _ => rfl
  | r :: rows, h => by
    obtain ⟨hr, hrows⟩ := List.forall_mem_cons.1 h
    simp only [List.mapM_cons, balanceChangeRow_eq_ok hr, mapM_balanceChangeRow hrows]
    rfl

/-- A range query hands out the rows of the range, in some order. -/
theorem queryBalanceChangesForRange_eq_ok (ord : HashMap.IterOrder) (fromSlot toSlot : UInt64) {st : Store}
    (h : ∀ r ∈ st.tokenBalanceChanges.rows, between fromSlot toSlot r.slot = true → Readable r) :
    ∃ rows : List TokenBalanceChangesRow,
      rows.Perm (st.tokenBalanceChanges.rows.filter fun r => between fromSlot toSlot r.slot) ∧
      queryBalanceChangesForRange ord fromSlot toSlot st = .ok (rows.map handedOut) := by
  have hperm (rows : List TokenBalanceChangesRow) :
      ((ord.iter rows).insertionSort fun r s => rowLe r s).Perm rows :=
    (List.perm_insertionSort _ _).trans (ord.perm _)
  refine ⟨_, hperm _, mapM_balanceChangeRow fun r hr => ?_⟩
  obtain ⟨hr, hb⟩ := List.mem_filter.1 ((hperm _).mem_iff.1 hr)
  exact h r hr hb

theorem balanceChangeRow_readable {r : TokenBalanceChangesRow} {x : BalanceChangeRow} (h : balanceChangeRow r = .ok x) :
    Readable r ∧ x = handedOut r := by
  have hread : Readable r := by
    simp only [balanceChangeRow, getI64, bind, Except.bind] at h
    split at h
    · cases h
    · rename_i hpre
      split at h
      · cases h
      · rename_i hpost
        exact ⟨by by_contra hno; simp [hno] at hpre, by by_contra hno; simp [hno] at hpost⟩
  rw [balanceChangeRow_eq_ok hread, Except.ok.injEq] at h
  exact ⟨hread, h.symm⟩

theorem mem_of_mapM_balanceChangeRow {rows : List TokenBalanceChangesRow} {xs : List BalanceChangeRow}
    (h : rows.mapM balanceChangeRow = .ok xs) : ∀ x ∈ xs, ∃ r ∈ rows, balanceChangeRow r = .ok x := by
  induction rows generalizing xs with
  | nil =>
    cases h
    simp
  | cons r rows ih =>
    simp only [List.mapM_cons, bind, Except.bind, pure, Except.pure] at h
    split at h
    · cases h
    · rename_i y hy
      split at h
      · cases h
      · rename_i ys hys
        cases h
        intro x hx
        rcases List.mem_cons.1 hx with rfl | hx
        · exact ⟨r, List.mem_cons_self, hy⟩
        · obtain ⟨r', hr', he⟩ := ih hys x hx
          exact ⟨r', List.mem_cons_of_mem _ hr', he⟩

/-- A row that a range query hands out is a readable row of the range. -/
theorem mem_queryBalanceChangesForRange {ord : HashMap.IterOrder} {fromSlot toSlot : UInt64} {st : Store}
    {xs : List BalanceChangeRow} (h : queryBalanceChangesForRange ord fromSlot toSlot st = .ok xs) :
    ∀ x ∈ xs, ∃ r ∈ st.tokenBalanceChanges.rows, between fromSlot toSlot r.slot = true ∧ Readable r ∧
    x = handedOut r := by
  intro x hx
  obtain ⟨r, hr, he⟩ := mem_of_mapM_balanceChangeRow h x hx
  rw [List.mem_insertionSort, (ord.perm _).mem_iff, List.mem_filter] at hr
  exact ⟨r, hr.1, hr.2, balanceChangeRow_readable he⟩

/-! ## Candles -/

/-- A row of `candles` as a candle. -/
def CandlesRow.candle (r : CandlesRow) : Ohlcv.Candle :=
  { bucketStart := r.bucketStart, «open» := r.open, high := r.high, low := r.low, close := r.close, volume := r.volume }

/-- **The stored candles** of a mint and an interval, by bucket; the key leaves no ties. -/
def queryOhlcv (mint : String) (intervalSec : Int32) (st : Store) : List Ohlcv.Candle :=
  let rows := st.candles.rows.filter fun r => r.mint = mint ∧ r.intervalSec = intervalSec
  (rows.insertionSort fun r s => r.bucketStart ≤ s.bucketStart).map (·.candle)

/-! ## Slot ranges -/

/-- A range of the column is a range of the slots with the negative ones first. -/
theorem between_iff_mem_cutIcc {fromSlot toSlot slot : UInt64} : between fromSlot toSlot slot.toInt64 = true ↔
    slot.toNat ∈ CutOrder.cutIcc negativeSlots fromSlot.toNat toSlot.toNat := by
  simp only [between, Bool.decide_and, Bool.and_eq_true, decide_eq_true_eq, toInt64_le_iff]
  rfl

/-- A range below `2 ^ 63` contains the slots between its ends. -/
theorem between_iff {fromSlot toSlot slot : UInt64} (hf : fromSlot.toNat < 2 ^ 63) (ht : toSlot.toNat < 2 ^ 63) :
    between fromSlot toSlot slot.toInt64 = true ↔ fromSlot ≤ slot ∧ slot ≤ toSlot := by
  have hside : CutOrder.SameHalf negativeSlots fromSlot.toNat toSlot.toNat := by
    simp only [CutOrder.SameHalf, mem_negativeSlots]
    omega
  rw [between_iff_mem_cutIcc, CutOrder.cutIcc_eq_Icc hside, Set.mem_Icc, UInt64.le_iff_toNat_le, UInt64.le_iff_toNat_le]

end Tenso.Storage
