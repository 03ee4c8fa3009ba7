import Tenso.Contention.Defs
import Tenso.Lib.Netting
import Tenso.Ohlcv.Defs
import Tenso.Storage.Schema

/-!
# The repository: writes

Every write is a list of statements on the store, in the order the source executes them.

- `replaceSlotDataInner`: the statements that replace the data of one slot: three deletes, an upsert of the block row,
  and the appenders of the three other tables. An appended row is converted by a statement of its own; the flush of the
  appender inserts the rows.
- `replaceSlotsBatch`: the statements of a batch of slots in one transaction.
- `writeScheduleSteps`: one `UPDATE` a signature, outside any transaction.
- `upsertIngestionStatus`, `upsertCandles`: single upserts.
-/

namespace Tenso.Storage

/-- A transaction as it is handed to the repository: signature, failed, program ids, step. -/
abbrev TransactionRow := String × Bool × List String × Option Int32

/-- A lock as it is handed to the repository: signature, account, writable. -/
abbrev AccountLockRow := String × String × Bool

/-- A token balance change as it is handed to the repository: signature, mint, pre and post amount, decimals. -/
abbrev TokenBalanceRow := String × String × UInt64 × UInt64 × UInt8

/-- The data of one slot. -/
structure SlotBatchRow where
  slot : UInt64
  blockTime : Option ℤ
  transactions : List TransactionRow
  locks : List AccountLockRow
  tokenChanges : List TokenBalanceRow
  deriving DecidableEq

/-! ## Values -/

/-- A hexadecimal digit. -/
def hexDigit (n : Nat) : Char := if n < 10 then Char.ofNat (48 + n) else Char.ofNat (87 + n)

/-- A character of a JSON string. -/
def jsonChar (c : Char) : List Char :=
  let escaped (n : Nat) := [Char.ofNat 92, Char.ofNat n]
  if c.toNat = 34 ∨ c.toNat = 92 then escaped c.toNat
  else if c.toNat = 8 then escaped 98
  else if c.toNat = 9 then escaped 116
  else if c.toNat = 10 then escaped 110
  else if c.toNat = 12 then escaped 102
  else if c.toNat = 13 then escaped 114
  else if c.toNat < 32 then escaped 117 ++ ['0', '0', hexDigit (c.toNat / 16), hexDigit (c.toNat % 16)]
  else [c]

/-- A JSON string. -/
def jsonString (s : String) : List Char := Char.ofNat 34 :: s.toList.flatMap jsonChar ++ [Char.ofNat 34]

/-- `serde_json::to_string` of a list of strings. -/
def jsonStrings (ss : List String) : String :=
  String.ofList (['['] ++ [','].intercalate (ss.map jsonString) ++ [']'])

/-- A token balance change as an item for netting by signature and mint. -/
def tokenNetItem (r : TokenBalanceRow) : (String × String) × ℤ × UInt8 :=
  let (sig, mint, pre, post, decimals) := r
  ((sig, mint), (post.toNat : ℤ) - pre.toNat, decimals)

/-- Net the token balance changes by signature and mint; zero nets are dropped. -/
def coalesceTokenBalanceRows (rows : List TokenBalanceRow) : List TokenBalanceRow :=
  (Netting.netBy (rows.map tokenNetItem)).map fun ((sig, mint), n, decimals) =>
    let (pre, post) := Netting.oneSided n
    (sig, mint, pre, post, decimals)

/-! ## Statements of one slot -/

/-- A statement that only converts a value; it changes nothing. -/
def checked {α : Type} (x : Except DbError α) : Stmt Store := fun st => x.map fun _ => st

/-- The row of `blocks`. -/
def blocksRow (row : SlotBatchRow) : BlocksRow :=
  { slot := row.slot.toInt64, blockTime := row.blockTime, txCount := Int32.ofNat row.transactions.length }

/-- The row of `transactions`. -/
def transactionsRow (slot : Int64) (blockTime : Option ℤ) (t : TransactionRow) : TransactionsRow :=
  let (sig, failed, programIds, step) := t
  { signature := sig, slot, blockTime, failed, programIds := jsonStrings programIds, step }

/-- The row of `account_locks`. -/
def accountLocksRow (slot : Int64) (l : AccountLockRow) : AccountLocksRow :=
  let (sig, account, isWritable) := l
  { slot, txSignature := sig, account, isWritable }

/-- The row of `token_balance_changes`: the amounts go through `i64`, the decimals through `i32`. -/
def tokenBalanceChangesRow (slot : Int64) (blockTime : Option ℤ) (r : TokenBalanceRow) :
    Except DbError TokenBalanceChangesRow := do
  let (sig, mint, pre, post, decimals) := r
  let preAmount ← toUBigInt pre.toInt64
  let postAmount ← toUBigInt post.toInt64
  let decimals ← toTinyInt (Int32.ofNat decimals.toNat)
  return { txSignature := sig, slot, blockTime, mint, preAmount, postAmount, decimals }

/-- The flush of an appender: insert the rows or violate the key. -/
def orConstraint {α : Type} (x : Option α) : Except DbError α := x.elim (.error .constraint) .ok

/-- `DELETE FROM account_locks WHERE slot = ?`. -/
def deleteAccountLocks (slot : Int64) : Stmt Store := fun st =>
  .ok { st with accountLocks := st.accountLocks.deleteWhere (·.slot = slot) }

/-- `DELETE FROM token_balance_changes WHERE slot = ?`. -/
def deleteTokenBalanceChanges (slot : Int64) : Stmt Store := fun st =>
  .ok { st with tokenBalanceChanges := st.tokenBalanceChanges.deleteWhere (·.slot = slot) }

/-- `DELETE FROM transactions WHERE slot = ?`. -/
def deleteTransactions (slot : Int64) : Stmt Store := fun st =>
  .ok { st with transactions := st.transactions.deleteWhere (·.slot = slot) }

/-- `INSERT INTO blocks … ON CONFLICT (slot) DO UPDATE`. -/
def upsertBlock (row : BlocksRow) : Stmt Store := fun st => .ok { st with blocks := st.blocks.upsert row }

/-- The flush of the `transactions` appender. -/
def insertTransactions (rows : List TransactionsRow) : Stmt Store := fun st =>
  (orConstraint (st.transactions.insertAll rows)).map fun t => { st with transactions := t }

/-- The flush of the `account_locks` appender. -/
def insertAccountLocks (rows : List AccountLocksRow) : Stmt Store := fun st =>
  (orConstraint (st.accountLocks.insertAll rows)).map fun t => { st with accountLocks := t }

/-- The flush of the `token_balance_changes` appender, once every row has been converted. -/
def insertTokenBalanceChanges (rows : Except DbError (List TokenBalanceChangesRow)) : Stmt Store := fun st => do
  let rows ← rows
  let t ← orConstraint (st.tokenBalanceChanges.insertAll rows)
  return { st with tokenBalanceChanges := t }

/-- The statements that replace the data of one slot. -/
def replaceSlotDataInner (row : SlotBatchRow) : List (Stmt Store) :=
  let slot := row.slot.toInt64
  let tokenRows := (coalesceTokenBalanceRows row.tokenChanges).map (tokenBalanceChangesRow slot row.blockTime)
  [deleteAccountLocks slot, deleteTokenBalanceChanges slot, deleteTransactions slot, upsertBlock (blocksRow row)] ++
  row.transactions.map (fun t => checked (.ok (transactionsRow slot row.blockTime t))) ++
  [insertTransactions (row.transactions.map (transactionsRow slot row.blockTime))] ++
  row.locks.map (fun l => checked (.ok (accountLocksRow slot l))) ++
  [insertAccountLocks (row.locks.map (accountLocksRow slot))] ++
  tokenRows.map (fun r => checked r) ++
  [insertTokenBalanceChanges (tokenRows.mapM id)]

/-! ## The writes of the repository -/

/-- Replace the data of several slots in one transaction. -/
def replaceSlotsBatch (f : Faults) (slots : List SlotBatchRow) (c : Conn Store) : Except DbError Unit × Conn Store :=
  c.transaction f (slots.flatMap replaceSlotDataInner)

/-- `UPDATE transactions SET step = ? WHERE signature = ?`. -/
def updateStep (sig : String) (step : Nat) : Stmt Store := fun st =>
  let set (r : TransactionsRow) : TransactionsRow := { r with step := some (Int32.ofNat step) }
  .ok { st with transactions := st.transactions.updateWhere (·.signature = sig) set fun _ => rfl }

/-- **Write the steps of a schedule back**, by signature. -/
def writeScheduleSteps (signatures : List String) (schedule : Contention.ScheduleResult) : List (Stmt Store) :=
  (signatures.zip schedule.steps).map fun (sig, step) => updateStep sig step

/-- `INSERT INTO ingestion_status … ON CONFLICT (slot) DO UPDATE`. -/
def upsertIngestionStatus (slot : UInt64) (status : String) (note : Option String) : Stmt Store := fun st =>
  .ok { st with ingestionStatus := st.ingestionStatus.upsert { slot := slot.toInt64, status, note } }

/-- The row of `candles`. -/
def candlesRow (mint : String) (intervalSec : Int32) (c : Ohlcv.Candle) : CandlesRow :=
  { mint, intervalSec, bucketStart := c.bucketStart, «open» := c.open, high := c.high, low := c.low,
    close := c.close, volume := c.volume }

/-- `INSERT INTO candles … ON CONFLICT (mint, interval_sec, bucket_start) DO UPDATE`, one a candle. -/
def upsertCandles (mint : String) (intervalSec : Int32) (candles : List Ohlcv.Candle) : List (Stmt Store) :=
  candles.map fun c st => .ok { st with candles := st.candles.upsert (candlesRow mint intervalSec c) }

end Tenso.Storage
