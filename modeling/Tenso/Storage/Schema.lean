import Mathlib.Data.Rat.Defs
import Tenso.Lib.Conn
import Tenso.Lib.Table

/-!
# The tables

One row type a table, with the column types of the schema (`BIGINT` slots, `INTEGER` steps, `UBIGINT` amounts,
`TINYINT` decimals; times are integers), and the store of the six tables with their primary keys.
-/

namespace Tenso.Storage

/-- A row of `blocks`. -/
structure BlocksRow where
  slot : Int64
  blockTime : Option ℤ
  txCount : Int32
  deriving DecidableEq

/-- A row of `transactions`; `step` is `NULL` until it is written back. -/
structure TransactionsRow where
  signature : String
  slot : Int64
  blockTime : Option ℤ
  failed : Bool
  programIds : String
  step : Option Int32
  deriving DecidableEq

/-- A row of `account_locks`. -/
structure AccountLocksRow where
  slot : Int64
  txSignature : String
  account : String
  isWritable : Bool
  deriving DecidableEq

/-- A row of `token_balance_changes`. -/
structure TokenBalanceChangesRow where
  txSignature : String
  slot : Int64
  blockTime : Option ℤ
  mint : String
  preAmount : UInt64
  postAmount : UInt64
  decimals : Int8
  deriving DecidableEq

/-- A row of `candles`. -/
structure CandlesRow where
  mint : String
  intervalSec : Int32
  bucketStart : ℤ
  «open» : ℚ
  high : ℚ
  low : ℚ
  close : ℚ
  volume : ℚ
  deriving DecidableEq

/-- A row of `ingestion_status`. -/
structure IngestionStatusRow where
  slot : Int64
  status : String
  note : Option String
  deriving DecidableEq

/-- The primary key of `account_locks`. -/
def AccountLocksRow.key (r : AccountLocksRow) : String × String := (r.txSignature, r.account)

/-- The primary key of `token_balance_changes`. -/
def TokenBalanceChangesRow.key (r : TokenBalanceChangesRow) : String × String := (r.txSignature, r.mint)

/-- The primary key of `candles`. -/
def CandlesRow.key (r : CandlesRow) : String × Int32 × ℤ := (r.mint, r.intervalSec, r.bucketStart)

/-- The store. -/
@[ext] structure Store where
  blocks : Table BlocksRow.slot
  transactions : Table TransactionsRow.signature
  accountLocks : Table AccountLocksRow.key
  tokenBalanceChanges : Table TokenBalanceChangesRow.key
  candles : Table CandlesRow.key
  ingestionStatus : Table IngestionStatusRow.slot

/-- The store after the migrations. -/
def Store.empty : Store := ⟨.empty, .empty, .empty, .empty, .empty, .empty⟩

/-! ## Column conversions -/

/-- Binding an `i64` to a `UBIGINT` column. -/
def toUBigInt (x : Int64) : Except DbError UInt64 := if x < 0 then .error .conversion else .ok x.toUInt64

/-- Binding an `i32` to a `TINYINT` column. -/
def toTinyInt (x : Int32) : Except DbError Int8 :=
  if -128 ≤ x ∧ x ≤ 127 then .ok x.toInt8 else .error .conversion

end Tenso.Storage
