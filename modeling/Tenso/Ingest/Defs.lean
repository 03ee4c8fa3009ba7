import Tenso.Lib.Netting

/-!
# Decoded blocks and token deltas

The types that decoding hands on, and the token side of `decode_transaction`: `buildTokenDeltas` matches the balances
before and after a transaction by account index and nets the changes by mint.
-/

namespace Tenso.Ingest

/-- A resolved account lock. -/
structure AccountLock where
  account : String
  isWritable : Bool
  deriving DecidableEq, Repr

/-- The balance change of one mint in one transaction. -/
structure TokenBalanceChange where
  mint : String
  preAmount : UInt64
  postAmount : UInt64
  decimals : UInt8
  deriving DecidableEq

/-- One decoded transaction. -/
structure DecodedTransaction where
  signature : String
  slot : UInt64
  blockTime : Option ℤ
  programIds : List String
  locks : List AccountLock
  tokenDeltas : List TokenBalanceChange
  /-- whether `meta.err` was set -/
  failed : Bool
  deriving DecidableEq

/-- One decoded block. -/
structure DecodedBlock where
  slot : UInt64
  blockTime : Option ℤ
  transactions : List DecodedTransaction
  deriving DecidableEq

/-- What became of one slot. -/
inductive FetchOutcome where
  | ingested (block : DecodedBlock)
  | skipped (slot : UInt64)
  | failed (slot : UInt64) (error : String)
  deriving DecidableEq

/-! ## Raw token balances -/

/-- The amount of a token balance: decimal text and decimals. -/
structure RawUiTokenAmount where
  amount : String
  decimals : UInt8
  deriving DecidableEq

/-- One entry of `preTokenBalances` or `postTokenBalances`. -/
structure RawTokenBalance where
  accountIndex : UInt32
  mint : String
  uiTokenAmount : RawUiTokenAmount
  deriving DecidableEq

/-- The number written by decimal digits. -/
def digitsValue (ds : List Char) : Nat := ds.foldl (fun n c => 10 * n + (c.toNat - 48)) 0

/-- `str::parse::<u64>`: an optional `+`, then at least one digit, and no overflow. -/
def parseU64 (s : String) : Option UInt64 :=
  let ds := match s.toList with
    | '+' :: ds => ds
    | ds => ds
  if ds ≠ [] ∧ ds.all Char.isDigit ∧ digitsValue ds < 2 ^ 64 then some (UInt64.ofNat (digitsValue ds)) else none

/-- `amount.parse().unwrap_or(0)`. -/
def RawTokenBalance.amount (b : RawTokenBalance) : UInt64 := (parseU64 b.uiTokenAmount.amount).getD 0

/-! ## Token deltas -/

/-- The amount of the account at index `i`, `0` if it is not in the list. -/
def amountAt (l : List RawTokenBalance) (i : UInt32) : UInt64 :=
  ((l.find? (·.accountIndex = i)).map (·.amount)).getD 0

/-- The change of an account in the list after the transaction; an account that is new there started at `0`. -/
def postDelta (pre : List RawTokenBalance) (postBal : RawTokenBalance) : Option TokenBalanceChange :=
  let preAmount := amountAt pre postBal.accountIndex
  if preAmount ≠ postBal.amount then
    some { mint := postBal.mint, preAmount, postAmount := postBal.amount, decimals := postBal.uiTokenAmount.decimals }
  else none

/-- The change of an account that is only in the list before the transaction: it went to `0`. -/
def closedDelta (post : List RawTokenBalance) (preBal : RawTokenBalance) : Option TokenBalanceChange :=
  if post.any (·.accountIndex = preBal.accountIndex) then none
  else if preBal.amount ≠ 0 then
    some { mint := preBal.mint, preAmount := preBal.amount, postAmount := 0,
           decimals := preBal.uiTokenAmount.decimals }
  else none

/-- The change of an amount, signed. -/
def TokenBalanceChange.delta (d : TokenBalanceChange) : ℤ := d.postAmount.toNat - d.preAmount.toNat

/-- A change as an item for netting by mint. -/
def TokenBalanceChange.netItem (d : TokenBalanceChange) : String × ℤ × UInt8 := (d.mint, d.delta, d.decimals)

/-- Net the changes of a transaction by mint; mints with net `0` are dropped. -/
def coalesceTokenDeltas (deltas : List TokenBalanceChange) : List TokenBalanceChange :=
  (Netting.netBy (deltas.map (·.netItem))).map fun (mint, n, decimals) =>
    let (preAmount, postAmount) := Netting.oneSided n
    { mint, preAmount, postAmount, decimals }

/-- **The token deltas of a transaction.** -/
def buildTokenDeltas (pre post : List RawTokenBalance) : List TokenBalanceChange :=
  coalesceTokenDeltas (post.filterMap (postDelta pre) ++ pre.filterMap (closedDelta post))

end Tenso.Ingest
