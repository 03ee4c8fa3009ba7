import Mathlib.Data.List.Destutter
import Mathlib.Data.List.Sort
import Tenso.Ingest.AccountResolution
import Tenso.Ingest.Range

/-!
# Decoding the answer to a request

A `getBlock` request is answered with a JSON value. An `error` field makes it an error: an unavailable slot if the
code or the words of the message say so, the message otherwise. Without one, `serde` reads the `Raw*` structures from
the value, and decoding puts the block together from them. What `serde` reads is a parameter (`fromValue`).

A decoded block carries the slot that was asked for, so the answers to the requests are those of `getBlock`
(`exists_getBlock_eq`).
-/

namespace Tenso.Ingest

/-! ## JSON -/

/-- A JSON number: an unsigned, a negative, or any other finite one. -/
inductive JsonNumber where
  | posInt (n : UInt64)
  | negInt (n : Int64)
  | float (x : ℚ)
  deriving DecidableEq

/-- `serde_json::Value`. -/
inductive Json where
  | null
  | bool (b : Bool)
  | number (n : JsonNumber)
  | string (s : String)
  | array (elements : List Json)
  | object (fields : List (String × Json))

namespace Json

/-- `value.get(key)`: the field of an object. -/
def get (key : String) : Json → Option Json
  | .object fields => fields.lookup key
  | _ => none

/-- `value.as_str()`. -/
def asStr : Json → Option String
  | .string s => some s
  | _ => none

/-- `value.as_i64()`: an integer that fits. -/
def asI64 : Json → Option ℤ
  | .number (.posInt n) => if n.toNat < 2 ^ 63 then some n.toNat else none
  | .number (.negInt n) => some n.toInt
  | _ => none

end Json

/-! ## The raw block -/

structure RawInstruction where
  programIdIndex : UInt8

structure RawHeader where
  numRequiredSignatures : UInt8
  numReadonlySignedAccounts : UInt8
  numReadonlyUnsignedAccounts : UInt8

structure RawMessage where
  accountKeys : List String
  header : RawHeader
  instructions : List RawInstruction

structure RawTransaction where
  message : RawMessage
  signatures : List String

structure RawLoadedAddresses where
  writable : List String
  readonly : List String

structure RawMeta where
  err : Option Json
  preTokenBalances : List RawTokenBalance
  postTokenBalances : List RawTokenBalance
  loadedAddresses : Option RawLoadedAddresses

structure RawTxWithMeta where
  transaction : RawTransaction
  «meta» : Option RawMeta

structure RawBlock where
  blockTime : Option ℤ
  transactions : List RawTxWithMeta

structure RpcEnvelope where
  result : Option RawBlock

/-! ## Decoding -/

/-- The programs of a transaction: instructions point into all keys of the message, in its order. -/
def extractProgramIds (staticKeys loadedWritable loadedReadonly : List String) (instructions : List RawInstruction) :
    List String :=
  let fullList := staticKeys ++ loadedWritable ++ loadedReadonly
  let ids := instructions.filterMap fun ix => fullList[ix.programIdIndex.toNat]?
  (ids.insertionSort (· ≤ ·)).destutter (· ≠ ·)

/-- One transaction. -/
def decodeTransaction (slot : UInt64) (blockTime : Option ℤ) (raw : RawTxWithMeta) : Option DecodedTransaction :=
  let message := raw.transaction.message
  let header : MessageHeader :=
    { numRequiredSignatures := message.header.numRequiredSignatures
      numReadonlySignedAccounts := message.header.numReadonlySignedAccounts
      numReadonlyUnsignedAccounts := message.header.numReadonlyUnsignedAccounts }
  let (loadedWritable, loadedReadonly) :=
    ((raw.meta.bind (·.loadedAddresses)).map fun la => (la.writable, la.readonly)).getD ([], [])
  -- the slices of the static keys are in range
  let locks := (resolveAccountLocks message.accountKeys header loadedWritable loadedReadonly).get
    (by rw [resolveAccountLocks_eq]; rfl)
  let programIds := extractProgramIds message.accountKeys loadedWritable loadedReadonly message.instructions
  let failed := (raw.meta.map (·.err.isSome)).getD false
  let tokenDeltas := (raw.meta.map fun m => buildTokenDeltas m.preTokenBalances m.postTokenBalances).getD []
  let signature := raw.transaction.signatures.head?.getD ""
  some { signature, slot, blockTime, programIds, locks, tokenDeltas, failed }

/-- A block. -/
def decodeBlock (slot : UInt64) (raw : RawBlock) : DecodedBlock :=
  { slot, blockTime := raw.blockTime,
    transactions := raw.transactions.filterMap (decodeTransaction slot raw.blockTime) }

/-- Words of a message that tell of an unavailable slot. -/
def saysUnavailable (message : String) : Bool :=
  let m := message.toList.map Char.toLower
  containsStr m "skipped".toList || containsStr m "missing".toList || containsStr m "block not available".toList

/-- Whether an error means that the slot has no block. -/
def isSlotUnavailable (message : String) (code : Option ℤ) : Bool :=
  if code = some (-32004) ∨ code = some (-32007) ∨ code = some (-32009) then true else saysUnavailable message

/-- The message of an error. -/
def errorMessage (err : Json) : String := ((err.get "message").bind Json.asStr).getD "rpc error"

/-- Decode a `getBlock` envelope. -/
def decodeGetBlockJson (fromValue : Json → Except String RpcEnvelope) (slot : UInt64) (value : Json) :
    Except RpcError DecodedBlock :=
  match value.get "error" with
  | some err =>
    let message := errorMessage err
    let code := (err.get "code").bind Json.asI64
    if isSlotUnavailable message code then .error .slotSkipped else .error (.rpcReturnedError message)
  | none =>
    match fromValue value with
    | .error e => .error (.unexpectedShape e)
    | .ok resp =>
      match resp.result with
      | none => .error (.unexpectedShape "missing result")
      | some raw => .ok (decodeBlock slot raw)

/-- What a request gets: an error of the network, or of the body that is read from it, or a JSON value. -/
inductive Reply where
  | transport (error : String)
  | json (value : Json)

/-- `get_block` over the replies to the requests. -/
def getBlockReply (fromValue : Json → Except String RpcEnvelope) (replies : UInt64 → ℕ → Reply) : Rpc :=
  fun slot attempt =>
    match replies slot attempt with
    | .transport error => .error (.transport error)
    | .json value => decodeGetBlockJson fromValue slot value

/-- An `error` field makes the answer an error, whatever else the envelope has. -/
theorem decode_error {value err : Json} (herr : value.get "error" = some err)
    (fromValue : Json → Except String RpcEnvelope) (slot : UInt64) :
    decodeGetBlockJson fromValue slot value =
      .error (if isSlotUnavailable (errorMessage err) ((err.get "code").bind Json.asI64) then .slotSkipped
        else .rpcReturnedError (errorMessage err)) := by
  unfold decodeGetBlockJson
  simp only [herr]
  split
  · rfl
  · rfl

/-! ## The slot of a block -/

/-- An envelope without an error that decodes gives a block of the slot that was asked for. -/
theorem decodeGetBlockJson_slot {fromValue : Json → Except String RpcEnvelope} {slot : UInt64} {value : Json}
    {block : DecodedBlock} (h : decodeGetBlockJson fromValue slot value = .ok block) : block.slot = slot := by
  cases herr : value.get "error" with
  | some err =>
    rw [decode_error herr] at h
    cases h
  | none =>
    unfold decodeGetBlockJson at h
    simp only [herr] at h
    cases hvalue : fromValue value with
    | error e =>
      rw [hvalue] at h
      cases h
    | ok resp =>
      obtain ⟨result⟩ := resp
      cases result with
      | none =>
        rw [hvalue] at h
        cases h
      | some raw =>
        rw [hvalue] at h
        cases h
        rfl

/-- A block that is answered is one of the slot that was asked for. -/
theorem getBlockReply_slot {fromValue : Json → Except String RpcEnvelope} {replies : UInt64 → ℕ → Reply} {slot : UInt64}
    {attempt : ℕ} {block : DecodedBlock} (h : getBlockReply fromValue replies slot attempt = .ok block) :
    block.slot = slot := by
  unfold getBlockReply at h
  cases hreply : replies slot attempt with
  | transport error =>
    rw [hreply] at h
    cases h
  | json value =>
    rw [hreply] at h
    exact decodeGetBlockJson_slot h

/-- **The replies answer as `getBlock` does.** -/
theorem exists_getBlock_eq (fromValue : Json → Except String RpcEnvelope) (replies : UInt64 → ℕ → Reply) :
    ∃ answers, getBlockReply fromValue replies = getBlock answers := by
  refine ⟨fun slot attempt => (getBlockReply fromValue replies slot attempt).map fun block =>
    (block.blockTime, block.transactions), ?_⟩
  funext slot attempt
  unfold getBlock
  cases h : getBlockReply fromValue replies slot attempt with
  | error e =>
    simp only [h]
    rfl
  | ok block =>
    have hslot := getBlockReply_slot h
    obtain ⟨blockSlot, blockTime, transactions⟩ := block
    obtain rfl : blockSlot = slot := hslot
    simp only [h]
    rfl

end Tenso.Ingest
