import Tenso.Contention.Summary
import Tenso.Ingest.Defs
import Tenso.Storage.Repository

/-!
# The parse stage

`parseBlock` turns a decoded block into the rows of the store and schedules its transactions. Rows, signatures and
steps leave it as parallel lists in block order (`parseBlock_signatures`, `parseBlock_steps_length`).
-/

namespace Tenso.Cli

open Ingest (DecodedTransaction DecodedBlock FetchOutcome)
open Storage (TransactionRow AccountLockRow TokenBalanceRow SlotBatchRow)

/-- A parsed block: the rows of its slot, and the schedule of its transactions. -/
structure ParsedBlock where
  slot : UInt64
  blockTime : Option ℤ
  transactions : List TransactionRow
  locks : List AccountLockRow
  tokenChanges : List TokenBalanceRow
  signatures : List String
  schedule : Contention.ScheduleResult

/-- A parsed outcome. -/
inductive ParsedOutcome where
  | ingested (block : ParsedBlock)
  | skipped (slot : UInt64)
  | failed (slot : UInt64) (error : String)

/-- The slot of an outcome. -/
def ParsedOutcome.slot : ParsedOutcome → UInt64
  | .ingested block => block.slot
  | .skipped slot => slot
  | .failed slot _ => slot

/-- The account locks of a transaction, for the scheduler. -/
def txLocks (t : DecodedTransaction) : Contention.TxLocks :=
  { signature := t.signature, programIds := t.programIds, locks := t.locks.map fun l => ⟨l.account, l.isWritable⟩ }

/-- **Parse a block.** -/
def parseBlock (block : DecodedBlock) : ParsedBlock :=
  { slot := block.slot
    blockTime := block.blockTime
    transactions := block.transactions.map fun t => (t.signature, t.failed, t.programIds, none)
    locks := block.transactions.flatMap fun t => t.locks.map fun l => (t.signature, l.account, l.isWritable)
    -- failed transactions move no tokens
    tokenChanges := (block.transactions.filter fun t => !t.failed).flatMap fun t =>
      t.tokenDeltas.map fun d => (t.signature, d.mint, d.preAmount, d.postAmount, d.decimals)
    signatures := block.transactions.map (·.signature)
    schedule := Contention.schedule (block.transactions.map txLocks) }

/-- Parse an outcome. -/
def parseOutcome : FetchOutcome → ParsedOutcome
  | .skipped slot => .skipped slot
  | .failed slot error => .failed slot error
  | .ingested block => .ingested (parseBlock block)

/-- The rows of a parsed block. -/
def ParsedBlock.slotRow (b : ParsedBlock) : SlotBatchRow :=
  { slot := b.slot, blockTime := b.blockTime, transactions := b.transactions, locks := b.locks,
    tokenChanges := b.tokenChanges }

@[simp] theorem parseBlock_slot (d : DecodedBlock) : (parseBlock d).slot = d.slot := rfl

@[simp] theorem slotRow_slot (b : ParsedBlock) : b.slotRow.slot = b.slot := rfl

/-- The signatures are those of the rows. -/
theorem parseBlock_signatures (d : DecodedBlock) :
    (parseBlock d).signatures = (parseBlock d).transactions.map (·.1) := by
  simp only [parseBlock, List.map_map]
  rfl

/-- Every transaction has a step. -/
theorem parseBlock_steps_length (d : DecodedBlock) :
    (parseBlock d).schedule.steps.length = (parseBlock d).signatures.length := by
  have h := (Contention.schedule_stepAt (d.transactions.map txLocks)).1
  simpa [parseBlock] using h

end Tenso.Cli
