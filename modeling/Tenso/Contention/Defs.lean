import Tenso.Lib.HashMap

/-!
# The contention scheduler

`buildSchedule` reconstructs an order-preserving schedule of one block: every transaction gets the earliest step that
the earlier transactions it conflicts with allow. Per account it only remembers the step of the last write and the
steps of the reads since then (`AccountState`). A transaction is handled in two passes over its locks:

- `earliestStep` reads the account states and finds the step;
- `recordLock` reports the conflicts and updates the account states.

The second pass unwraps the account state it expects to find, so the whole run is an `Option`; `none` is the panic.
-/

namespace Tenso.Contention

/-- One account lock held by a transaction. -/
structure AccountLock where
  account : String
  isWritable : Bool
  deriving DecidableEq, Repr

/-- A transaction's account locks, as decoded from a block. -/
structure TxLocks where
  signature : String
  programIds : List String
  locks : List AccountLock
  deriving DecidableEq, Repr

/-- One reported conflict. -/
structure ConflictEvent where
  account : String
  txSignature : String
  programIds : List String
  step : Nat
  causedByWrite : Bool
  deriving DecidableEq, Repr

/-- The result of scheduling one block. -/
structure ScheduleResult where
  /-- the step of each transaction, in block order -/
  steps : List Nat
  /-- the number of steps -/
  depth : Nat
  /-- the number of transactions in each step -/
  widthPerStep : HashMap Nat Nat
  conflicts : List ConflictEvent
  deriving DecidableEq

/-- The step of the transaction at position `i`. -/
def ScheduleResult.step (r : ScheduleResult) (i : Nat) : Nat := r.steps.getD i 0

/-- What the scheduler remembers of an account. -/
structure AccountState where
  /-- step of the last write, if any -/
  lastWriteStep : Option Nat := none
  /-- steps of the reads since that write -/
  readerStepsSinceWrite : List Nat := []
  deriving DecidableEq, Repr

/-- The account states of a run. -/
abbrev AccountStates := HashMap String AccountState

/-- The state of the loop over the transactions: account states, steps, conflicts. -/
abbrev LoopState := AccountStates × List Nat × List ConflictEvent

/-! ## First pass: the step of a transaction -/

/-- The largest step that blocks `lock`: a write waits for the last write and for the reads since then, a read only
for the last write. -/
def blockingStep (lock : AccountLock) (state : AccountState) : Option Nat :=
  if lock.isWritable then
    state.readerStepsSinceWrite.foldl (fun b r => some (b.elim r (max · r))) state.lastWriteStep
  else
    state.lastWriteStep

/-- The first pass at one lock: `entry(..).or_default()`, then `earliest = max(earliest, b + 1)`. -/
def earliestStep (acc : AccountStates × Nat) (lock : AccountLock) : AccountStates × Nat :=
  let (accountState, state) := acc.1.entryOr lock.account {}
  match blockingStep lock state with
  | some b => (accountState, max acc.2 (b + 1))
  | none => (accountState, acc.2)

/-! ## Second pass: conflicts and account states -/

/-- Whether an account was locked before. -/
def AccountState.hadPriorActivity (state : AccountState) : Bool :=
  state.lastWriteStep.isSome || !state.readerStepsSinceWrite.isEmpty

/-- The account state after a lock at step `step`. -/
def AccountState.record (state : AccountState) (isWritable : Bool) (step : Nat) : AccountState :=
  if isWritable then { lastWriteStep := some step, readerStepsSinceWrite := [] }
  else { state with readerStepsSinceWrite := state.readerStepsSinceWrite ++ [step] }

/-- The conflicts reported at one lock: a write on an account that was locked before. -/
def conflictOf (tx : TxLocks) (step : Nat) (lock : AccountLock) (state : AccountState) : List ConflictEvent :=
  if lock.isWritable && state.hadPriorActivity then
    [{ account := lock.account, txSignature := tx.signature, programIds := tx.programIds, step,
       causedByWrite := true }]
  else []

/-- The second pass at one lock; `none` is the failing `get_mut(..).unwrap()`. -/
def recordLock (tx : TxLocks) (step : Nat) (acc : AccountStates × List ConflictEvent) (lock : AccountLock) :
    Option (AccountStates × List ConflictEvent) := do
  let state ← acc.1.lookup lock.account
  return (acc.1.insert lock.account (state.record lock.isWritable step), acc.2 ++ conflictOf tx step lock state)

/-! ## The schedule -/

/-- One transaction: its step, then its conflicts and its effect on the account states. -/
def scheduleTx (acc : LoopState) (tx : TxLocks) : Option LoopState := do
  let (accountState, steps, conflicts) := acc
  let (accountState, assignedStep) := tx.locks.foldl earliestStep (accountState, 0)
  let (accountState, conflicts) ← tx.locks.foldlM (recordLock tx assignedStep) (accountState, conflicts)
  return (accountState, steps ++ [assignedStep], conflicts)

/-- How many transactions run in each step. -/
def widthPerStep (steps : List Nat) : HashMap Nat Nat :=
  steps.foldl (fun width s => let (width, n) := width.entryOr s 0; width.insert s (n + 1)) ∅

/-- **The scheduler.** -/
def buildSchedule (txs : List TxLocks) : Option ScheduleResult := do
  let (_, steps, conflicts) ← txs.foldlM scheduleTx (∅, [], [])
  return { steps, depth := (steps.max?.map (· + 1)).getD 0, widthPerStep := widthPerStep steps, conflicts }

/-! ## Conflicts -/

/-- Two transactions conflict when they share an account that at least one of the two locks as writable. -/
def Conflicts (t u : TxLocks) : Prop :=
  ∃ l ∈ t.locks, ∃ m ∈ u.locks, l.account = m.account ∧ (l.isWritable = true ∨ m.isWritable = true)

instance (t u : TxLocks) : Decidable (Conflicts t u) :=
  inferInstanceAs (Decidable (∃ l ∈ t.locks, ∃ m ∈ u.locks, _ ∧ _))

/-- The transactions at positions `i` and `j` of a block conflict. -/
def ConflictAt (txs : List TxLocks) (i j : Nat) : Prop :=
  ∃ t u, txs[i]? = some t ∧ txs[j]? = some u ∧ Conflicts t u

end Tenso.Contention
