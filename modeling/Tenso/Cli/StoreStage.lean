import Tenso.Cli.Flush

/-!
# The store stage

The store stage writes the status of every outcome, collects parsed blocks and flushes them in batches. A flush in the
middle of the run may fail: the error is only logged, and the batch is gone. A final flush that fails ends the stage
with its error.

`flushPending_spec` and `recordOutcome_eq_ok` say what a flush and a status write do to the data of a slot.
-/

namespace Tenso.Cli

open Storage

/-- The pending batch and the counts of the store stage. -/
structure Tally where
  pending : List ParsedBlock
  ingested : ℕ
  ingestedTxs : ℕ
  skipped : ℕ
  failed : ℕ

/-- The state of the store stage. -/
structure StoreState extends Tally where
  conn : Conn Store

/-- The status and the note of an outcome. -/
def ParsedOutcome.status : ParsedOutcome → String × Option String
  | .ingested _ => ("ingested", none)
  | .skipped _ => ("skipped", none)
  | .failed _ error => ("failed", some error)

/-- Nothing pending, nothing counted. -/
def Tally.zero : Tally := ⟨[], 0, 0, 0, 0⟩

/-- Count an outcome; a block joins the pending batch. -/
def Tally.count (t : Tally) : ParsedOutcome → Tally
  | .ingested block =>
    { t with pending := t.pending ++ [block], ingested := t.ingested + 1,
             ingestedTxs := t.ingestedTxs + block.transactions.length }
  | .skipped _ => { t with skipped := t.skipped + 1 }
  | .failed _ _ => { t with failed := t.failed + 1 }

/-- Hand the pending batch on. -/
def Tally.take (t : Tally) : Tally := { t with pending := [] }

/-- Write the status of an outcome and count it. -/
def recordOutcome (f : Faults) (parsed : ParsedOutcome) (s : StoreState) : Except DbError Unit × StoreState :=
  match s.conn.execute f (upsertIngestionStatus parsed.slot parsed.status.1 parsed.status.2) with
  | (.ok (), c) => (.ok (), { toTally := s.toTally.count parsed, conn := c })
  | (.error e, c) => (.error e, { s with conn := c })

/-- Flush the pending batch, which is empty afterwards. -/
def flushPending (f : Faults) (s : StoreState) : Except DbError Unit × StoreState :=
  let (result, c) := flushParsedBatch f s.pending s.conn
  (result, { toTally := s.toTally.take, conn := c })

/-- One turn of the loop; the result of a flush is only logged. -/
def storeOutcome (f : Faults) (batchSize : ℕ) (parsed : ParsedOutcome) (s : StoreState) :
    Except DbError Unit × StoreState :=
  match recordOutcome f parsed s with
  | (.error e, s) => (.error e, s)
  | (.ok (), s) => (.ok (), if batchSize ≤ s.pending.length then (flushPending f s).2 else s)

/-- The loop, up to the first error. -/
def storeLoop (f : Faults) (batchSize : ℕ) : List ParsedOutcome → StoreState → Except DbError Unit × StoreState
  | [], s => (.ok (), s)
  | parsed :: rest, s =>
    match storeOutcome f batchSize parsed s with
    | (.error e, s) => (.error e, s)
    | (.ok (), s) => storeLoop f batchSize rest s

/-- The state at the start of the stage. -/
def StoreState.init (c : Conn Store) : StoreState := { toTally := .zero, conn := c }

/-- The store stage: the loop, then a last flush of what is pending. -/
def storeStage (f : Faults) (batchSize : ℕ) (outcomes : List ParsedOutcome) (c : Conn Store) :
    Except DbError (ℕ × ℕ × ℕ × ℕ) × StoreState :=
  match storeLoop f batchSize outcomes (.init c) with
  | (.error e, s) => (.error e, s)
  | (.ok (), s) =>
    let counts := (s.ingested, s.skipped, s.failed, s.ingestedTxs)
    if s.pending.isEmpty then (.ok counts, s)
    else
      match flushPending f s with
      | (.ok (), s) => (.ok counts, s)
      | (.error e, s) => (.error e, s)

/-! ## The data of a slot -/

/-- A row of `transactions` without its step. -/
def withoutStep (r : TransactionsRow) : TransactionsRow := { r with step := none }

/-- The rows of `blocks` and `transactions` of a slot, without steps. -/
def slotData (st : Store) (slot : Int64) : List BlocksRow × List TransactionsRow :=
  (st.blocks.rows.filter (·.slot = slot), (st.transactions.rows.filter (·.slot = slot)).map withoutStep)

/-- The block is stored: its row, and its transactions in some order. -/
def Stored (b : ParsedBlock) (st : Store) : Prop :=
  (slotData st b.slot.toInt64).1 = [blocksRow b.slotRow] ∧
  (slotData st b.slot.toInt64).2.Perm ((newTransactions b.slotRow).map withoutStep)

theorem Stored.congr {b : ParsedBlock} {st st' : Store} (h : slotData st' b.slot.toInt64 = slotData st b.slot.toInt64) :
    Stored b st' ↔ Stored b st := by rw [Stored, Stored, h]

/-- The transaction of a flush is committed: the batch is valid and no fault hits it. -/
def Commits (f : Faults) (blocks : List ParsedBlock) (c : Conn Store) : Prop :=
  Conn.Quiet f c.clock (statementCount (blocks.map (·.slotRow))) ∧ Valid c.store (blocks.map (·.slotRow))

theorem slotData_withStep {st : Store} {t : Table TransactionsRow.signature} {us : List (String × ℕ)}
    (ht : t.rows = st.transactions.rows.map (withStep us)) (slot : Int64) :
    slotData { st with transactions := t } slot = slotData st slot := by
  have : withoutStep ∘ withStep us = withoutStep := rfl
  simp only [slotData, ht, filter_map_withStep, List.map_map, this]

theorem slotData_replaced {blocks : List ParsedBlock} {st st' : Store}
    (h : ReplacesAll (blocks.map (·.slotRow)) st st') {slot : Int64} (hs : slot ∉ blocks.map (·.slot.toInt64)) :
    slotData st' slot = slotData st slot := by
  have hs' : slot ∉ (blocks.map (·.slotRow)).map (·.slot.toInt64) := by
    rw [List.map_map]
    exact hs
  have hframe := h.frame hs'
  rw [slotData, hframe.blocks, hframe.transactions, slotData]

theorem stored_replaced {blocks : List ParsedBlock} {st st' : Store} (h : ReplacesAll (blocks.map (·.slotRow)) st st')
    {b : ParsedBlock} (hb : LastOf ParsedBlock.slot blocks b) : Stored b st' := by
  obtain ⟨pre, post, rfl, hpost⟩ := hb
  rw [List.map_append, List.map_cons] at h
  have hholds := h.holds fun hm => hpost (by
    rw [List.map_map] at hm
    obtain ⟨b', hb', he⟩ := List.mem_map.1 hm
    exact List.mem_map.2 ⟨b', hb', toInt64_injective he⟩)
  refine ⟨hholds.blocks, .of_eq ?_⟩
  rw [← hholds.transactions]
  rfl

/-- A flush: rejected, it leaves the store; committed, it stores the last block of each slot of the batch and keeps
the data of other slots. Either way the connection is idle. -/
theorem flushPending_spec (f : Faults) {s : StoreState} (hidle : s.conn.txn = none) :
    (flushPending f s).2.conn.txn = none ∧
    (flushPending f s).2.conn.store.ingestionStatus = s.conn.store.ingestionStatus ∧
    (∀ slot, slot ∉ s.pending.map (·.slot.toInt64) →
      slotData (flushPending f s).2.conn.store slot = slotData s.conn.store slot) ∧
    (¬Commits f s.pending s.conn → (flushPending f s).1 ≠ .ok () ∧ (flushPending f s).2.conn.store = s.conn.store) ∧
    (Commits f s.pending s.conn →
      ∀ b, LastOf ParsedBlock.slot s.pending b → Stored b (flushPending f s).2.conn.store) := by
  obtain ⟨⟨pending, _, _, _, _⟩, ⟨st, txn, n⟩⟩ := s
  simp only at hidle
  subst hidle
  simp only [flushPending, Commits]
  rcases flushParsedBatch_cases f pending st n with ⟨e, m, hrun, hno⟩ | ⟨st₁, hst₁, hq, hrest⟩
  · rw [hrun]
    exact ⟨rfl, rfl, fun _ _ => rfl, fun _ => ⟨nofun, rfl⟩, fun h => absurd h hno⟩
  · have hcommit : Conn.Quiet f n (statementCount (pending.map (·.slotRow))) ∧ Valid st (pending.map (·.slotRow)) :=
      ⟨hq, st₁, hst₁⟩
    have hend : ∃ r t us m, flushParsedBatch f pending ⟨st, none, n⟩ = (r, ⟨{ st₁ with transactions := t }, none, m⟩) ∧
        t.rows = st₁.transactions.rows.map (withStep us) := by
      rcases hrest with ⟨t, m, hrun, _, ht⟩ | ⟨t, e, k, m, hrun, _, _, ht⟩
      · exact ⟨_, t, _, m, hrun, ht⟩
      · exact ⟨_, t, _, m, hrun, ht⟩
    obtain ⟨r, t, us, m, hrun, ht⟩ := hend
    rw [hrun]
    refine ⟨rfl, hst₁.ingestionStatus, fun slot hs => ?_, fun h => absurd hcommit h, fun _ b hb => ?_⟩
    · rw [slotData_withStep ht, slotData_replaced hst₁ hs]
    · exact (Stored.congr (slotData_withStep ht _)).2 (stored_replaced hst₁ hb)

/-- The row of `ingestion_status` of an outcome. -/
def statusRow (o : ParsedOutcome) : IngestionStatusRow := ⟨o.slot.toInt64, o.status.1, o.status.2⟩

/-- The blocks that an outcome adds to the batch. -/
def ParsedOutcome.blocks : ParsedOutcome → List ParsedBlock
  | .ingested block => [block]
  | _ => []

/-- **A status write**: it sets the status of the slot, and a block joins the batch. -/
theorem recordOutcome_eq_ok {f : Faults} {o : ParsedOutcome} {s s' : StoreState} (hidle : s.conn.txn = none)
    (h : recordOutcome f o s = (.ok (), s')) :
    s'.conn.txn = none ∧ s'.pending = s.pending ++ o.blocks ∧
    s'.conn.store =
      { s.conn.store with ingestionStatus := s.conn.store.ingestionStatus.upsert (statusRow o) } := by
  obtain ⟨⟨pending, _, _, _, _⟩, ⟨st, txn, n⟩⟩ := s
  simp only at hidle
  subst hidle
  simp only [recordOutcome, Conn.execute, Conn.attempt] at h
  by_cases hf : f n = true
  · simp [hf] at h
  · simp only [hf, Bool.false_eq_true, if_false, upsertIngestionStatus, Prod.mk.injEq, true_and] at h
    subst h
    cases o with
    | ingested b => exact ⟨rfl, rfl, rfl⟩
    | skipped slot => exact ⟨rfl, (List.append_nil _).symm, rfl⟩
    | failed slot error => exact ⟨rfl, (List.append_nil _).symm, rfl⟩

/-- A status write touches no data. -/
theorem recordOutcome_spec {f : Faults} {o : ParsedOutcome} {s s' : StoreState} (hidle : s.conn.txn = none)
    (h : recordOutcome f o s = (.ok (), s')) :
    s'.conn.txn = none ∧ s'.pending = s.pending ++ o.blocks ∧
    s'.conn.store.ingestionStatus = s.conn.store.ingestionStatus.upsert (statusRow o) ∧
    ∀ slot, slotData s'.conn.store slot = slotData s.conn.store slot := by
  obtain ⟨hidle', hpending, hstore⟩ := recordOutcome_eq_ok hidle h
  rw [hstore]
  exact ⟨hidle', hpending, rfl, fun _ => rfl⟩

end Tenso.Cli
