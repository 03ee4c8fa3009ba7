import Mathlib.Logic.Basic
import Tenso.Cli.Depth
import Tenso.Cli.RoundTrip
import Tenso.Cli.StoreStage
import Tenso.Storage.WriteRuns

/-!
# Integrity across the tables

The schema has no foreign keys: what ties the tables together is that all rows of a slot come from one block. This
holds in every run of writes, whether they succeed or not (`writeRuns_oneBlock`), so the rows of `transactions`,
`account_locks` and `token_balance_changes` refer to rows that are there (`writeRuns_integrity`).

`tx_count` is an `INTEGER`, and a net amount is stored by its low 64 bits: the count is exact below `2 ^ 31`, and a
net of `2 ^ 64` leaves a row with two zeros (`writeRuns_limits`).
-/

namespace Tenso.Cli

open Ingest (DecodedBlock DecodedTransaction)
open Storage

/-! ## Runs of writes -/

/-- A write of the repository; what is written is arbitrary, apart from the rows of a slot, which come from
`parseBlock`. -/
inductive Write where
  | replaceSlots (blocks : List DecodedBlock)
  | scheduleSteps (signatures : List String) (schedule : Contention.ScheduleResult)
  | ingestionStatus (slot : UInt64) (status : String) (note : Option String)
  | candles (mint : String) (intervalSec : Int32) (cs : List Ohlcv.Candle)

/-- The blocks of a write. -/
def Write.blocks : Write → List DecodedBlock
  | .replaceSlots blocks => blocks
  | _ => []

/-- Make a write on a connection. -/
def Write.run (f : Faults) : Write → Conn Store → Except DbError Unit × Conn Store
  | .replaceSlots blocks => replaceSlotsBatch f (slotRows blocks)
  | .scheduleSteps signatures schedule => Conn.executeAll f (writeScheduleSteps signatures schedule)
  | .ingestionStatus slot status note => Conn.executeAll f [upsertIngestionStatus slot status note]
  | .candles mint intervalSec cs => Conn.executeAll f (upsertCandles mint intervalSec cs)

/-- The runs of writes on blocks with `P`, from the empty store; each write may succeed or fail. -/
def writeRuns (P : DecodedBlock → Prop) : Transition.System (Conn Store) where
  init c := c.store = .empty ∧ c.txn = none
  step c c' := ∃ (f : Faults) (w : Write), (∀ d ∈ w.blocks, P d) ∧ (w.run f c).2 = c'

/-! ## The rows of a slot -/

/-- The rows of a slot in the four tables. -/
@[ext] structure SlotTables where
  blocks : List BlocksRow
  transactions : List TransactionsRow
  accountLocks : List AccountLocksRow
  tokenBalanceChanges : List TokenBalanceChangesRow

/-- What a store holds of a slot, steps apart. -/
def slotTables (st : Store) (slot : Int64) : SlotTables where
  blocks := st.blocks.rows.filter (·.slot = slot)
  transactions := (st.transactions.rows.filter (·.slot = slot)).map withoutStep
  accountLocks := st.accountLocks.rows.filter (·.slot = slot)
  tokenBalanceChanges := st.tokenBalanceChanges.rows.filter (·.slot = slot)

/-- What a block leaves at its slot, steps apart. -/
def blockTables (d : DecodedBlock) : SlotTables where
  blocks := [blocksRow (parseBlock d).slotRow]
  transactions := newTransactions (parseBlock d).slotRow
  accountLocks := newAccountLocks (parseBlock d).slotRow
  tokenBalanceChanges := newTokenBalanceChanges (parseBlock d).slotRow

/-- Nothing at a slot. -/
def SlotTables.none : SlotTables := ⟨[], [], [], []⟩

/-- All rows of a slot are those of one block with `P`. -/
def OneBlock (P : DecodedBlock → Prop) (st : Store) (slot : Int64) : Prop :=
  slotTables st slot = .none ∨
    ∃ d, P d ∧ InRange (parseBlock d).slotRow ∧ d.slot.toInt64 = slot ∧ slotTables st slot = blockTables d

theorem slotTables_sameSlot {st st' : Store} {slot : Int64} (h : SameSlot slot st st') :
    slotTables st' slot = slotTables st slot := by
  simp only [slotTables, h.blocks, h.transactions, h.accountLocks, h.tokenBalanceChanges]

theorem slotTables_holds {d : DecodedBlock} {st : Store} (h : Holds (parseBlock d).slotRow st) :
    slotTables st d.slot.toInt64 = blockTables d := by
  have hstep : (newTransactions (parseBlock d).slotRow).map withoutStep = newTransactions (parseBlock d).slotRow := by
    conv => rhs; rw [← List.map_id (newTransactions (parseBlock d).slotRow)]
    apply List.map_congr_left
    intro r hr
    have := newTransactions_step d r hr
    cases r
    simp_all [withoutStep]
  ext1
  · exact h.blocks
  · show (st.transactions.rows.filter (·.slot = (parseBlock d).slotRow.slot.toInt64)).map withoutStep = _
    rw [h.transactions, hstep]
    rfl
  · exact h.accountLocks
  · exact h.tokenBalanceChanges

/-! ## What a write keeps -/

/-- A batch gives each of its slots the rows of a block. -/
theorem OneBlock.replaced {P : DecodedBlock → Prop} {blocks : List DecodedBlock} {st st' : Store}
    (h : ∀ slot, OneBlock P st slot) (hP : ∀ d ∈ blocks, P d) (hst : ReplacesAll (slotRows blocks) st st') :
    ∀ slot, OneBlock P st' slot := by
  intro slot
  by_cases hs : slot ∈ blocks.map (·.slot.toInt64)
  · obtain ⟨pre, d, post, rfl, rfl, hlast⟩ := exists_last hs
    have hholds := holds_live hst hlast
    exact Or.inr ⟨d, hP d (by simp), hholds.inRange, rfl, slotTables_holds hholds⟩
  · have hs' : slot ∉ (slotRows blocks).map (·.slot.toInt64) := by rwa [slotRows_slots]
    rw [OneBlock, slotTables_sameSlot (hst.frame hs')]
    exact h slot

/-- The update of a step changes only the step. -/
theorem slotTables_updateStep {sig : String} {step : ℕ} {st st' : Store} (h : updateStep sig step st = .ok st') :
    slotTables st' = slotTables st := by
  cases h
  funext slot
  ext1
  · rfl
  · simp only [slotTables, Table.updateWhere_rows, List.filter_map, List.map_map]
    have hslot : (fun r : TransactionsRow => decide (r.slot = slot)) ∘
        (fun r => if decide (r.signature = sig) = true then { r with step := some (Int32.ofNat step) } else r) =
          fun r => decide (r.slot = slot) := by
      funext r
      by_cases hr : r.signature = sig <;> simp [hr]
    rw [hslot]
    apply List.map_congr_left
    intro r _
    by_cases hr : r.signature = sig <;> simp [hr, withoutStep]
  · rfl
  · rfl

/-- A write as one of the repository. -/
def Write.toRepository : Write → RepositoryWrite
  | .replaceSlots blocks => .replaceSlotsBatch (slotRows blocks)
  | .scheduleSteps signatures schedule => .writeScheduleSteps signatures schedule
  | .ingestionStatus slot status note => .upsertIngestionStatus slot status note
  | .candles mint intervalSec cs => .upsertCandles mint intervalSec cs

theorem Write.run_eq (f : Faults) (w : Write) : w.run f = w.toRepository.run f := by cases w <;> rfl

theorem Write.batch_toRepository (w : Write) : w.toRepository.batch = slotRows w.blocks := by cases w <;> rfl

/-- The batches of blocks with `P`. -/
def BatchOf (P : DecodedBlock → Prop) (slots : List SlotBatchRow) : Prop :=
  ∃ blocks : List DecodedBlock, slots = slotRows blocks ∧ ∀ d ∈ blocks, P d

/-- Every write keeps all slots at one block. -/
theorem keptByWrites_oneBlock (P : DecodedBlock → Prop) :
    KeptByWrites (BatchOf P) fun st => ∀ slot, OneBlock P st slot where
  batch := by
    rintro _ st st' ⟨blocks, rfl, hP⟩ hst h
    exact OneBlock.replaced h hP hst
  step hst h slot := by
    rw [OneBlock, slotTables_updateStep hst]
    exact h slot
  status h := h
  candles h := h

/-- A run of writes keeps all slots at one block. -/
theorem writeRuns_oneBlock {P : DecodedBlock → Prop} {c : Conn Store} (h : Transition.Reachable (writeRuns P) c) :
    c.txn = none ∧ ∀ slot, OneBlock P c.store slot := by
  have hruns : Transition.Reachable (runsOf (BatchOf P)) (id c) := by
    refine h.map (T := runsOf (BatchOf P)) (f := id) ?_ ?_
    · exact fun _ hinit => hinit
    · rintro c c' _ ⟨f, w, hP, rfl⟩
      refine Or.inl ⟨f, w.toRepository, ⟨w.blocks, w.batch_toRepository, hP⟩, ?_⟩
      rw [← Write.run_eq]
      rfl
  exact (keptByWrites_oneBlock P).reachable (fun _ => Or.inl rfl) hruns

/-! ## The relations between the tables -/

/-- The number of transactions of a slot. -/
def txRowCount (st : Store) (slot : Int64) : ℕ := (st.transactions.rows.filter (·.slot = slot)).length

/-- Integrity: the rows of a slot refer to rows that are there. -/
structure Integrity (st : Store) : Prop where
  txCount : ∀ b ∈ st.blocks.rows, b.txCount = Int32.ofNat (txRowCount st b.slot)
  transactions : ∀ r ∈ st.transactions.rows, ∃ b ∈ st.blocks.rows, b.slot = r.slot ∧ b.blockTime = r.blockTime
  accountLocks : ∀ l ∈ st.accountLocks.rows, ∃ r ∈ st.transactions.rows, r.signature = l.txSignature ∧ r.slot = l.slot
  tokenBalanceChanges : ∀ c ∈ st.tokenBalanceChanges.rows,
    (∃ r ∈ st.transactions.rows, r.signature = c.txSignature ∧ r.slot = c.slot ∧ r.failed = false) ∧
    (∃ b ∈ st.blocks.rows, b.slot = c.slot ∧ b.blockTime = c.blockTime) ∧ (c.preAmount = 0 ∨ c.postAmount = 0)

/-- The counts of the blocks are exact. -/
def ExactCounts (st : Store) : Prop := ∀ b ∈ st.blocks.rows, b.txCount.toInt = txRowCount st b.slot

/-- Exactly one of the amounts of a token row is not `0`. -/
def OneSidedRows (st : Store) : Prop :=
  ∀ c ∈ st.tokenBalanceChanges.rows, Xor (c.preAmount ≠ 0) (c.postAmount ≠ 0)

/-- The nets of the block fit 64 bits. -/
def NetsFit (d : DecodedBlock) : Prop :=
  ∀ sig mint, -2 ^ 64 < netChange (parseBlock d).slotRow sig mint ∧ netChange (parseBlock d).slotRow sig mint < 2 ^ 64

/-- Each transaction has at most one delta of a mint, as decoding leaves it. -/
def OneDeltaAMint (d : DecodedBlock) : Prop := ∀ t ∈ d.transactions, (t.tokenDeltas.map (·.mint)).Nodup

section OneBlock

variable {P : DecodedBlock → Prop} {st : Store} {d : DecodedBlock}

theorem blocksRow_mem (hd : slotTables st d.slot.toInt64 = blockTables d) :
    blocksRow (parseBlock d).slotRow ∈ st.blocks.rows := by
  have hmem : blocksRow (parseBlock d).slotRow ∈ (slotTables st d.slot.toInt64).blocks := by
    rw [hd]
    exact List.mem_singleton_self _
  exact List.mem_of_mem_filter hmem

/-- A transaction of the block has its row. -/
theorem transactionsRow_mem (hd : slotTables st d.slot.toInt64 = blockTables d) {t : DecodedTransaction}
    (ht : t ∈ d.transactions) : ∃ r ∈ st.transactions.rows, r.signature = t.signature ∧ r.slot = d.slot.toInt64 ∧
      r.failed = t.failed := by
  have hmem : transactionsRow d.slot.toInt64 d.blockTime (t.signature, t.failed, t.programIds, none) ∈
      (slotTables st d.slot.toInt64).transactions := by
    rw [hd]
    exact List.mem_map_of_mem (List.mem_map_of_mem (f := fun t => (t.signature, t.failed, t.programIds, none)) ht)
  obtain ⟨r, hr, he⟩ := List.mem_map.1 hmem
  obtain ⟨hr, hslot⟩ := List.mem_filter.1 hr
  exact ⟨r, hr, congrArg TransactionsRow.signature he, by simpa using hslot, congrArg TransactionsRow.failed he⟩

theorem txRowCount_eq (hd : slotTables st d.slot.toInt64 = blockTables d) :
    txRowCount st d.slot.toInt64 = d.transactions.length := by
  have h := congrArg (fun s => s.transactions.length) hd
  simpa [slotTables, blockTables, newTransactions, ParsedBlock.slotRow, parseBlock, txRowCount] using h

/-- The signatures of a stored block are distinct. -/
theorem signatures_nodup (hd : slotTables st d.slot.toInt64 = blockTables d) :
    (d.transactions.map (·.signature)).Nodup := by
  have h := congrArg (fun s => s.transactions.map (·.signature)) hd
  simp only [slotTables, blockTables, List.map_map, newTransactions_signatures] at h
  rw [← h]
  exact st.transactions.keyed.sublist (List.filter_sublist.map _)

/-- With one delta a mint, the net of a signature and a mint is this delta, if there is one. -/
theorem OneDeltaAMint.netsFit (h : OneDeltaAMint d) (hd : (d.transactions.map (·.signature)).Nodup) : NetsFit d := by
  intro sig mint
  have hkeys : (((parseBlock d).tokenChanges.map tokenNetItem).map (·.1)).Nodup := by
    rw [parseBlock_tokenChanges]
    apply tokenChanges_keys_nodup (hd.sublist (List.filter_sublist.map _))
    exact fun t ht => h t (List.mem_of_mem_filter ht)
  by_cases hm : (sig, mint) ∈ ((parseBlock d).tokenChanges.map tokenNetItem).map (·.1)
  · obtain ⟨item, hitem, hkey⟩ := List.mem_map.1 hm
    have htotal : netChange (parseBlock d).slotRow sig mint = item.2.1 := by
      rw [netChange, ← hkey]
      exact (Netting.firstTag_of_mem hkeys hitem).2
    obtain ⟨⟨s, m, pre, post, dec⟩, _, rfl⟩ := List.mem_map.1 hitem
    have hpre := pre.toNat_lt
    have hpost := post.toNat_lt
    simp only [htotal, tokenNetItem]
    omega
  · have hzero : netChange (parseBlock d).slotRow sig mint = 0 := by
      refine List.sum_eq_zero fun x hx => ?_
      obtain ⟨item, hitem, rfl⟩ := List.mem_map.1 hx
      exact if_neg fun he => hm (List.mem_map.2 ⟨item, hitem, he⟩)
    omega

/-- A row at a slot is a row of the slot's block. -/
theorem OneBlock.of_mem {slot : Int64} (h : OneBlock P st slot) {β : Type} (table : SlotTables → List β)
    (hnone : table .none = []) {x : β} (hx : x ∈ table (slotTables st slot)) :
    ∃ d, P d ∧ InRange (parseBlock d).slotRow ∧ d.slot.toInt64 = slot ∧ slotTables st d.slot.toInt64 = blockTables d ∧
      x ∈ table (blockTables d) := by
  rcases h with h | ⟨d, hP, hrange, rfl, h⟩
  · rw [h, hnone] at hx
    cases hx
  · exact ⟨d, hP, hrange, rfl, h, h ▸ hx⟩

theorem OneBlock.of_block (h : ∀ slot, OneBlock P st slot) {b : BlocksRow} (hb : b ∈ st.blocks.rows) :
    ∃ d, P d ∧ slotTables st d.slot.toInt64 = blockTables d ∧ b = blocksRow (parseBlock d).slotRow := by
  have hmem : b ∈ (slotTables st b.slot).blocks := List.mem_filter.2 ⟨hb, decide_eq_true rfl⟩
  obtain ⟨d, hP, _, _, hd, hx⟩ := (h b.slot).of_mem (·.blocks) rfl hmem
  exact ⟨d, hP, hd, List.mem_singleton.1 hx⟩

theorem OneBlock.of_token (h : ∀ slot, OneBlock P st slot) {c : TokenBalanceChangesRow}
    (hc : c ∈ st.tokenBalanceChanges.rows) :
    ∃ d, P d ∧ InRange (parseBlock d).slotRow ∧ d.slot.toInt64 = c.slot ∧ slotTables st d.slot.toInt64 = blockTables d ∧
      c ∈ newTokenBalanceChanges (parseBlock d).slotRow := by
  have hmem : c ∈ (slotTables st c.slot).tokenBalanceChanges := List.mem_filter.2 ⟨hc, decide_eq_true rfl⟩
  exact (h c.slot).of_mem (·.tokenBalanceChanges) rfl hmem

/-- A store with one block a slot has integrity. -/
theorem OneBlock.integrity (h : ∀ slot, OneBlock P st slot) : Integrity st := by
  constructor
  · intro b hb
    obtain ⟨d, _, hd, rfl⟩ := OneBlock.of_block h hb
    have hcount := txRowCount_eq hd
    simp only [blocksRow, slotRow_slot, parseBlock_slot, hcount]
    simp [ParsedBlock.slotRow, parseBlock]
  · intro r hr
    have hmem : withoutStep r ∈ (slotTables st r.slot).transactions :=
      List.mem_map_of_mem (List.mem_filter.2 ⟨hr, decide_eq_true rfl⟩)
    obtain ⟨d, _, _, hslot, hd, hx⟩ := (h r.slot).of_mem (·.transactions) rfl hmem
    obtain ⟨t, _, he⟩ := List.mem_map.1 hx
    exact ⟨_, blocksRow_mem hd, hslot, congrArg TransactionsRow.blockTime he⟩
  · intro l hl
    have hmem : l ∈ (slotTables st l.slot).accountLocks := List.mem_filter.2 ⟨hl, decide_eq_true rfl⟩
    obtain ⟨d, _, _, hslot, hd, hx⟩ := (h l.slot).of_mem (·.accountLocks) rfl hmem
    obtain ⟨t, ht, hsig⟩ := newAccountLocks_signature hx
    obtain ⟨r, hr, hrs, hrslot, _⟩ := transactionsRow_mem hd ht
    exact ⟨r, hr, hrs.trans hsig, hrslot.trans hslot⟩
  · intro c hc
    obtain ⟨d, _, hrange, hslot, hd, hx⟩ := OneBlock.of_token h hc
    obtain ⟨t, ht, hok, hsig⟩ := newTokenBalanceChanges_signature hx
    obtain ⟨r, hr, hrs, hrslot, hfailed⟩ := transactionsRow_mem hd ht
    have hnet := (mem_newTokenBalanceChanges_iff hrange).1 hx
    refine ⟨⟨r, hr, hrs.trans hsig, hrslot.trans hslot, hfailed.trans hok⟩,
      ⟨_, blocksRow_mem hd, hslot, hnet.blockTime.symm⟩, ?_⟩
    -- one side of a net is `0`, whatever its size
    have ham := hnet.amounts
    unfold Netting.oneSided at ham
    split at ham
    · exact Or.inl (Prod.mk.inj ham).1
    · exact Or.inr (Prod.mk.inj ham).2

theorem OneBlock.exactCounts (h : ∀ slot, OneBlock P st slot) (hP : ∀ d, P d → d.transactions.length < 2 ^ 31) :
    ExactCounts st := by
  intro b hb
  have hcount := (OneBlock.integrity h).txCount b hb
  obtain ⟨d, hd, htables, rfl⟩ := OneBlock.of_block h hb
  have hlen : txRowCount st (blocksRow (parseBlock d).slotRow).slot = d.transactions.length := txRowCount_eq htables
  rw [hcount, hlen]
  exact (toInt_ofNat_eq_iff _).2 (hP d hd)

theorem OneBlock.oneSidedRows (h : ∀ slot, OneBlock P st slot) (hP : ∀ d, P d → NetsFit d ∨ OneDeltaAMint d) :
    OneSidedRows st := by
  intro c hc
  obtain ⟨d, hd, hrange, _, htables, hx⟩ := OneBlock.of_token h hc
  have hfit : NetsFit d := (hP d hd).elim id fun hone => hone.netsFit (signatures_nodup htables)
  have hnet := (mem_newTokenBalanceChanges_iff hrange).1 hx
  obtain ⟨hlo, hhi⟩ := hfit c.txSignature c.mint
  obtain ⟨hexact, hside⟩ := hnet.exact hlo hhi
  have hne := hnet.net_ne
  rcases hside with hpre | hpost
  · refine Or.inr ⟨fun hpost => hne ?_, fun hno => hno hpre⟩
    rw [← hexact, hpre, hpost]
    rfl
  · refine Or.inl ⟨fun hpre => hne ?_, fun hno => hno hpost⟩
    rw [← hexact, hpre, hpost]
    rfl

end OneBlock

/-- **Integrity of every run.** In every run of writes on blocks with `P` the tables refer to each other; the counts are
exact if these blocks have fewer than `2 ^ 31` transactions, and the token rows are one-sided if the nets fit 64 bits or
each transaction has one delta a mint. -/
theorem writeRuns_integrity (P : DecodedBlock → Prop) (c : Conn Store) (h : Transition.Reachable (writeRuns P) c) :
    Integrity c.store ∧
    ((∀ d, P d → d.transactions.length < 2 ^ 31) → ExactCounts c.store) ∧
    ((∀ d, P d → NetsFit d ∨ OneDeltaAMint d) → OneSidedRows c.store) := by
  obtain ⟨_, hone⟩ := writeRuns_oneBlock h
  exact ⟨OneBlock.integrity hone, OneBlock.exactCounts hone, OneBlock.oneSidedRows hone⟩

/-- A batch that is accepted on the empty store. -/
theorem reachable_replaced {P : DecodedBlock → Prop} {blocks : List DecodedBlock} {st : Store}
    (h : ReplacesAll (slotRows blocks) .empty st) (hP : ∀ d ∈ blocks, P d) :
    ∃ c, Transition.Reachable (writeRuns P) c ∧ c.store = st := by
  have hrun := replaceSlotsBatch_accepts (f := fun _ => false) (n := 0) (fun _ _ => rfl) h
  refine ⟨_, .step (s := ⟨.empty, none, 0⟩) (.init ⟨rfl, rfl⟩) ⟨fun _ => false, .replaceSlots blocks, hP, rfl⟩, ?_⟩
  rw [Write.run, hrun]

/-- Writes one after the other. -/
theorem reachable_writes {P : DecodedBlock → Prop} {c : Conn Store} (h : Transition.Reachable (writeRuns P) c) :
    ∀ {writes : List (Faults × Write)}, (∀ w ∈ writes, ∀ d ∈ w.2.blocks, P d) →
      Transition.Reachable (writeRuns P) (writes.foldl (fun c w => (w.2.run w.1 c).2) c)
  | [], _ => h
  | w :: _, hP => reachable_writes (h.step ⟨w.1, w.2, hP w List.mem_cons_self, rfl⟩)
      fun v hv => hP v (List.mem_cons_of_mem _ hv)

/-- A batch of two blocks, their steps and a status, then one of the blocks again: a fault rejects it first. -/
def sampleWrites : List (Faults × Write) :=
  [(fun _ => false, .replaceSlots [oneDeltaBlock 5 6, conflictBlock 2 "a" "b"]),
    (fun _ => false,
      .scheduleSteps ["a", "b"] (Contention.schedule ((conflictBlock 2 "a" "b").transactions.map txLocks))),
    (fun _ => false, .ingestionStatus 2 "ingested" none),
    (fun n => n = 30, .replaceSlots [oneDeltaBlock 5 6]),
    (fun _ => false, .replaceSlots [oneDeltaBlock 5 6])]

/-- The rows that these writes leave have integrity, counts and sides. -/
theorem writeRuns_integrity_example : ∃ c : Conn Store,
    Transition.Reachable (writeRuns fun d => d = oneDeltaBlock 5 6 ∨ d = conflictBlock 2 "a" "b") c ∧
    c.store.transactions.rows.length = 3 ∧ c.store.tokenBalanceChanges.rows.length = 1 ∧
    Integrity c.store ∧ ExactCounts c.store ∧ OneSidedRows c.store := by
  have hreach := @reachable_writes (fun d => d = oneDeltaBlock 5 6 ∨ d = conflictBlock 2 "a" "b") ⟨.empty, none, 0⟩
    (.init ⟨rfl, rfl⟩) sampleWrites (by decide)
  obtain ⟨hint, hcount, hside⟩ := writeRuns_integrity _ _ hreach
  refine ⟨_, hreach, rfl, rfl, hint, hcount ?_, hside ?_⟩
  · rintro d (rfl | rfl) <;> decide
  · rintro d (rfl | rfl)
    all_goals exact Or.inr (by unfold OneDeltaAMint; decide)

/-! ## Beyond the limits -/

/-- A block with a transaction that receives `2 ^ 64 - 1` and `1` tokens of one mint. -/
def wrapBlock : DecodedBlock :=
  { slot := 1, blockTime := none,
    transactions :=
      [⟨"sig", 1, none, [], [], [⟨"mint", 0, 18446744073709551615, 6⟩, ⟨"mint", 0, 1, 6⟩], false⟩] }

/-- A block of `2 ^ 31` transactions gets a negative count, and a net of `2 ^ 64` leaves two zeros. -/
theorem writeRuns_limits :
    (∃ c, Transition.Reachable (writeRuns fun _ => True) c ∧ ¬ExactCounts c.store) ∧
    ∃ c, Transition.Reachable (writeRuns fun _ => True) c ∧ ¬OneSidedRows c.store := by
  constructor
  · obtain ⟨st, hst⟩ := chain_valid (2 ^ 31)
    obtain ⟨c, hreach, rfl⟩ := reachable_replaced (P := fun _ => True) hst fun _ _ => trivial
    refine ⟨c, hreach, fun hexact => ?_⟩
    have htables := slotTables_holds (@holds_live [] [] _ _ _ hst List.not_mem_nil)
    have hcount := hexact _ (blocksRow_mem htables)
    have hlen : (chainBlock (2 ^ 31)).transactions.length = 2 ^ 31 := by
      rw [chainBlock, List.length_map, List.length_range]
    have hrows := txRowCount_eq htables
    rw [hlen] at hrows
    have hlt := Int32.toInt_lt (blocksRow (parseBlock (chainBlock (2 ^ 31))).slotRow).txCount
    have hslot : (blocksRow (parseBlock (chainBlock (2 ^ 31))).slotRow).slot = (chainBlock (2 ^ 31)).slot.toInt64 := rfl
    rw [hslot, hrows] at hcount
    omega
  · refine ⟨_, .step (s := ⟨.empty, none, 0⟩) (.init ⟨rfl, rfl⟩)
      ⟨fun _ => false, .replaceSlots [wrapBlock], fun _ _ => trivial, rfl⟩, fun hside => ?_⟩
    rcases hside ⟨"sig", 1, none, "mint", 0, 0, 6⟩ (List.mem_singleton_self _) with ⟨hpre, _⟩ | ⟨hpost, _⟩
    · exact hpre rfl
    · exact hpost rfl

end Tenso.Cli
