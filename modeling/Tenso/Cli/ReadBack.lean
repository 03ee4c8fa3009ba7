import Tenso.Cli.Summaries
import Tenso.Storage.ProgramIds

/-!
# What can be read back

The rows of a slot are those of one fetched block, and they determine its transactions: their signatures, whether they
have failed, their program ids, which are kept as one JSON text, and their locks (`sessions_readBack`). Only the steps
may be missing, and of token balances only the net changes are kept.
-/

namespace Tenso.Cli

open Tenso.Ingest (DecodedBlock DecodedTransaction AccountLock)
open Storage

/-- Two transactions that differ in their token balances and in the order of their locks at most. -/
structure SameTransaction (t t' : DecodedTransaction) : Prop where
  signature : t'.signature = t.signature
  failed : t'.failed = t.failed
  programIds : t'.programIds = t.programIds
  locks : ∀ l : AccountLock, l ∈ t'.locks ↔ l ∈ t.locks

/-- Two blocks with the same transactions, in any order. -/
structure SameTransactions (d d' : DecodedBlock) : Prop where
  blockTime : d'.blockTime = d.blockTime
  length : d'.transactions.length = d.transactions.length
  transactions : ∀ t ∈ d.transactions, ∃ t' ∈ d'.transactions, SameTransaction t t'

section Rows

variable {st : Store} {d d' : DecodedBlock}

/-- The row of a lock is the row of a lock of the transaction. -/
theorem mem_newAccountLocks {sig account : String} {writable : Bool} :
    ⟨d.slot.toInt64, sig, account, writable⟩ ∈ newAccountLocks (parseBlock d).slotRow ↔
      ∃ t ∈ d.transactions, t.signature = sig ∧ (⟨account, writable⟩ : AccountLock) ∈ t.locks := by
  simp only [newAccountLocks, ParsedBlock.slotRow, parseBlock, List.mem_map, List.mem_flatMap]
  constructor
  · rintro ⟨_, ⟨t, ht, l, hl, rfl⟩, he⟩
    cases he
    exact ⟨t, ht, rfl, hl⟩
  · rintro ⟨t, ht, rfl, hl⟩
    exact ⟨_, ⟨t, ht, _, hl, rfl⟩, rfl⟩

theorem mem_locks_iff (hd : (d.transactions.map (·.signature)).Nodup) {t : DecodedTransaction} (ht : t ∈ d.transactions)
    (l : AccountLock) : ⟨d.slot.toInt64, t.signature, l.account, l.isWritable⟩ ∈
      newAccountLocks (parseBlock d).slotRow ↔
      l ∈ t.locks := by
  rw [mem_newAccountLocks]
  constructor
  · rintro ⟨t', ht', hsig, hl⟩
    rwa [List.inj_on_of_nodup_map hd ht' ht hsig] at hl
  · exact fun hl => ⟨t, ht, rfl, hl⟩

/-- The rows determine the transactions. -/
theorem HoldsBlock.sameTransactions (h : HoldsBlock st d) (h' : HoldsBlock st d') (hslot : d'.slot = d.slot) :
    SameTransactions d d' := by
  have htables : blockTables d' = blockTables d := by rw [← h'.tables, ← h.tables, hslot]
  have hblocks : [blocksRow (parseBlock d').slotRow] = [blocksRow (parseBlock d).slotRow] :=
    congrArg SlotTables.blocks htables
  have hrows : newTransactions (parseBlock d').slotRow = newTransactions (parseBlock d).slotRow :=
    congrArg SlotTables.transactions htables
  have hlocks : newAccountLocks (parseBlock d').slotRow = newAccountLocks (parseBlock d).slotRow :=
    congrArg SlotTables.accountLocks htables
  refine ⟨congrArg BlocksRow.blockTime (List.cons.inj hblocks).1, ?_, fun t ht => ?_⟩
  · have hlength := congrArg List.length hrows
    simpa [newTransactions, ParsedBlock.slotRow, parseBlock] using hlength
  · have hmem : transactionsRow d.slot.toInt64 d.blockTime (t.signature, t.failed, t.programIds, none) ∈
        newTransactions (parseBlock d').slotRow := by
      rw [hrows]
      exact List.mem_map_of_mem (List.mem_map_of_mem (f := fun t : DecodedTransaction =>
        (t.signature, t.failed, t.programIds, (none : Option Int32))) ht)
    obtain ⟨_, hx, he⟩ := List.mem_map.1 hmem
    obtain ⟨t', ht', rfl⟩ := List.mem_map.1 hx
    have hsig : t'.signature = t.signature := congrArg TransactionsRow.signature he
    refine ⟨t', ht', hsig, congrArg TransactionsRow.failed he, ?_, fun l => ?_⟩
    · exact jsonStrings_injective (congrArg TransactionsRow.programIds he)
    · rw [← mem_locks_iff h'.signatures_nodup ht', ← mem_locks_iff h.signatures_nodup ht, hlocks, hslot, hsig]

end Rows

/-- **Nothing of a transaction is lost.** At any time in the life of a database a slot is empty, or it holds a fetched
block, and every block with the same rows at that slot has the same transactions. -/
theorem sessions_readBack (P : Setting → Prop) (st : Store) (h : Transition.Reachable (sessions P .empty) st) :
    ∀ slot : UInt64, slotTables st slot.toInt64 = .none ∨ ∃ d, FetchedBy P d ∧ d.slot = slot ∧ HoldsBlock st d ∧
      ∀ d', d'.slot = slot → HoldsBlock st d' → SameTransactions d d' := by
  intro slot
  obtain ⟨_, hone⟩ := sessions_keep (fun S hS => keptByCalls_oneSchedule fun d hd => (⟨S, hS, hd⟩ : FetchedBy P d))
    written_empty (fun _ => Or.inl rfl) h
  rcases hone slot.toInt64 with hnone | ⟨d, hd, hslot, hholds⟩
  · exact Or.inl hnone
  · have hslot := toInt64_injective hslot
    exact Or.inr ⟨d, hd, hslot, hholds, fun d' hd' hholds' => hholds.sameTransactions hholds' (hd'.trans hslot.symm)⟩

/-- Slot 5 after the purchase. -/
theorem sessions_readBack_example : ∃ st, st.transactions.rows.length = 1 ∧
    (slotTables st 5 = .none ∨ ∃ d, FetchedBy (fun _ => True) d ∧ d.slot = 5 ∧ HoldsBlock st d ∧
      ∀ d', d'.slot = 5 → HoldsBlock st d' → SameTransactions d d') := by
  obtain ⟨st, h, hlength, _⟩ := exists_boughtSession
  exact ⟨st, hlength, sessions_readBack _ st h 5⟩

end Tenso.Cli
