import Tenso.Lib.Transition
import Tenso.Storage.Atomic

/-!
# Runs of writes

The writes of the repository on one connection, in any order, with any values, each of which may succeed or fail. What
holds of the empty store, and is kept by batches, by single steps and by anything that happens to `ingestion_status`
and to `candles` (`KeptByWrites`), holds in every run (`KeptByWrites.reachable`).
-/

namespace Tenso.Storage

/-- A write of the repository. -/
inductive RepositoryWrite where
  | replaceSlotsBatch (slots : List SlotBatchRow)
  | writeScheduleSteps (signatures : List String) (schedule : Contention.ScheduleResult)
  | upsertIngestionStatus (slot : UInt64) (status : String) (note : Option String)
  | upsertCandles (mint : String) (intervalSec : Int32) (candles : List Ohlcv.Candle)

/-- The batch of a write. -/
def RepositoryWrite.batch : RepositoryWrite → List SlotBatchRow
  | .replaceSlotsBatch slots => slots
  | _ => []

/-- Make a write on a connection. -/
def RepositoryWrite.run (f : Faults) : RepositoryWrite → Conn Store → Except DbError Unit × Conn Store
  | .replaceSlotsBatch slots => Storage.replaceSlotsBatch f slots
  | .writeScheduleSteps signatures schedule => Conn.executeAll f (Storage.writeScheduleSteps signatures schedule)
  | .upsertIngestionStatus slot status note => Conn.executeAll f [Storage.upsertIngestionStatus slot status note]
  | .upsertCandles mint intervalSec candles => Conn.executeAll f (Storage.upsertCandles mint intervalSec candles)

/-- The runs of writes with batches in `B`, from the empty store. -/
def runsOf (B : List SlotBatchRow → Prop) : Transition.System (Conn Store) where
  init c := c.store = .empty ∧ c.txn = none
  step c c' := ∃ (f : Faults) (w : RepositoryWrite), B w.batch ∧ (w.run f c).2 = c'

/-- The runs of writes of the repository. -/
def repositoryRuns : Transition.System (Conn Store) := runsOf fun _ => True

/-- What every write with a batch in `B` keeps. -/
structure KeptByWrites (B : List SlotBatchRow → Prop) (I : Store → Prop) : Prop where
  batch : ∀ {slots : List SlotBatchRow} {st st' : Store}, B slots → ReplacesAll slots st st' → I st → I st'
  step : ∀ {sig : String} {step : ℕ} {st st' : Store}, updateStep sig step st = .ok st' → I st → I st'
  status : ∀ {st : Store} {t : Table IngestionStatusRow.slot}, I st → I { st with ingestionStatus := t }
  candles : ∀ {st : Store} {t : Table CandlesRow.key}, I st → I { st with candles := t }

namespace KeptByWrites

variable {B : List SlotBatchRow → Prop} {I : Store → Prop}

/-- One write. -/
theorem run (hI : KeptByWrites B I) (f : Faults) {w : RepositoryWrite} (hw : B w.batch) {c : Conn Store}
    (hidle : c.txn = none) (h : I c.store) : (w.run f c).2.txn = none ∧ I (w.run f c).2.store := by
  cases w with
  | replaceSlotsBatch slots =>
    obtain ⟨st, txn, n⟩ := c
    simp only at hidle h
    subst hidle
    rcases replaceSlotsBatch_cases f slots st n with ⟨st', hrun, _, hst⟩ | ⟨e, m, hrun, _⟩
    · rw [RepositoryWrite.run, hrun]
      exact ⟨rfl, hI.batch hw hst h⟩
    · rw [RepositoryWrite.run, hrun]
      exact ⟨rfl, h⟩
  | writeScheduleSteps signatures schedule =>
    refine Conn.executeAll_invariant hidle (fun s hs st st' hst => ?_) h
    obtain ⟨u, _, rfl⟩ := List.mem_map.1 hs
    exact hI.step hst
  | upsertIngestionStatus slot status note =>
    refine Conn.executeAll_invariant hidle (fun s hs st st' hst => ?_) h
    rw [List.mem_singleton.1 hs] at hst
    cases hst
    exact hI.status
  | upsertCandles mint intervalSec candles =>
    refine Conn.executeAll_invariant hidle (fun s hs st st' hst => ?_) h
    obtain ⟨candle, _, rfl⟩ := List.mem_map.1 hs
    cases hst
    exact hI.candles

/-- **A run of writes.** -/
theorem reachable (hI : KeptByWrites B I) (hempty : I .empty) {c : Conn Store}
    (h : Transition.Reachable (runsOf B) c) : c.txn = none ∧ I c.store := by
  refine h.invariant (I := fun c => c.txn = none ∧ I c.store) ?_ ?_
  · rintro c ⟨hst, hidle⟩
    exact ⟨hidle, by rwa [hst]⟩
  · rintro c c' ⟨hidle, hc⟩ ⟨f, w, hw, rfl⟩
    exact hI.run f hw hidle hc

end KeptByWrites

end Tenso.Storage
