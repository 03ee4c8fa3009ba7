import Mathlib.Data.List.FinRange
import Tenso.Contention.Summary

/-!
# The schedule is serializable in block order

A transaction acts on the account values by a `Transformer`: it changes only the accounts it locks as writable, and
the new values depend only on the accounts it locks. Transformers of transactions without a conflict commute
(`Transformer.comm`), and a conflict puts the later transaction into a later step (`conflictAt_step_lt`). Hence every
order of the transactions that is sorted by step ends in the state of the block order (`buildSchedule_serializable`).
-/

namespace Tenso.Contention

open ConflictOrder

/-! ## Transformers -/

/-- The transaction locks `a`. -/
def TxLocks.Locks (tx : TxLocks) (a : String) : Prop := ∃ l ∈ tx.locks, l.account = a

/-- The transaction locks `a` as writable. -/
def TxLocks.Writes (tx : TxLocks) (a : String) : Prop := ∃ l ∈ tx.locks, l.account = a ∧ l.isWritable = true

theorem TxLocks.Writes.locks {tx : TxLocks} {a : String} (h : tx.Writes a) : tx.Locks a :=
  h.imp fun _ h => ⟨h.1, h.2.1⟩

/-- What executing a transaction may do to the account values. -/
structure Transformer (tx : TxLocks) (V : Type*) where
  run : (String → V) → String → V
  /-- an account that is not locked as writable keeps its value -/
  frame : ∀ s a, ¬tx.Writes a → run s a = s a
  /-- the new values depend only on the locked accounts -/
  depends : ∀ s s', (∀ a, tx.Locks a → s a = s' a) → ∀ a, tx.Writes a → run s a = run s' a

variable {V : Type*} {t u : TxLocks}

theorem Conflicts.of_write_lock {a : String} (hw : t.Writes a) (hl : u.Locks a) : Conflicts t u := by
  obtain ⟨l, hl', rfl, hw⟩ := hw
  obtain ⟨m, hm, hma⟩ := hl
  exact ⟨l, hl', m, hm, hma.symm, Or.inl hw⟩

theorem Conflicts.symm (h : Conflicts t u) : Conflicts u t := by
  obtain ⟨l, hl, m, hm, he, hw⟩ := h
  exact ⟨m, hm, l, hl, he.symm, hw.symm⟩

/-- A transaction in no conflict with `u` sees the same values before and after `u`. -/
theorem Transformer.unseen (U : Transformer u V) (h : ¬Conflicts t u) (s : String → V) {a : String}
    (ha : t.Locks a) : U.run s a = s a :=
  U.frame s a fun hw => h (Conflicts.of_write_lock hw ha).symm

/-- Transactions without a conflict commute. -/
theorem Transformer.comm (T : Transformer t V) (U : Transformer u V) (h : ¬Conflicts t u) (s : String → V) :
    T.run (U.run s) = U.run (T.run s) := by
  funext a
  by_cases ht : t.Writes a
  · have hu : ¬u.Writes a := fun hu => h (Conflicts.of_write_lock ht hu.locks)
    rw [U.frame _ a hu, T.depends (U.run s) s (fun b hb => U.unseen h s hb) a ht]
  · rw [T.frame _ a ht]
    by_cases hu : u.Writes a
    · exact U.depends s (T.run s) (fun b hb => (T.unseen (fun hc => h hc.symm) s hb).symm) a hu
    · rw [U.frame _ a hu, U.frame _ a hu, T.frame _ a ht]

/-! ## Sorting by step keeps conflicting transactions in block order -/

theorem conflictAt_of_conflicts {txs : List TxLocks} (i j : Fin txs.length) (h : Conflicts txs[i] txs[j]) :
    ConflictAt txs i j :=
  ⟨_, _, List.getElem?_eq_getElem i.isLt, List.getElem?_eq_getElem j.isLt, h⟩

/-- A conflict puts the later transaction into a later step. -/
theorem conflictAt_step_lt {txs : List TxLocks} {r : ScheduleResult}
    (hstep : ∀ i < txs.length, StepAt (ConflictAt txs) r.step i) (i j : Fin txs.length) (hij : i < j)
    (h : Conflicts txs[i] txs[j]) : r.step i < r.step j :=
  (hstep j j.isLt).after i hij (conflictAt_of_conflicts i j h)

/-- **The schedule is serializable in block order.** Whatever the transactions do to the accounts they lock, executing
them in any order sorted by step ends in the state of the block order; and no two transactions of one step conflict. -/
theorem buildSchedule_serializable (txs : List TxLocks) : ∃ r, buildSchedule txs = some r ∧
    (∀ (V : Type*) (T : ∀ i : Fin txs.length, Transformer txs[i] V) (order : List (Fin txs.length)),
      order.Perm (List.finRange txs.length) → order.Pairwise (fun i j : Fin txs.length => r.step i ≤ r.step j) →
      ∀ s, exec (fun i => (T i).run) order s = exec (fun i => (T i).run) (List.finRange txs.length) s) ∧
    ∀ i j : Fin txs.length, i ≠ j → r.step i = r.step j → ¬Conflicts txs[i] txs[j] := by
  obtain ⟨r, hr, _, hstep⟩ := buildSchedule_stepAt txs
  refine ⟨r, hr, fun V T order hperm hsorted s => ?_, fun i j hij hs hc => ?_⟩
  · refine exec_reorder (r := (· < ·)) (fun i j hij hq s => ?_) hperm (List.pairwise_lt_finRange _) hsorted s
    -- `i` is before `j` in the block but not in the order, so they are not in conflict
    refine (T i).comm (T j) (fun hc => ?_) s
    have := conflictAt_step_lt hstep i j hij hc
    omega
  · rcases lt_or_gt_of_ne hij with h | h
    · have := conflictAt_step_lt hstep i j h hc
      omega
    · have := conflictAt_step_lt hstep j i h hc.symm
      omega

end Tenso.Contention
