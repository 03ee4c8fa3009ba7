import Mathlib.Data.List.Basic

/-!
# A database connection with transactions

A statement maps a store to a store or fails. On a connection, statements run one after the other; each of them may
also fail for a reason of its own (disk, interrupt), which the oracle `Faults` decides by the statement's number.

- Outside a transaction a statement is committed at once (`executeAll_autocommit`).
- Inside a transaction it works on a copy; the first failure aborts the transaction, and only `ROLLBACK` ends it.
- `transaction` is `BEGIN`, the statements, `COMMIT`, with a `ROLLBACK` on any error. It is all or nothing
  (`transaction_cases`): either every statement ran on the store and the result is committed, or the store is the one
  before, and in both cases the connection is idle again.
-/

/-- Why a statement fails. -/
inductive DbError where
  | constraint
  | conversion
  | outOfRange
  | transaction
  | io
  deriving DecidableEq, Repr

/-- A statement on the store `σ`. -/
abbrev Stmt (σ : Type) := σ → Except DbError σ

/-- `f n` makes the `n`-th statement of the connection fail. -/
abbrev Faults := ℕ → Bool

namespace Stmt

variable {σ : Type}

/-- Run the statements until the first failure. -/
def run : List (Stmt σ) → σ → Except DbError σ
  | [], s => .ok s
  | st :: sts, s =>
    match st s with
    | .ok s' => run sts s'
    | .error e => .error e

@[simp] theorem run_nil (s : σ) : run [] s = .ok s := rfl

theorem run_cons_ok {st : Stmt σ} {sts : List (Stmt σ)} {s s' : σ} :
    run (st :: sts) s = .ok s' ↔ ∃ t, st s = .ok t ∧ run sts t = .ok s' := by
  rw [run]
  cases h : st s with
  | ok t => simp
  | error e => simp

theorem run_append_ok {sts sts' : List (Stmt σ)} {s s' : σ} :
    run (sts ++ sts') s = .ok s' ↔ ∃ t, run sts s = .ok t ∧ run sts' t = .ok s' := by
  induction sts generalizing s with
  | nil => simp
  | cons st sts ih =>
    simp only [List.cons_append, run_cons_ok, ih]
    constructor
    · rintro ⟨t, ht, u, hu, hs⟩
      exact ⟨u, ⟨t, ht, hu⟩, hs⟩
    · rintro ⟨u, ⟨t, ht, hu⟩, hs⟩
      exact ⟨t, ht, u, hu, hs⟩

end Stmt

/-- An open transaction: the working copy, and whether a statement failed in it. -/
structure Txn (σ : Type) where
  work : σ
  aborted : Bool

/-- A connection: the committed store, the open transaction, the number of statements so far. -/
structure Conn (σ : Type) where
  store : σ
  txn : Option (Txn σ) := none
  clock : ℕ := 0

namespace Conn

variable {σ : Type} (f : Faults)

/-! ## Statements -/

/-- The `n`-th statement of the connection. -/
def attempt (n : ℕ) (st : Stmt σ) (s : σ) : Except DbError σ := if f n then .error .io else st s

/-- One statement. -/
def execute (st : Stmt σ) (c : Conn σ) : Except DbError Unit × Conn σ :=
  match c.txn with
  | none =>
    match attempt f c.clock st c.store with
    | .ok s => (.ok (), { c with store := s, clock := c.clock + 1 })
    | .error e => (.error e, { c with clock := c.clock + 1 })
  | some t =>
    if t.aborted then (.error .transaction, { c with clock := c.clock + 1 })
    else
      match attempt f c.clock st t.work with
      | .ok s => (.ok (), { c with txn := some { t with work := s }, clock := c.clock + 1 })
      | .error e => (.error e, { c with txn := some { t with aborted := true }, clock := c.clock + 1 })

/-- The statements up to the first failure. -/
def executeAll : List (Stmt σ) → Conn σ → Except DbError Unit × Conn σ
  | [], c => (.ok (), c)
  | st :: sts, c =>
    match execute f st c with
    | (.ok (), c') => executeAll sts c'
    | (.error e, c') => (.error e, c')

/-- `BEGIN TRANSACTION`. -/
def begin (c : Conn σ) : Except DbError Unit × Conn σ :=
  match c.txn with
  | some _ => (.error .transaction, { c with clock := c.clock + 1 })
  | none =>
    if f c.clock then (.error .io, { c with clock := c.clock + 1 })
    else (.ok (), { c with txn := some ⟨c.store, false⟩, clock := c.clock + 1 })

/-- `COMMIT`. -/
def commit (c : Conn σ) : Except DbError Unit × Conn σ :=
  match c.txn with
  | none => (.error .transaction, { c with clock := c.clock + 1 })
  | some t =>
    if t.aborted then (.error .transaction, { c with clock := c.clock + 1 })
    else if f c.clock then
      (.error .io, { c with txn := some { t with aborted := true }, clock := c.clock + 1 })
    else (.ok (), { store := t.work, txn := none, clock := c.clock + 1 })

/-- `ROLLBACK`. -/
def rollback (c : Conn σ) : Conn σ := { c with txn := none, clock := c.clock + 1 }

/-- `BEGIN`, the statements and `COMMIT`, with a `ROLLBACK` if a statement or the `COMMIT` fails. -/
def transaction (sts : List (Stmt σ)) (c : Conn σ) : Except DbError Unit × Conn σ :=
  match begin f c with
  | (.error e, c) => (.error e, c)
  | (.ok (), c) =>
    let (result, c) :=
      match executeAll f sts c with
      | (.ok (), c) => commit f c
      | (.error e, c) => (.error e, c)
    match result with
    | .ok () => (.ok (), c)
    | .error e => (.error e, rollback c)

/-! ## Quiet stretches -/

/-- No fault hits the `k` statements from number `n` on. -/
def Quiet (n k : ℕ) : Prop := ∀ i < k, f (n + i) = false

variable {f}

theorem Quiet.mono {n k k' : ℕ} (h : Quiet f n k) (hk : k' ≤ k) : Quiet f n k' :=
  fun i hi => h i (Nat.lt_of_lt_of_le hi hk)

theorem quiet_succ {n k : ℕ} : Quiet f n (k + 1) ↔ f n = false ∧ Quiet f (n + 1) k := by
  constructor
  · intro h
    refine ⟨h 0 (Nat.succ_pos k), fun i hi => ?_⟩
    rw [Nat.add_assoc, Nat.add_comm 1 i]
    exact h (i + 1) (Nat.succ_lt_succ hi)
  · rintro ⟨h0, h⟩ i hi
    cases i with
    | zero => exact h0
    | succ i =>
      have := h i (Nat.lt_of_succ_lt_succ hi)
      rwa [Nat.add_assoc, Nat.add_comm 1 i] at this

theorem quiet_add {n k k' : ℕ} : Quiet f n (k + k') ↔ Quiet f n k ∧ Quiet f (n + k) k' := by
  constructor
  · intro h
    refine ⟨h.mono (Nat.le_add_right k k'), fun i hi => ?_⟩
    rw [Nat.add_assoc]
    exact h (k + i) (Nat.add_lt_add_left hi k)
  · rintro ⟨h, h'⟩ i hi
    by_cases hik : i < k
    · exact h i hik
    · have := h' (i - k) (by omega)
      rwa [show n + k + (i - k) = n + i by omega] at this

/-! ## Runs outside a transaction -/

/-- Autocommit: the statements run up to the first failure, and what ran is committed. -/
theorem executeAll_autocommit : ∀ (sts : List (Stmt σ)) (s : σ) (n : ℕ),
    (∃ s', executeAll f sts ⟨s, none, n⟩ = (.ok (), ⟨s', none, n + sts.length⟩) ∧ Quiet f n sts.length ∧
      Stmt.run sts s = .ok s') ∨
    ∃ k, ∃ h : k < sts.length, ∃ e s', executeAll f sts ⟨s, none, n⟩ = (.error e, ⟨s', none, n + k + 1⟩) ∧
      Quiet f n k ∧ Stmt.run (sts.take k) s = .ok s' ∧ (f (n + k) = true ∨ (sts.get ⟨k, h⟩) s' = .error e)
  | [], s, n => Or.inl ⟨s, rfl, fun i hi => absurd hi (Nat.not_lt_zero i), rfl⟩
  | st :: sts, s, n => by
    by_cases hf : f n = true
    · refine Or.inr ⟨0, Nat.succ_pos _, .io, s, ?_, fun i hi => absurd hi (Nat.not_lt_zero i), rfl, Or.inl hf⟩
      simp [executeAll, execute, attempt, hf]
    cases hst : st s with
    | error e =>
      refine Or.inr ⟨0, Nat.succ_pos _, e, s, ?_, fun i hi => absurd hi (Nat.not_lt_zero i), rfl, Or.inr hst⟩
      simp [executeAll, execute, attempt, hf, hst]
    | ok t =>
      have hstep : executeAll f (st :: sts) ⟨s, none, n⟩ = executeAll f sts ⟨t, none, n + 1⟩ := by
        simp [executeAll, execute, attempt, hf, hst]
      have hf' : f n = false := by simpa using hf
      rw [hstep]
      rcases executeAll_autocommit sts t (n + 1) with ⟨s', hrun, hq, hs⟩ | ⟨k, hk, e, s', hrun, hq, hs, he⟩
      · refine Or.inl ⟨s', ?_, quiet_succ.2 ⟨hf', hq⟩, Stmt.run_cons_ok.2 ⟨t, hst, hs⟩⟩
        rw [hrun, List.length_cons]
        congr 2
        omega
      · refine Or.inr ⟨k + 1, Nat.succ_lt_succ hk, e, s', ?_, quiet_succ.2 ⟨hf', hq⟩,
          Stmt.run_cons_ok.2 ⟨t, hst, hs⟩, ?_⟩
        · rw [hrun]
          congr 2
          omega
        · rwa [Nat.add_assoc, Nat.add_comm 1 k] at he

/-- What every statement keeps, a run outside a transaction keeps, whether it succeeds or not. -/
theorem executeAll_invariant {I : σ → Prop} : ∀ {sts : List (Stmt σ)} {c : Conn σ}, c.txn = none →
    (∀ st ∈ sts, ∀ s s', st s = .ok s' → I s → I s') → I c.store →
    (executeAll f sts c).2.txn = none ∧ I (executeAll f sts c).2.store
  | [], _, hidle, _, hI => ⟨hidle, hI⟩
  | st :: sts, ⟨s, txn, n⟩, hidle, hkeep, hI => by
    simp only at hidle hI
    subst hidle
    obtain ⟨hst, hsts⟩ := List.forall_mem_cons.1 hkeep
    by_cases hf : f n = true
    · simp [executeAll, execute, attempt, hf, hI]
    · cases hs : st s with
      | error e => simp [executeAll, execute, attempt, hf, hs, hI]
      | ok s' =>
        have hrun : executeAll f (st :: sts) ⟨s, none, n⟩ = executeAll f sts ⟨s', none, n + 1⟩ := by
          simp [executeAll, execute, attempt, hf, hs]
        rw [hrun]
        exact executeAll_invariant (c := ⟨s', none, n + 1⟩) rfl hsts (hst s s' hs hI)

/-! ## Runs inside a transaction -/

/-- Inside a transaction the statements work on the copy and never touch the store. -/
theorem executeAll_txn : ∀ (sts : List (Stmt σ)) (s w : σ) (n : ℕ),
    (∃ w', executeAll f sts ⟨s, some ⟨w, false⟩, n⟩ = (.ok (), ⟨s, some ⟨w', false⟩, n + sts.length⟩) ∧
      Quiet f n sts.length ∧ Stmt.run sts w = .ok w') ∨
    ∃ e t m, executeAll f sts ⟨s, some ⟨w, false⟩, n⟩ = (.error e, ⟨s, some t, m⟩) ∧
      ¬(Quiet f n sts.length ∧ ∃ w', Stmt.run sts w = .ok w')
  | [], s, w, n => Or.inl ⟨w, rfl, fun i hi => absurd hi (Nat.not_lt_zero i), rfl⟩
  | st :: sts, s, w, n => by
    by_cases hf : f n = true
    · refine Or.inr ⟨.io, ⟨w, true⟩, n + 1, by simp [executeAll, execute, attempt, hf], fun h => ?_⟩
      rw [List.length_cons, quiet_succ, hf] at h
      exact Bool.noConfusion h.1.1
    cases hst : st w with
    | error e =>
      refine Or.inr ⟨e, ⟨w, true⟩, n + 1, by simp [executeAll, execute, attempt, hf, hst], fun h => ?_⟩
      obtain ⟨_, w', hw'⟩ := h
      obtain ⟨t, ht, _⟩ := Stmt.run_cons_ok.1 hw'
      rw [hst] at ht
      cases ht
    | ok t =>
      have hstep : executeAll f (st :: sts) ⟨s, some ⟨w, false⟩, n⟩ =
          executeAll f sts ⟨s, some ⟨t, false⟩, n + 1⟩ := by
        simp [executeAll, execute, attempt, hf, hst]
      have hf' : f n = false := by simpa using hf
      rw [hstep]
      rcases executeAll_txn sts s t (n + 1) with ⟨w', hrun, hq, hw⟩ | ⟨e, t', m, hrun, hno⟩
      · refine Or.inl ⟨w', ?_, quiet_succ.2 ⟨hf', hq⟩, Stmt.run_cons_ok.2 ⟨t, hst, hw⟩⟩
        rw [hrun, List.length_cons]
        congr 2
        omega
      · refine Or.inr ⟨e, t', m, hrun, fun h => hno ⟨(quiet_succ.1 h.1).2, ?_⟩⟩
        obtain ⟨w', hw'⟩ := h.2
        obtain ⟨u, hu, hr⟩ := Stmt.run_cons_ok.1 hw'
        rw [hst] at hu
        cases hu
        exact ⟨w', hr⟩

/-- **A transaction is all or nothing.** From an idle connection it either ran every statement on the store without a
fault and committed the result, or left the store as it was; either way the connection is idle again. -/
theorem transaction_cases (sts : List (Stmt σ)) (s : σ) (n : ℕ) :
    (∃ s', transaction f sts ⟨s, none, n⟩ = (.ok (), ⟨s', none, n + sts.length + 2⟩) ∧
      Quiet f n (sts.length + 2) ∧ Stmt.run sts s = .ok s') ∨
    ∃ e m, transaction f sts ⟨s, none, n⟩ = (.error e, ⟨s, none, m⟩) ∧
      ¬(Quiet f n (sts.length + 2) ∧ ∃ s', Stmt.run sts s = .ok s') := by
  have hsplit : Quiet f n (sts.length + 2) ↔
      f n = false ∧ Quiet f (n + 1) sts.length ∧ f (n + 1 + sts.length) = false := by
    rw [show sts.length + 2 = (sts.length + 1) + 1 by omega, quiet_succ, quiet_add, quiet_succ]
    exact ⟨fun h => ⟨h.1, h.2.1, h.2.2.1⟩, fun h => ⟨h.1, h.2.1, h.2.2, fun i hi => absurd hi (Nat.not_lt_zero i)⟩⟩
  rw [hsplit]
  by_cases hf : f n = true
  · refine Or.inr ⟨.io, n + 1, by simp [transaction, begin, hf], fun h => ?_⟩
    rw [hf] at h
    exact Bool.noConfusion h.1.1
  have hf' : f n = false := by simpa using hf
  rcases executeAll_txn (f := f) sts s s (n + 1) with ⟨w, hrun, hq, hw⟩ | ⟨e, t, m, hrun, hno⟩
  · by_cases hc : f (n + 1 + sts.length) = true
    · refine Or.inr ⟨.io, n + 1 + sts.length + 1 + 1, by simp [transaction, begin, hf, hrun, commit, hc, rollback],
        fun h => ?_⟩
      rw [hc] at h
      exact Bool.noConfusion h.1.2.2
    · have hc' : f (n + 1 + sts.length) = false := by simpa using hc
      refine Or.inl ⟨w, ?_, ⟨hf', hq, hc'⟩, hw⟩
      simp only [transaction, begin, hf', hrun, commit, hc', Bool.false_eq_true, ↓reduceIte]
      congr 2
      omega
  · exact Or.inr ⟨e, m + 1, by simp [transaction, begin, hf, hrun, rollback], fun h => hno ⟨h.1.2.1, h.2⟩⟩

end Conn
