import Tenso.Lib.Conn
import Tenso.Lib.Script

/-!
# Scripts on a connection

The statements of a connection as scripts: one call a statement. A query sees what the connection shows, which inside a
transaction is its working copy.

- `executeScript` and `transactionScript` do what `executeAll` and `transaction` do (`run_executeScript`,
  `run_transactionScript`).
- At every moment of them the committed store is one that a stretch of the statements leaves, and for a transaction it
  is the store before or after all of them (`always_executeScript`, `always_transactionScript`).
- A query on an idle connection sees the committed store (`query_idle`).
-/

namespace Conn

variable {σ α : Type} (f : Faults)

/-! ## Queries -/

/-- What a query sees. -/
def shown (c : Conn σ) : Except DbError σ :=
  match c.txn with
  | none => .ok c.store
  | some t => if t.aborted then .error .transaction else .ok t.work

/-- A query. -/
def query (q : σ → Except DbError α) (c : Conn σ) : Except DbError α × Conn σ := (c.shown >>= q, c)

theorem query_idle {c : Conn σ} (h : c.txn = none) (q : σ → Except DbError α) : c.query q = (q c.store, c) := by
  rw [query, shown, h]
  rfl

/-! ## Statements -/

/-- One statement outside a transaction: it fails, or it is committed. -/
theorem execute_idle {c : Conn σ} (h : c.txn = none) (st : Stmt σ) : (c.execute f st).2.txn = none ∧
    ((c.execute f st).2.store = c.store ∨ st c.store = .ok (c.execute f st).2.store) := by
  obtain ⟨s, txn, n⟩ := c
  obtain rfl : txn = none := h
  by_cases hf : f n = true
  · simp [execute, attempt, hf]
  · cases hst : st s <;> simp [execute, attempt, hf, hst]

/-- The statements up to the first failure. -/
def executeScript : List (Stmt σ) → Script (Conn σ) (Except DbError Unit)
  | [] => pure (.ok ())
  | st :: sts => do
    match ← Script.ofCall (execute f st) with
    | .ok () => executeScript sts
    | .error e => pure (.error e)

/-- `BEGIN`, the statements and `COMMIT`, with a `ROLLBACK` if a statement or the `COMMIT` fails. -/
def transactionScript (sts : List (Stmt σ)) : Script (Conn σ) (Except DbError Unit) := do
  match ← Script.ofCall (begin f) with
  | .error e => pure (.error e)
  | .ok () =>
    match ← executeScript f sts with
    | .error e => do
      Script.ofCall fun c => ((), rollback c)
      pure (.error e)
    | .ok () =>
      match ← Script.ofCall (commit f) with
      | .ok () => pure (.ok ())
      | .error e => do
        Script.ofCall fun c => ((), rollback c)
        pure (.error e)

variable {f}

@[simp] theorem run_executeScript : ∀ (sts : List (Stmt σ)) (c : Conn σ),
    (executeScript f sts).run c = executeAll f sts c
  | [], _ => rfl
  | st :: sts, c => by
    rw [executeScript, Script.run_bind, Script.run_ofCall, executeAll]
    rcases execute f st c with ⟨e | ok, c'⟩
    · rfl
    · exact run_executeScript sts c'

@[simp] theorem run_transactionScript (sts : List (Stmt σ)) (c : Conn σ) :
    (transactionScript f sts).run c = transaction f sts c := by
  rw [transactionScript, Script.run_bind, Script.run_ofCall, transaction]
  rcases begin f c with ⟨e | ok, c'⟩
  · rfl
  simp only [Script.run_bind, run_executeScript]
  rcases executeAll f sts c' with ⟨e | ok, c''⟩
  · rfl
  simp only [Script.run_bind, Script.run_ofCall]
  rcases commit f c'' with ⟨e | ok, c'''⟩ <;> rfl

/-! ## Every moment -/

/-- Outside a transaction, a stretch of the statements has been made. -/
theorem always_executeScript {J : σ → Prop} : ∀ {sts : List (Stmt σ)} {c : Conn σ}, c.txn = none →
    (∀ k s, Stmt.run (sts.take k) c.store = .ok s → J s) →
    Script.Always (fun c => J c.store) (executeScript f sts) c
  | [], _, _, h => h 0 _ rfl
  | st :: sts, ⟨s, txn, n⟩, hidle, h => by
    simp only at hidle h
    subst hidle
    have h0 : J s := h 0 s rfl
    rw [executeScript, Script.always_bind, Script.run_ofCall, Script.always_ofCall]
    by_cases hf : f n = true
    · simp only [execute, attempt, hf, if_true]
      exact ⟨⟨h0, h0⟩, h0⟩
    · simp only [execute, attempt, hf, Bool.false_eq_true, if_false]
      cases hst : st s with
      | error e => exact ⟨⟨h0, h0⟩, h0⟩
      | ok t =>
        have hrest : ∀ k s', Stmt.run (sts.take k) t = .ok s' → J s' := fun k s' hrun =>
          h (k + 1) s' (Stmt.run_cons_ok.2 ⟨t, hst, hrun⟩)
        exact ⟨⟨h0, hrest 0 t rfl⟩, always_executeScript (c := ⟨t, none, n + 1⟩) rfl hrest⟩

/-- Inside a transaction, the committed store stays. -/
theorem always_executeScript_txn {s : σ} : ∀ {sts : List (Stmt σ)} {c : Conn σ}, c.txn.isSome = true → c.store = s →
    Script.Always (fun c => c.store = s) (executeScript f sts) c
  | [], _, _, hs => hs
  | st :: sts, ⟨s₀, txn, n⟩, htxn, hs => by
    simp only at htxn hs
    subst hs
    obtain ⟨⟨w, aborted⟩, rfl⟩ := Option.isSome_iff_exists.1 htxn
    rw [executeScript, Script.always_bind, Script.run_ofCall, Script.always_ofCall]
    cases aborted with
    | true => exact ⟨⟨rfl, rfl⟩, rfl⟩
    | false =>
      simp only [execute, Bool.false_eq_true, if_false]
      rcases attempt f n st w with e | w'
      · exact ⟨⟨trivial, rfl⟩, rfl⟩
      · exact ⟨⟨trivial, rfl⟩, always_executeScript_txn (c := ⟨s₀, some ⟨w', false⟩, n + 1⟩) rfl rfl⟩

/-- **A transaction is all or nothing at every moment.** -/
theorem always_transactionScript {J : σ → Prop} {sts : List (Stmt σ)} {c : Conn σ} (hidle : c.txn = none)
    (h0 : J c.store) (h : ∀ s, Stmt.run sts c.store = .ok s → J s) :
    Script.Always (fun c => J c.store) (transactionScript f sts) c := by
  obtain ⟨s, txn, n⟩ := c
  simp only at hidle h0 h
  subst hidle
  rw [transactionScript, Script.always_bind, Script.run_ofCall, Script.always_ofCall]
  by_cases hf : f n = true
  · simp only [begin, hf, if_true]
    exact ⟨⟨h0, h0⟩, h0⟩
  simp only [begin, hf, Bool.false_eq_true, if_false]
  refine ⟨⟨h0, h0⟩, (Script.always_bind _ _ _).2 ⟨?_, ?_⟩⟩
  · have hbegun : Script.Always (fun c => c.store = s) (executeScript f sts) ⟨s, some ⟨s, false⟩, n + 1⟩ :=
      always_executeScript_txn rfl rfl
    refine hbegun.imp fun c hc => ?_
    rw [hc]
    exact h0
  · rw [run_executeScript]
    rcases executeAll_txn (f := f) sts s s (n + 1) with ⟨w, hrun, _, hw⟩ | ⟨e, t, m, hrun, _⟩
    · simp only [hrun, Script.always_bind, Script.run_ofCall, Script.always_ofCall, commit,
        Bool.false_eq_true, if_false]
      by_cases hc : f (n + 1 + sts.length) = true
      · simp only [hc, if_true]
        exact ⟨⟨h0, h0⟩, h0, h0⟩
      · simp only [hc, Bool.false_eq_true, if_false]
        exact ⟨⟨h0, h w hw⟩, h w hw⟩
    · rw [hrun]
      exact ⟨h0, h0⟩

end Conn
