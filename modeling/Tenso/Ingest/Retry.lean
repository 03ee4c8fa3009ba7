import Tenso.Ingest.WorkerPool

/-!
# Retrying a request

`retry_with_backoff` calls an operation again after an error that is worth a retry, until it has no retry left. Its
result is that of the first call that is not worth a retry, or of the last call that it may make
(`retryWithBackoff_eq`).

The tasks of the pool do the same one step at a time: whatever the order of the steps, a task that is over has the
outcome that `retry_with_backoff` over `get_block` gives for its slot (`FetchTask.OnTrack`), and so has every outcome
that is reported (`reported_eq_fetchOutcome`).
-/

namespace Tenso.Ingest

open Transition

section Retry

variable {ε α : Type}

/-- The loop of `retry_with_backoff`, with the retries that are left and the calls made so far: its result, and how many
calls it has made. `op n` is what call `n` gives. -/
def retryLoop (op : ℕ → Except ε α) (shouldRetry : ε → Bool) : (retriesLeft attempt : ℕ) → Except ε α × ℕ
  | 0, attempt => (op attempt, attempt + 1)
  | retriesLeft + 1, attempt =>
    match op attempt with
    | .ok v => (.ok v, attempt + 1)
    | .error e => if shouldRetry e then retryLoop op shouldRetry retriesLeft (attempt + 1) else (.error e, attempt + 1)

/-- `retry_with_backoff`: the result, and the number of calls. -/
def retryWithBackoff (maxRetries : ℕ) (op : ℕ → Except ε α) (shouldRetry : ε → Bool) : Except ε α × ℕ :=
  retryLoop op shouldRetry maxRetries 0

/-- A result that is worth a retry. -/
def Retried (shouldRetry : ε → Bool) (result : Except ε α) : Prop := ∃ e, result = .error e ∧ shouldRetry e = true

variable {op : ℕ → Except ε α} {shouldRetry : ε → Bool}

theorem retryLoop_of_retried {retriesLeft attempt : ℕ} (h : Retried shouldRetry (op attempt)) :
    retryLoop op shouldRetry (retriesLeft + 1) attempt = retryLoop op shouldRetry retriesLeft (attempt + 1) := by
  obtain ⟨e, he, hretry⟩ := h
  simp [retryLoop, he, hretry]

theorem retryLoop_of_final {retriesLeft attempt : ℕ} (h : ¬Retried shouldRetry (op attempt)) :
    retryLoop op shouldRetry retriesLeft attempt = (op attempt, attempt + 1) := by
  cases retriesLeft with
  | zero => rfl
  | succ retriesLeft =>
    unfold retryLoop
    cases hop : op attempt with
    | ok v => rfl
    | error e =>
      have hfinal : ¬shouldRetry e = true := fun hretry => h ⟨e, hop, hretry⟩
      simp [hfinal]

theorem retryLoop_eq {retriesLeft attempt k : ℕ} (hk : attempt ≤ k) (hle : k ≤ attempt + retriesLeft)
    (hbefore : ∀ n, attempt ≤ n → n < k → Retried shouldRetry (op n))
    (hend : k = attempt + retriesLeft ∨ ¬Retried shouldRetry (op k)) :
    retryLoop op shouldRetry retriesLeft attempt = (op k, k + 1) := by
  induction retriesLeft generalizing attempt with
  | zero =>
    obtain rfl : attempt = k := by omega
    rfl
  | succ retriesLeft ih =>
    rcases Nat.lt_or_ge attempt k with hlt | hge
    · rw [retryLoop_of_retried (hbefore attempt le_rfl hlt)]
      refine ih hlt (by omega) (fun n hn => hbefore n (by omega)) ?_
      exact hend.imp_left fun heq => by omega
    · obtain rfl : attempt = k := by omega
      exact retryLoop_of_final (hend.resolve_left (by omega))

/-- The result of retrying is that of the first call that is not worth a retry, or of the last one. -/
theorem retryWithBackoff_eq {maxRetries k : ℕ} (hle : k ≤ maxRetries)
    (hbefore : ∀ n, n < k → Retried shouldRetry (op n)) (hend : k = maxRetries ∨ ¬Retried shouldRetry (op k)) :
    retryWithBackoff maxRetries op shouldRetry = (op k, k + 1) :=
  retryLoop_eq (Nat.zero_le k) (by omega) (fun n _ => hbefore n) (by rwa [Nat.zero_add])

/-- An operation that always fails in the same way is called once, or as often as it may be. -/
theorem retryWithBackoff_of_error {maxRetries : ℕ} {e : ε} (herror : ∀ n, op n = .error e) :
    retryWithBackoff maxRetries op shouldRetry = (.error e, if shouldRetry e then maxRetries + 1 else 1) := by
  cases hretry : shouldRetry e with
  | true =>
    rw [retryWithBackoff_eq le_rfl (fun n _ => ⟨e, herror n, hretry⟩) (.inl rfl), herror]
    rfl
  | false =>
    have hfinal : ¬Retried shouldRetry (op 0) := by
      rintro ⟨e', he', hretry'⟩
      obtain rfl : e = e' := Except.error.inj ((herror 0).symm.trans he')
      rw [hretry] at hretry'
      cases hretry'
    rw [retryWithBackoff_eq (Nat.zero_le _) nofun (.inr hfinal), herror]
    rfl

/-- Some call gives the result. -/
theorem exists_retryLoop_eq (op : ℕ → Except ε α) (shouldRetry : ε → Bool) (retriesLeft attempt : ℕ) :
    ∃ k, (retryLoop op shouldRetry retriesLeft attempt).1 = op k := by
  induction retriesLeft generalizing attempt with
  | zero => exact ⟨attempt, rfl⟩
  | succ retriesLeft ih =>
    rcases Classical.em (Retried shouldRetry (op attempt)) with hretried | hfinal
    · rw [retryLoop_of_retried hretried]
      exact ih (attempt + 1)
    · rw [retryLoop_of_final hfinal]
      exact ⟨attempt, rfl⟩

end Retry

/-! ## Fetching one slot -/

/-- The outcome of `fetch_one` for a slot. -/
def fetchOutcome (rpc : Rpc) (slot : UInt64) : FetchOutcome :=
  outcomeOf slot (retryWithBackoff maxRetries (rpc slot) isTransient).1

/-- The number of requests that `fetch_one` sends for a slot. -/
def fetchAttempts (rpc : Rpc) (slot : UInt64) : ℕ := (retryWithBackoff maxRetries (rpc slot) isTransient).2

/-- A task that has so far retried as `retry_with_backoff` does. -/
def FetchTask.OnTrack (rpc : Rpc) (t : FetchTask) : Prop :=
  match t.phase with
  | .acquiring => True
  | .awaiting attempt => attempt ≤ maxRetries ∧ ∀ n, n < attempt → Retried isTransient (rpc t.slot n)
  | .sleeping attempt => attempt < maxRetries ∧ ∀ n, n ≤ attempt → Retried isTransient (rpc t.slot n)
  | .done outcome => outcome = fetchOutcome rpc t.slot

variable {rpc : Rpc}

/-- An answer ends the task, or is worth a retry. -/
theorem answered_cases (slot : UInt64) (attempt : ℕ) (result : Except RpcError DecodedBlock) :
    (answered slot attempt result = .done (outcomeOf slot result) ∧
      (maxRetries ≤ attempt ∨ ¬Retried isTransient result)) ∨
    (answered slot attempt result = .sleeping attempt ∧ attempt < maxRetries ∧ Retried isTransient result) := by
  unfold answered
  cases result with
  | ok block => exact .inl ⟨rfl, .inr fun ⟨e, he, _⟩ => by cases he⟩
  | error e =>
    simp only
    split
    · rename_i hend
      refine .inl ⟨rfl, hend.imp_right fun hfinal => ?_⟩
      rintro ⟨e', he, hretry⟩
      cases he
      rw [hfinal] at hretry
      cases hretry
    · rename_i hgo
      obtain ⟨hlt, hretry⟩ := not_or.1 hgo
      exact .inr ⟨rfl, Nat.lt_of_not_le hlt, e, rfl, by simpa using hretry⟩

theorem onTrack_answered {slot : UInt64} {attempt : ℕ} (h : FetchTask.OnTrack rpc ⟨slot, .awaiting attempt⟩) :
    FetchTask.OnTrack rpc ⟨slot, answered slot attempt (rpc slot attempt)⟩ := by
  obtain ⟨hle, hbefore⟩ := h
  rcases answered_cases slot attempt (rpc slot attempt) with ⟨hdone, hend⟩ | ⟨hsleep, hlt, hretried⟩
  · rw [hdone]
    show outcomeOf slot (rpc slot attempt) = fetchOutcome rpc slot
    rw [fetchOutcome, retryWithBackoff_eq hle hbefore (hend.imp_left fun hge => by omega)]
  · rw [hsleep]
    refine ⟨hlt, fun n hn => ?_⟩
    rcases Nat.lt_or_eq_of_le hn with hlt | rfl
    · exact hbefore n hlt
    · exact hretried

/-- The tasks of the pool and the outcome in its hands are on track. -/
structure Pool.OnTrack (rpc : Rpc) (s : Pool) : Prop where
  tasks : ∀ t ∈ s.inFlight, t.OnTrack rpc
  hand : ∀ outcome ∈ s.phase.hand, ∃ slot, outcome = fetchOutcome rpc slot

/-- A step of the pool keeps its tasks on track. -/
theorem Pool.OnTrack.step {s s' : Pool} (h : s.OnTrack rpc) (hs : Pool.Step rpc s s') : s'.OnTrack rpc := by
  obtain ⟨htasks, hhand⟩ := h
  cases hs with
  | denied => exact ⟨htasks, hhand⟩
  | granted hphase htask =>
    rw [htask] at htasks
    exact ⟨forall_replace htasks ⟨Nat.zero_le _, nofun⟩, hhand⟩
  | @answer pre post slot attempt hphase htask =>
    rw [htask] at htasks
    have ht := (List.forall_mem_cons.1 (List.forall_mem_append.1 htasks).2).1
    exact ⟨forall_replace htasks (onTrack_answered ht), hhand⟩
  | @retry pre post slot attempt hphase htask =>
    rw [htask] at htasks
    obtain ⟨hlt, hbefore⟩ := (List.forall_mem_cons.1 (List.forall_mem_append.1 htasks).2).1
    exact ⟨forall_replace htasks ⟨hlt, fun n hn => hbefore n (Nat.le_of_lt_succ hn)⟩, hhand⟩
  | @next pre post slot outcome hphase htask =>
    rw [htask, List.forall_mem_append, List.forall_mem_cons] at htasks
    refine ⟨List.forall_mem_append.2 ⟨htasks.1, htasks.2.2⟩, ?_⟩
    show ∀ o ∈ [outcome], ∃ slot, o = fetchOutcome rpc slot
    exact List.forall_mem_singleton.2 ⟨slot, htasks.2.1⟩
  | handedOn hphase =>
    rw [Pool.refill_eq]
    refine ⟨List.forall_mem_append.2 ⟨htasks, ?_⟩, nofun⟩
    intro t ht
    obtain ⟨slot, _, rfl⟩ := List.mem_map.1 ht
    exact trivial
  | finish => exact ⟨htasks, nofun⟩

theorem Pool.onTrack {limiter : TokenBucket} {slots : List UInt64} {maxConcurrency : ℕ} {s : Pool}
    (h : Reachable (fetchBlockRange rpc limiter slots maxConcurrency) s) : s.OnTrack rpc := by
  refine h.invariant (I := fun s => s.OnTrack rpc) ?_ fun _ _ h hs => h.step hs
  rintro s rfl
  refine ⟨fun t ht => ?_, nofun⟩
  obtain ⟨slot, _, rfl⟩ := List.mem_map.1 ht
  exact trivial

section Blocks

variable {answers : UInt64 → ℕ → Except RpcError (Option ℤ × List DecodedTransaction)}

theorem slot_fetchOutcome (slot : UInt64) : (fetchOutcome (getBlock answers) slot).slot = slot := by
  obtain ⟨k, hk⟩ := exists_retryLoop_eq (getBlock answers slot) isTransient maxRetries 0
  rw [fetchOutcome, retryWithBackoff, hk]
  exact slot_outcomeOf

/-- **Every reported outcome** is the one that `fetch_one` gives for its slot, in every run of the call. -/
theorem reported_eq_fetchOutcome {limiter : TokenBucket} {slots : List UInt64} {maxConcurrency : ℕ} {f : RangeFetch}
    (h : Reachable (rangeFetch (getBlock answers) limiter slots maxConcurrency) f) :
    ∀ outcome ∈ f.reported, outcome = fetchOutcome (getBlock answers) outcome.slot := by
  have hown : ∀ outcome, (∃ slot, outcome = fetchOutcome (getBlock answers) slot) →
      outcome = fetchOutcome (getBlock answers) outcome.slot := by
    rintro _ ⟨slot, rfl⟩
    rw [slot_fetchOutcome]
  induction h with
  | init h =>
    rw [(h : _ = _)]
    exact nofun
  | @step f f' hf hs ih =>
    have hnext := hf.step hs
    cases hs with
    | prime => exact ih
    | primed => exact ih
    | refill => exact ih
    | @wait pool hpriming hphase hs =>
      refine List.forall_mem_append.2 ⟨ih, fun outcome ho => hown outcome ?_⟩
      exact (Pool.onTrack (RangeFetch.primed_pool hnext hpriming)).hand outcome ho

end Blocks

end Tenso.Ingest
