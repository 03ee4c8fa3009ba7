import Mathlib.Order.Bounds.Basic
import Tenso.Ingest.Decode
import Tenso.Ingest.Retry
import Tenso.Lib.Loop

/-!
# The retry loop, turn by turn

`retry_with_backoff` is a loop with three exits. Its counter of attempts is a `u32` that is compared before it is
incremented, so it never wraps. The sleep between two calls is left out: it decides when a call is made.

The loop makes exactly as many calls as the smaller of `max_retries + 1` and the position of the first result that ends
retrying, and returns the result of the last one (`returns_iff`). So `fetch_one` reports what this result says about its
slot, and this is the outcome that the pool hands on (`retrying_exact`).
-/

namespace Tenso.Ingest

section Loop

variable {ε α : Type}

/-- One turn of `retry_with_backoff`, with the attempts counted so far and the calls made so far. `op n` is what call
`n` gives. -/
def retryBody (maxRetries : UInt32) (op : ℕ → Except ε α) (shouldRetry : ε → Bool) :
    UInt32 × ℕ → (UInt32 × ℕ) ⊕ Except ε α
  | (attempt, calls) =>
    match op calls with
    | .ok v => .inr (.ok v)
    | .error e =>
      if maxRetries ≤ attempt ∨ shouldRetry e = false then .inr (.error e) else .inl (attempt + 1, calls + 1)

/-- A result that ends retrying: `Ok`, or an error that is not retryable. -/
def EndsRetrying (shouldRetry : ε → Bool) : Except ε α → Prop
  | .ok _ => True
  | .error e => shouldRetry e = false

/-- `max_retries + 1`, and the positions, from `1`, of the results that end retrying. -/
def stops (maxRetries : UInt32) (op : ℕ → Except ε α) (shouldRetry : ε → Bool) : Set ℕ :=
  {k | k = maxRetries.toNat + 1 ∨ ∃ n, k = n + 1 ∧ EndsRetrying shouldRetry (op n)}

variable {maxRetries : UInt32} {op : ℕ → Except ε α} {shouldRetry : ε → Bool}

theorem endsRetrying_iff {result : Except ε α} : EndsRetrying shouldRetry result ↔ ¬Retried shouldRetry result := by
  cases result with
  | ok v => simp [EndsRetrying, Retried]
  | error e => simp [EndsRetrying, Retried]

/-- A turn returns the result of its call, or goes on. -/
theorem retryBody_cases (maxRetries : UInt32) (op : ℕ → Except ε α) (shouldRetry : ε → Bool) (attempt : UInt32)
    (calls : ℕ) :
    (retryBody maxRetries op shouldRetry (attempt, calls) = .inr (op calls) ∧
      (maxRetries ≤ attempt ∨ EndsRetrying shouldRetry (op calls))) ∨
    (retryBody maxRetries op shouldRetry (attempt, calls) = .inl (attempt + 1, calls + 1) ∧ attempt < maxRetries ∧
      ¬EndsRetrying shouldRetry (op calls)) := by
  cases hop : op calls with
  | ok v => exact Or.inl ⟨by simp only [retryBody, hop], Or.inr trivial⟩
  | error e =>
    by_cases hend : maxRetries ≤ attempt ∨ shouldRetry e = false
    · exact Or.inl ⟨by simp only [retryBody, hop, hend, if_true], hend⟩
    · obtain ⟨hlt, hretry⟩ := not_or.1 hend
      exact Or.inr ⟨by simp only [retryBody, hop, hend, if_false], UInt32.not_le.1 hlt, hretry⟩

/-- A turn that returns. -/
theorem retryBody_eq_inr {attempt : UInt32} {calls : ℕ} {result : Except ε α}
    (h : retryBody maxRetries op shouldRetry (attempt, calls) = .inr result) :
    result = op calls ∧ (maxRetries ≤ attempt ∨ EndsRetrying shouldRetry (op calls)) := by
  rcases retryBody_cases maxRetries op shouldRetry attempt calls with ⟨hret, hend⟩ | ⟨hgo, _⟩
  · exact ⟨Sum.inr.inj (h.symm.trans hret), hend⟩
  · rw [hgo] at h
    cases h

/-- A turn that goes on. -/
theorem retryBody_eq_inl {attempt : UInt32} {calls : ℕ} {s : UInt32 × ℕ}
    (h : retryBody maxRetries op shouldRetry (attempt, calls) = .inl s) :
    s = (attempt + 1, calls + 1) ∧ attempt < maxRetries ∧ ¬EndsRetrying shouldRetry (op calls) := by
  rcases retryBody_cases maxRetries op shouldRetry attempt calls with ⟨hret, _⟩ | ⟨hgo, hlt, hretried⟩
  · rw [hret] at h
    cases h
  · exact ⟨Sum.inl.inj (h.symm.trans hgo), hlt, hretried⟩

/-- The counter does not wrap below `max_retries`. -/
theorem toNat_succ {attempt : UInt32} (h : attempt < maxRetries) : (attempt + 1).toNat = attempt.toNat + 1 := by
  have hlt := UInt32.lt_iff_toNat_lt.1 h
  have hmax := maxRetries.toNat_lt
  rw [UInt32.toNat_add, UInt32.toNat_one]
  omega

/-- The state after `i` turns that went on. -/
structure Retrying (maxRetries : UInt32) (op : ℕ → Except ε α) (shouldRetry : ε → Bool) (i : ℕ)
    (s : UInt32 × ℕ) : Prop where
  attempt : s.1.toNat = i
  calls : s.2 = i
  le : i ≤ maxRetries.toNat
  retried : ∀ n < i, ¬EndsRetrying shouldRetry (op n)

theorem Retrying.start : Retrying maxRetries op shouldRetry 0 (0, 0) := ⟨rfl, rfl, Nat.zero_le _, nofun⟩

/-- A turn that goes on has made one more call that is retried. -/
theorem Retrying.step {i : ℕ} {s s' : UInt32 × ℕ} (h : Retrying maxRetries op shouldRetry i s)
    (hs : retryBody maxRetries op shouldRetry s = .inl s') : Retrying maxRetries op shouldRetry (i + 1) s' := by
  obtain ⟨attempt, calls⟩ := s
  obtain ⟨hattempt, hcalls, hle, hretried⟩ := h
  obtain ⟨rfl, hlt, hgo⟩ := retryBody_eq_inl hs
  have hlt' := UInt32.lt_iff_toNat_lt.1 hlt
  simp only at hattempt hcalls
  subst hcalls
  refine ⟨by rw [toNat_succ hlt, hattempt], rfl, by omega, fun n hn => ?_⟩
  rcases Nat.lt_succ_iff_lt_or_eq.1 hn with hn | rfl
  · exact hretried n hn
  · exact hgo

/-- A loop that has returned has stopped at the first of its stops, with the result of its last call. -/
theorem Returns.isLeast {k : ℕ} {result : Except ε α}
    (h : Loop.Returns (retryBody maxRetries op shouldRetry) (0, 0) k result) :
    IsLeast (stops maxRetries op shouldRetry) k ∧ result = op (k - 1) := by
  obtain ⟨i, ⟨attempt, calls⟩, rfl, ht, hret⟩ := h.invariant (fun _ _ _ hs hbody => Retrying.step hs hbody) .start
  rw [Nat.zero_add] at ht
  obtain ⟨hattempt, hcalls, hle, hretried⟩ := ht
  simp only at hattempt hcalls
  subst hcalls
  obtain ⟨rfl, hend⟩ := retryBody_eq_inr hret
  refine ⟨⟨?_, ?_⟩, rfl⟩
  · rcases hend with hmax | hend
    · have := UInt32.le_iff_toNat_le.1 hmax
      exact Or.inl (by omega)
    · exact Or.inr ⟨calls, rfl, hend⟩
  · rintro k (rfl | ⟨n, rfl, hn⟩)
    · omega
    · by_contra hlt
      exact hretried n (by omega) hn

/-- The loop returns: every turn that goes on has one attempt less to make. -/
theorem exists_returns (maxRetries : UInt32) (op : ℕ → Except ε α) (shouldRetry : ε → Bool) :
    ∃ k result, Loop.Returns (retryBody maxRetries op shouldRetry) (0, 0) k result := by
  refine Loop.exists_returns (fun s => maxRetries.toNat - s.1.toNat) (fun s s' hs => ?_) (0, 0)
  obtain ⟨attempt, calls⟩ := s
  obtain ⟨rfl, hlt, _⟩ := retryBody_eq_inl hs
  have hlt' := UInt32.lt_iff_toNat_lt.1 hlt
  simp only [toNat_succ hlt]
  omega

/-- What the loop returns, and when. -/
theorem returns_iff (maxRetries : UInt32) (op : ℕ → Except ε α) (shouldRetry : ε → Bool) :
    ∃ k, IsLeast (stops maxRetries op shouldRetry) k ∧ ∀ calls result,
      Loop.Returns (retryBody maxRetries op shouldRetry) (0, 0) calls result ↔ calls = k ∧ result = op (k - 1) := by
  obtain ⟨k, result, hreturns⟩ := exists_returns maxRetries op shouldRetry
  obtain ⟨hleast, rfl⟩ := Returns.isLeast hreturns
  refine ⟨k, hleast, fun calls result => ⟨fun h => h.unique hreturns, ?_⟩⟩
  rintro ⟨rfl, rfl⟩
  exact hreturns

/-- The loop returns what `retryWithBackoff` gives, in as many calls. -/
theorem Returns.eq_retryWithBackoff {k : ℕ} {result : Except ε α}
    (h : Loop.Returns (retryBody maxRetries op shouldRetry) (0, 0) k result) :
    retryWithBackoff maxRetries.toNat op shouldRetry = (result, k) := by
  obtain ⟨⟨hmem, hlower⟩, rfl⟩ := Returns.isLeast h
  have hpos : 0 < k := by
    rcases hmem with rfl | ⟨n, rfl, _⟩
    · exact Nat.succ_pos _
    · exact Nat.succ_pos _
  obtain ⟨i, rfl⟩ : ∃ i, k = i + 1 := ⟨k - 1, by omega⟩
  have hle : i + 1 ≤ maxRetries.toNat + 1 := hlower (Or.inl rfl)
  refine retryWithBackoff_eq (by omega) (fun n hn => ?_) ?_
  · -- a result before the first stop is retried
    by_contra hno
    have := hlower (Or.inr ⟨n, rfl, endsRetrying_iff.2 hno⟩)
    omega
  · rcases hmem with heq | ⟨n, heq, hend⟩
    · exact Or.inl (by omega)
    · obtain rfl : i = n := by omega
      exact Or.inr (endsRetrying_iff.1 hend)

end Loop

/-! ## One slot -/

/-- `fetch_one`, once it has its token: the outcome that it reports after so many requests. -/
def FetchOneReports (maxRetries : UInt32) (rpc : Rpc) (slot : UInt64) (requests : ℕ) (outcome : FetchOutcome) : Prop :=
  ∃ result, Loop.Returns (retryBody maxRetries (rpc slot) isTransient) (0, 0) requests result ∧
    outcome = outcomeOf slot result

/-- The outcome says what the result is. -/
structure Outcome (slot : UInt64) (result : Except RpcError DecodedBlock) (outcome : FetchOutcome) : Prop where
  ingested : (∃ block, outcome = .ingested block ∧ block.slot = slot) ↔ ∃ block, result = .ok block
  block : ∀ block, outcome = .ingested block ↔ result = .ok block
  skipped : outcome = .skipped slot ↔ result = .error .slotSkipped
  failed : ∀ error, outcome = .failed slot error ↔ ∃ e, result = .error e ∧ e ≠ .slotSkipped ∧ error = e.toString

theorem outcome_outcomeOf {slot : UInt64} {result : Except RpcError DecodedBlock}
    (hslot : ∀ block, result = .ok block → block.slot = slot) : Outcome slot result (outcomeOf slot result) := by
  cases result with
  | ok block =>
    have hown := hslot block rfl
    constructor
    · simp [outcomeOf, hown]
    · simp [outcomeOf]
    · simp [outcomeOf]
    · simp [outcomeOf]
  | error e =>
    cases e <;> constructor <;> simp [outcomeOf, eq_comm]

/-- `fetch_one` with the default bound reports the outcome of the pool's task. -/
theorem fetchOneReports_iff {rpc : Rpc} {slot : UInt64} {requests : ℕ} {outcome : FetchOutcome} :
    FetchOneReports 5 rpc slot requests outcome ↔ requests = fetchAttempts rpc slot ∧
    outcome = fetchOutcome rpc slot := by
  obtain ⟨k, result, hreturns⟩ := exists_returns 5 (rpc slot) isTransient
  have heq : retryWithBackoff maxRetries (rpc slot) isTransient = (result, k) := Returns.eq_retryWithBackoff hreturns
  rw [fetchAttempts, fetchOutcome, heq]
  constructor
  · rintro ⟨result', hreturns', rfl⟩
    obtain ⟨hk, hresult⟩ := hreturns'.unique hreturns
    exact ⟨hk, by rw [hresult]⟩
  · rintro ⟨rfl, rfl⟩
    exact ⟨result, hreturns, rfl⟩

/-- The pool reports what `fetch_one` reports, in every run of the call. -/
theorem reported_fetchOneReports {fromValue : Json → Except String RpcEnvelope} {replies : UInt64 → ℕ → Reply}
    {limiter : TokenBucket} {slots : List UInt64} {maxConcurrency : ℕ} {f : RangeFetch}
    (h : Transition.Reachable (rangeFetch (getBlockReply fromValue replies) limiter slots maxConcurrency) f) :
    ∀ outcome ∈ f.reported, ∃ requests,
      FetchOneReports 5 (getBlockReply fromValue replies) outcome.slot requests outcome := by
  obtain ⟨answers, hanswers⟩ := exists_getBlock_eq fromValue replies
  rw [hanswers] at h ⊢
  intro outcome ho
  exact ⟨_, fetchOneReports_iff.2 ⟨rfl, reported_eq_fetchOutcome h outcome ho⟩⟩

/-- **Retrying ends and keeps the right result.** For every bound, predicate and sequence of results the loop makes
exactly `k` calls and returns the result of the last one, where `k` is the smaller of `max_retries + 1` and the
position of the first result that ends retrying. So `fetch_one` sends exactly `k` requests for a slot and reports what
the last answer says; and these are the outcomes that the pool reports, in every run of the call. -/
theorem retrying_exact :
    (∀ (ε α : Type) (maxRetries : UInt32) (op : ℕ → Except ε α) (shouldRetry : ε → Bool), ∃ k,
      IsLeast (stops maxRetries op shouldRetry) k ∧ ∀ calls result,
        Loop.Returns (retryBody maxRetries op shouldRetry) (0, 0) calls result ↔ calls = k ∧ result = op (k - 1)) ∧
    (∀ (maxRetries : UInt32) (fromValue : Json → Except String RpcEnvelope) (replies : UInt64 → ℕ → Reply)
      (slot : UInt64), ∃ k outcome, IsLeast (stops maxRetries (getBlockReply fromValue replies slot) isTransient) k ∧
        (∀ requests o, FetchOneReports maxRetries (getBlockReply fromValue replies) slot requests o ↔
          requests = k ∧ o = outcome) ∧
        Outcome slot (getBlockReply fromValue replies slot (k - 1)) outcome) ∧
    ∀ (fromValue : Json → Except String RpcEnvelope) (replies : UInt64 → ℕ → Reply) (limiter : TokenBucket)
      (slots : List UInt64) (maxConcurrency : ℕ) (f : RangeFetch),
      Transition.Reachable (rangeFetch (getBlockReply fromValue replies) limiter slots maxConcurrency) f →
        ∀ outcome ∈ f.reported, ∃ requests,
          FetchOneReports 5 (getBlockReply fromValue replies) outcome.slot requests outcome := by
  refine ⟨fun ε α maxRetries op shouldRetry => returns_iff maxRetries op shouldRetry, ?_,
    fun _ _ _ _ _ _ => reported_fetchOneReports⟩
  intro maxRetries fromValue replies slot
  obtain ⟨k, hleast, hiff⟩ := returns_iff maxRetries (getBlockReply fromValue replies slot) isTransient
  refine ⟨k, _, hleast, fun requests o => ?_, outcome_outcomeOf fun block h => getBlockReply_slot h⟩
  constructor
  · rintro ⟨result, hreturns, rfl⟩
    obtain ⟨hrequests, rfl⟩ := (hiff _ _).1 hreturns
    exact ⟨hrequests, rfl⟩
  · rintro ⟨rfl, rfl⟩
    exact ⟨_, (hiff _ _).2 ⟨rfl, rfl⟩, rfl⟩

end Tenso.Ingest
