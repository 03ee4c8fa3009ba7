import Mathlib.Algebra.BigOperators.Ring.Finset
import Mathlib.Algebra.BigOperators.Ring.List
import Mathlib.Algebra.Order.Floor.Ring
import Mathlib.Data.Rat.Floor
import Tenso.Ingest.Retry

/-!
# The waits between retries

Between two calls `retry_with_backoff` sleeps for a number of milliseconds that doubles with every attempt up to a
cap, give or take a random jitter. Floats are exact numbers here, or infinite.

The result does not depend on the waits (`retryLoopDelays_eq`). The waits are bounded in number, one by one, and in sum
(`backoff_bounds`); with the defaults of `fetch_one` each is longer than the one before, and all together
are no longer than 9.3 seconds, so that the cap of ten seconds never applies (`fetch_delays`).
-/

namespace Tenso.Ingest

/-- The configuration of `retry_with_backoff`; the delays are in milliseconds. -/
structure RetryConfig where
  maxRetries : ℕ
  baseDelay : ℕ
  maxDelay : ℕ
  jitterFactor : ℚ

/-- `RetryConfig::default()`. -/
def RetryConfig.default : RetryConfig := ⟨Ingest.maxRetries, 250, 10000, 1 / 5⟩

/-- `2f64.powi(attempt as i32)`, which is infinite from 1024 on. -/
def powi (attempt : ℕ) : WithTop ℚ :=
  let exponent := (Int32.ofNat attempt).toInt
  if exponent < 1024 then ((2 : ℚ) ^ exponent : ℚ) else ⊤

namespace RetryConfig

variable (config : RetryConfig)

/-- The delay after an attempt, without jitter. -/
def capped (attempt : ℕ) : ℚ :=
  match powi attempt with
  | (power : ℚ) => min (config.baseDelay * power) config.maxDelay
  -- the base times infinity is infinite, or NaN if the base is zero; `f64::min` of either with the cap is the cap
  | ⊤ => config.maxDelay

/-- The jitter is drawn from `-jitter_range..=jitter_range`. -/
def jitterRange (attempt : ℕ) : ℚ := config.capped attempt * config.jitterFactor

/-- The delay after an attempt; `as u64` saturates. -/
def delayMs (attempt : ℕ) (jitter : ℚ) : ℕ := min ⌊max (config.capped attempt + jitter) 0⌋₊ (2 ^ 64 - 1)

end RetryConfig

section Loop

variable {ε α : Type}

/-- The loop of `retry_with_backoff` with its waits. -/
def retryLoopDelays (config : RetryConfig) (op : ℕ → Except ε α) (shouldRetry : ε → Bool) (jitter : ℕ → ℚ) :
    (retriesLeft attempt : ℕ) → Except ε α × List ℕ
  | 0, attempt => (op attempt, [])
  | retriesLeft + 1, attempt =>
    match op attempt with
    | .ok v => (.ok v, [])
    | .error e =>
      if shouldRetry e then
        let (result, delays) := retryLoopDelays config op shouldRetry jitter retriesLeft (attempt + 1)
        (result, config.delayMs attempt (jitter attempt) :: delays)
      else (.error e, [])

/-- `retry_with_backoff`: the result, and the waits in milliseconds. `jitter n` is drawn after call `n`. -/
def retryWithDelays (config : RetryConfig) (op : ℕ → Except ε α) (shouldRetry : ε → Bool) (jitter : ℕ → ℚ) :
    Except ε α × List ℕ :=
  retryLoopDelays config op shouldRetry jitter config.maxRetries 0

variable {config : RetryConfig} {op : ℕ → Except ε α} {shouldRetry : ε → Bool} {jitter : ℕ → ℚ}

/-- Waiting changes nothing else: the result and the calls are those without waits, and there is a wait after each call
but the last. -/
theorem retryLoopDelays_eq (retriesLeft attempt : ℕ) : ∃ k, k ≤ retriesLeft ∧
    (retryLoop op shouldRetry retriesLeft attempt).2 = attempt + k + 1 ∧
    retryLoopDelays config op shouldRetry jitter retriesLeft attempt =
      ((retryLoop op shouldRetry retriesLeft attempt).1,
        (List.range' attempt k).map fun n => config.delayMs n (jitter n)) := by
  induction retriesLeft generalizing attempt with
  | zero => exact ⟨0, le_rfl, rfl, rfl⟩
  | succ retriesLeft ih =>
    cases hop : op attempt with
    | ok v => exact ⟨0, Nat.zero_le _, by simp [retryLoop, hop], by simp [retryLoop, retryLoopDelays, hop]⟩
    | error e =>
      cases hretry : shouldRetry e with
      | false =>
        exact ⟨0, Nat.zero_le _, by simp [retryLoop, hop, hretry], by simp [retryLoop, retryLoopDelays, hop, hretry]⟩
      | true =>
        obtain ⟨k, hk, hcalls, hloop⟩ := ih (attempt + 1)
        refine ⟨k + 1, Nat.succ_le_succ hk, ?_, ?_⟩
        · simp only [retryLoop, hop, hretry, if_true, hcalls]
          omega
        · simp [retryLoop, retryLoopDelays, hop, hretry, hloop, List.range'_succ]

end Loop

/-! ## Bounds -/

theorem powi_of_lt {attempt : ℕ} (h : attempt < 1024) : powi attempt = ((2 ^ attempt : ℚ) : WithTop ℚ) := by
  have hexp : (Int32.ofNat attempt).toInt = attempt := by
    rw [Int32.toInt_ofNat', Int32.size, Int.bmod_eq_of_le (by omega) (by omega)]
  simp only [powi, hexp, zpow_natCast]
  exact if_pos (by omega)

section Bounds

variable {config : RetryConfig} {attempt : ℕ} {jitter : ℚ}

theorem RetryConfig.capped_of_lt (h : attempt < 1024) :
    config.capped attempt = min ((config.baseDelay : ℚ) * 2 ^ attempt) config.maxDelay := by
  rw [capped, powi_of_lt h]

theorem RetryConfig.capped_le : config.capped attempt ≤ config.maxDelay := by
  unfold capped
  split
  · exact min_le_right _ _
  · exact le_rfl

theorem RetryConfig.capped_nonneg : 0 ≤ config.capped attempt := by
  unfold capped
  split
  · rename_i power hpower
    have hpos : 0 ≤ power := by
      simp only [powi] at hpower
      split at hpower
      · rw [← WithTop.coe_inj.1 hpower]
        exact (zpow_pos two_pos _).le
      · cases hpower
    exact le_min (by positivity) (by positivity)
  · positivity

theorem RetryConfig.jitterRange_default_nonneg : 0 ≤ RetryConfig.default.jitterRange attempt :=
  mul_nonneg RetryConfig.capped_nonneg (by norm_num [RetryConfig.default])

/-- One wait. -/
theorem RetryConfig.delayMs_bounds (hjitter : |jitter| ≤ config.jitterRange attempt) :
    min ⌊(1 - config.jitterFactor) * config.capped attempt⌋₊ (2 ^ 64 - 1) ≤ config.delayMs attempt jitter ∧
      config.delayMs attempt jitter ≤ (1 + config.jitterFactor) * config.capped attempt := by
  have hnonneg : 0 ≤ config.capped attempt := RetryConfig.capped_nonneg
  obtain ⟨hlo, hhi⟩ := abs_le.1 hjitter
  have hrange : 0 ≤ config.jitterRange attempt := (abs_nonneg jitter).trans hjitter
  simp only [RetryConfig.jitterRange] at hlo hhi hrange
  constructor
  · refine min_le_min_right _ (Nat.floor_mono (le_max_of_le_left ?_))
    linarith
  · have hfloor : (⌊max (config.capped attempt + jitter) 0⌋₊ : ℚ) ≤ max (config.capped attempt + jitter) 0 :=
      Nat.floor_le (le_max_right _ _)
    have hmax : max (config.capped attempt + jitter) 0 ≤ (1 + config.jitterFactor) * config.capped attempt :=
      max_le (by linarith) (by linarith)
    have hmin : (config.delayMs attempt jitter : ℚ) ≤ ⌊max (config.capped attempt + jitter) 0⌋₊ := by
      exact_mod_cast min_le_left _ _
    exact hmin.trans (hfloor.trans hmax)

/-- The waits after the first `n` attempts, without jitter. -/
theorem RetryConfig.sum_capped_le (config : RetryConfig) (n : ℕ) :
    ((List.range n).map config.capped).sum ≤ n * config.maxDelay ∧
      (n ≤ 1024 → ((List.range n).map config.capped).sum ≤ config.baseDelay * (2 ^ n - 1)) := by
  induction n with
  | zero => simp
  | succ n ih =>
    obtain ⟨hmax, hbase⟩ := ih
    rw [List.sum_range_succ]
    constructor
    · have hcap : config.capped n ≤ config.maxDelay := RetryConfig.capped_le
      push_cast
      linarith
    · intro hn
      have hexp : config.capped n ≤ config.baseDelay * 2 ^ n := by
        rw [RetryConfig.capped_of_lt (by omega)]
        exact min_le_left _ _
      have := hbase (by omega)
      rw [pow_succ]
      linarith

/-- The waits, added up. -/
theorem RetryConfig.sum_delayMs_le {jitter : ℕ → ℚ} (hfactor : 0 ≤ config.jitterFactor)
    (hjitter : ∀ n, |jitter n| ≤ config.jitterRange n) (n : ℕ) :
    ((((List.range n).map fun n => config.delayMs n (jitter n)).sum : ℕ) : ℚ) ≤
        (1 + config.jitterFactor) * (n * config.maxDelay) ∧
      (n ≤ 1024 → ((((List.range n).map fun n => config.delayMs n (jitter n)).sum : ℕ) : ℚ) ≤
        (1 + config.jitterFactor) * (config.baseDelay * (2 ^ n - 1))) := by
  have hsum : (((List.range n).map fun n => config.delayMs n (jitter n)).sum : ℚ) ≤
      ((List.range n).map fun n => (1 + config.jitterFactor) * config.capped n).sum := by
    rw [Nat.cast_list_sum, List.map_map]
    exact List.sum_le_sum fun n _ => (config.delayMs_bounds (hjitter n)).2
  rw [List.sum_map_mul_left] at hsum
  have hpos : 0 ≤ 1 + config.jitterFactor := by linarith
  obtain ⟨hmax, hbase⟩ := config.sum_capped_le n
  exact ⟨hsum.trans (mul_le_mul_of_nonneg_left hmax hpos),
    fun hn => hsum.trans (mul_le_mul_of_nonneg_left (hbase hn) hpos)⟩

end Bounds

section Results

variable {ε α : Type}

/-- `retry_with_backoff` with its waits, after each call but the last. -/
theorem retryWithDelays_eq (config : RetryConfig) (op : ℕ → Except ε α) (shouldRetry : ε → Bool) (jitter : ℕ → ℚ) :
    ∃ k ≤ config.maxRetries, (retryWithBackoff config.maxRetries op shouldRetry).2 = k + 1 ∧
      retryWithDelays config op shouldRetry jitter = ((retryWithBackoff config.maxRetries op shouldRetry).1,
        (List.range k).map fun n => config.delayMs n (jitter n)) := by
  obtain ⟨k, hk, hcalls, hloop⟩ := @retryLoopDelays_eq _ _ config op shouldRetry jitter config.maxRetries 0
  refine ⟨k, hk, by rw [retryWithBackoff, hcalls, Nat.zero_add], ?_⟩
  rw [retryWithDelays, hloop, List.range_eq_range', retryWithBackoff]

/-- **The waits are bounded**, whatever the operation answers and whatever jitter is drawn: in number, one by one, and
in sum, by the cap and, up to 1024 of them, by an exponential. -/
theorem backoff_bounds (config : RetryConfig) (op : ℕ → Except ε α) (shouldRetry : ε → Bool) (jitter : ℕ → ℚ)
    (hfactor : 0 ≤ config.jitterFactor) (hjitter : ∀ n, |jitter n| ≤ config.jitterRange n) :
    ∃ delays, retryWithDelays config op shouldRetry jitter =
        ((retryWithBackoff config.maxRetries op shouldRetry).1, delays) ∧
      delays.length + 1 = (retryWithBackoff config.maxRetries op shouldRetry).2 ∧ delays.length ≤ config.maxRetries ∧
      (∀ n d, delays[n]? = some d → min ⌊(1 - config.jitterFactor) * config.capped n⌋₊ (2 ^ 64 - 1) ≤ d ∧
        (d : ℚ) ≤ (1 + config.jitterFactor) * config.capped n) ∧
      (delays.sum : ℚ) ≤ (1 + config.jitterFactor) * (delays.length * config.maxDelay) ∧
      (delays.length ≤ 1024 →
        (delays.sum : ℚ) ≤ (1 + config.jitterFactor) * (config.baseDelay * (2 ^ delays.length - 1))) := by
  obtain ⟨k, hk, hcalls, hdelays⟩ := retryWithDelays_eq config op shouldRetry jitter
  refine ⟨_, hdelays, ?_⟩
  simp only [List.length_map, List.length_range]
  refine ⟨hcalls.symm, hk, fun n d hd => ?_, config.sum_delayMs_le hfactor hjitter k⟩
  rw [List.getElem?_map, Option.map_eq_some_iff] at hd
  obtain ⟨m, hm, rfl⟩ := hd
  obtain ⟨_, rfl⟩ := List.getElem?_eq_some_iff.1 hm
  rw [List.getElem_range]
  exact config.delayMs_bounds (hjitter n)

/-- The widest waits of an operation that always fails. -/
theorem backoff_bounds_example : ∃ delays : List ℕ,
    retryWithDelays .default (fun _ => (.error "timeout" : Except String Unit)) (fun _ => true)
      RetryConfig.default.jitterRange = (.error "timeout", delays) ∧
    delays.length + 1 = 6 ∧
    (delays.sum : ℚ) ≤ (1 + 1 / 5) * (250 * (2 ^ delays.length - 1)) := by
  obtain ⟨delays, hdelays, hcalls, hlength, _, _, hsum⟩ := backoff_bounds .default
    (fun _ => (.error "timeout" : Except String Unit)) (fun _ => true) RetryConfig.default.jitterRange
    (by norm_num [RetryConfig.default]) fun n => le_of_eq (abs_of_nonneg RetryConfig.jitterRange_default_nonneg)
  refine ⟨delays, hdelays, hcalls, ?_⟩
  simpa only [RetryConfig.default, Nat.cast_ofNat] using hsum (hlength.trans (by decide))

/-- The delays of the defaults double up to the last retry. -/
theorem capped_default {n : ℕ} (h : n < maxRetries) : RetryConfig.default.capped n = 250 * 2 ^ n := by
  have hn : n ≤ 4 := Nat.le_of_lt_succ h
  have hpow : (2 : ℚ) ^ n ≤ 2 ^ 4 := pow_le_pow_right₀ one_le_two hn
  rw [RetryConfig.capped_of_lt (by omega)]
  simp only [RetryConfig.default, Nat.cast_ofNat]
  exact min_eq_left (by linarith)

theorem delayMs_default {n : ℕ} {jitter : ℚ} (h : n < maxRetries)
    (hjitter : |jitter| ≤ RetryConfig.default.jitterRange n) :
    200 * 2 ^ n ≤ RetryConfig.default.delayMs n jitter ∧ RetryConfig.default.delayMs n jitter ≤ 300 * 2 ^ n := by
  obtain ⟨hlo, hhi⟩ := RetryConfig.delayMs_bounds hjitter
  rw [capped_default h] at hlo hhi
  have hn : n ≤ 4 := Nat.le_of_lt_succ h
  have hpow : 2 ^ n ≤ 2 ^ 4 := Nat.pow_le_pow_right (by decide) hn
  constructor
  · have hfloor : ⌊(1 - RetryConfig.default.jitterFactor) * (250 * 2 ^ n)⌋₊ = 200 * 2 ^ n := by
      rw [Nat.floor_eq_iff (by simp only [RetryConfig.default]; positivity)]
      simp only [RetryConfig.default]
      push_cast
      constructor <;> linarith
    rw [hfloor] at hlo
    omega
  · have hle : (RetryConfig.default.delayMs n jitter : ℚ) ≤ 300 * 2 ^ n := by
      simp only [RetryConfig.default] at hhi ⊢
      linarith
    exact_mod_cast hle

/-- **The waits of a fetch.** However the server answers and whatever jitter is drawn, `fetch_one` waits after each
request but the last, each time longer than before, and for no more than 9.3 seconds in all; the cap of ten seconds
never applies. -/
theorem fetch_delays (rpc : Rpc) (slot : UInt64) (jitter : ℕ → ℚ)
    (hjitter : ∀ n, |jitter n| ≤ RetryConfig.default.jitterRange n) :
    ∃ delays, retryWithDelays .default (rpc slot) isTransient jitter =
        ((retryWithBackoff maxRetries (rpc slot) isTransient).1, delays) ∧
      delays.length + 1 = fetchAttempts rpc slot ∧ delays.Pairwise (· < ·) ∧
      (∀ n d, delays[n]? = some d → 200 * 2 ^ n ≤ d ∧ d ≤ 300 * 2 ^ n ∧ d < RetryConfig.default.maxDelay) ∧
      delays.sum ≤ 9300 := by
  obtain ⟨k, hk, hcalls, hdelays⟩ := retryWithDelays_eq .default (rpc slot) isTransient jitter
  have hbounds (n : ℕ) (h : n < k) := delayMs_default (lt_of_lt_of_le h hk) (hjitter n)
  refine ⟨_, hdelays, ?_, ?_, ?_, ?_⟩
  · rw [List.length_map, List.length_range]
    exact hcalls.symm
  · rw [List.pairwise_map]
    refine List.pairwise_lt_range.imp_of_mem fun {m n} hm hn hlt => ?_
    have hupper := (hbounds m (List.mem_range.1 hm)).2
    have hlower := (hbounds n (List.mem_range.1 hn)).1
    have hdouble : 2 ^ (m + 1) ≤ 2 ^ n := Nat.pow_le_pow_right (by decide) hlt
    have hpos : 0 < 2 ^ m := Nat.two_pow_pos m
    rw [pow_succ] at hdouble
    omega
  · intro n d hd
    rw [List.getElem?_map, Option.map_eq_some_iff] at hd
    obtain ⟨m, hm, rfl⟩ := hd
    obtain ⟨hlt, rfl⟩ := List.getElem?_eq_some_iff.1 hm
    rw [List.getElem_range]
    rw [List.length_range] at hlt
    have hle : 2 ^ n ≤ 2 ^ 4 := Nat.pow_le_pow_right (by decide) (Nat.le_of_lt_succ (lt_of_lt_of_le hlt hk))
    have hmax : RetryConfig.default.maxDelay = 10000 := rfl
    obtain ⟨hlower, hupper⟩ := hbounds n hlt
    omega
  · have hk' : k ≤ 1024 := hk.trans (by decide)
    have hsum := (RetryConfig.default.sum_delayMs_le (by norm_num [RetryConfig.default]) hjitter k).2 hk'
    have hpow : (2 : ℚ) ^ k ≤ 2 ^ 5 := pow_le_pow_right₀ one_le_two hk
    simp only [RetryConfig.default, Nat.cast_ofNat] at hsum
    have hle : ((((List.range k).map fun n => RetryConfig.default.delayMs n (jitter n)).sum : ℕ) : ℚ) ≤ 9300 := by
      refine hsum.trans ?_
      linarith
    exact_mod_cast hle

/-- A server that never answers. -/
theorem fetch_delays_example : ∃ delays : List ℕ,
    retryWithDelays .default (fun _ => (.error (.transport "timeout") : Except RpcError DecodedBlock)) isTransient
      RetryConfig.default.jitterRange = (.error (.transport "timeout"), delays) ∧
    delays.length + 1 = 6 ∧ delays.Pairwise (· < ·) ∧ delays.sum ≤ 9300 := by
  obtain ⟨delays, hdelays, hcalls, hgrow, _, hsum⟩ := fetch_delays (fun _ _ => .error (.transport "timeout")) 7
    RetryConfig.default.jitterRange fun n => le_of_eq (abs_of_nonneg RetryConfig.jitterRange_default_nonneg)
  exact ⟨delays, hdelays, hcalls, hgrow, hsum⟩

end Results

end Tenso.Ingest
