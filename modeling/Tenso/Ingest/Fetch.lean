import Mathlib.Algebra.Order.Ring.Unbundled.Rat
import Mathlib.Data.List.Infix
import Tenso.Ingest.Defs
import Tenso.Lib.Transition

/-!
# Fetching a slot range

`fetch_block_range` keeps a bounded number of fetch tasks in flight and hands on their outcomes. A task acquires one
token of the shared bucket and then sends `getBlock` requests until one is answered for good: `retry_with_backoff` sends
again after a transient error, at most `maxRetries` times.

The answers are an oracle `rpc`: the result of the request of a slot with the given attempt number. A step of a task is
one poll; a poll that acquires the token goes on to send the first request.
-/

namespace Tenso.Ingest

/-! ## Errors -/

/-- Why a request fails. -/
inductive RpcError where
  | transport (error : String)
  | rpcReturnedError (msg : String)
  | slotSkipped
  | unexpectedShape (msg : String)
  deriving DecidableEq, Repr

/-- The message of an error. -/
def RpcError.toString : RpcError → String
  | .transport error => "transport error: " ++ error
  | .rpcReturnedError msg => "rpc returned an error: " ++ msg
  | .slotSkipped => "slot was skipped by the leader"
  | .unexpectedShape msg => "unexpected response shape: " ++ msg

/-- `s.contains(sub)`. -/
def containsStr (s sub : List Char) : Bool := decide (sub <:+: s)

/-- Errors that are worth a retry: network errors and rate limit responses. -/
def isTransient : RpcError → Bool
  | .transport _ => true
  | .rpcReturnedError msg =>
    let m := msg.toList.map Char.toLower
    containsStr m "429".toList || containsStr m "too many".toList || containsStr m "rate limit".toList
  | _ => false

/-- The answers to the requests: slot, attempt number. -/
abbrev Rpc := UInt64 → ℕ → Except RpcError DecodedBlock

/-! ## The token bucket -/

/-- The shared limiter: the tokens now, how many fit, and how many arrive a second. -/
structure TokenBucket where
  tokens : ℚ
  capacity : ℚ
  refillPerSec : ℚ

/-- A full bucket. -/
def TokenBucket.new (ratePerSec burst : ℚ) : TokenBucket := ⟨burst, burst, ratePerSec⟩

/-- One turn of `acquire` after `elapsed` seconds: refill, then take a token if there is one. -/
def TokenBucket.poll (b : TokenBucket) (elapsed : ℚ) : Bool × TokenBucket :=
  let tokens := min (b.tokens + elapsed * b.refillPerSec) b.capacity
  if 1 ≤ tokens then (true, { b with tokens := tokens - 1 }) else (false, { b with tokens })

theorem poll_capacity {b b' : TokenBucket} {elapsed : ℚ} {got : Bool} (h : b.poll elapsed = (got, b')) :
    b'.capacity = b.capacity ∧ b'.refillPerSec = b.refillPerSec := by
  unfold TokenBucket.poll at h
  simp only at h
  split at h <;> cases h <;> exact ⟨rfl, rfl⟩

theorem poll_of_capacity_lt {b : TokenBucket} (h : b.capacity < 1) (elapsed : ℚ) : (b.poll elapsed).1 = false := by
  have : ¬1 ≤ min (b.tokens + elapsed * b.refillPerSec) b.capacity := fun hle =>
    absurd (hle.trans (min_le_right _ _)) (not_le.2 h)
  unfold TokenBucket.poll
  simp only [this, if_false]

/-- A token that is there is taken at once. -/
theorem poll_zero {b : TokenBucket} (htoken : 1 ≤ b.tokens) (hfits : b.tokens ≤ b.capacity) :
    b.poll 0 = (true, { b with tokens := b.tokens - 1 }) := by
  have : min (b.tokens + 0 * b.refillPerSec) b.capacity = b.tokens := by
    rw [Rat.zero_mul, Rat.add_zero, min_eq_left hfits]
  simp only [TokenBucket.poll, this, if_pos htoken]

/-! ## Fetch tasks -/

/-- `RetryConfig::default().max_retries`. -/
def maxRetries : ℕ := 5

/-- Where a fetch task is: waiting for a token, waiting for the answer to an attempt, sleeping after it, or over. -/
inductive FetchPhase where
  | acquiring
  | awaiting (attempt : ℕ)
  | sleeping (attempt : ℕ)
  | done (outcome : FetchOutcome)
  deriving DecidableEq

/-- A fetch task. -/
structure FetchTask where
  slot : UInt64
  phase : FetchPhase
  deriving DecidableEq

theorem forall_replace {p : FetchTask → Prop} {pre post : List FetchTask} {t t' : FetchTask}
    (h : ∀ u ∈ pre ++ t :: post, p u) (ht : p t') : ∀ u ∈ pre ++ t' :: post, p u := by
  simp only [List.forall_mem_append, List.forall_mem_cons] at h ⊢
  exact ⟨h.1, ht, h.2.2⟩

/-- The outcome of the last answer. -/
def outcomeOf (slot : UInt64) : Except RpcError DecodedBlock → FetchOutcome
  | .ok block => .ingested block
  | .error .slotSkipped => .skipped slot
  | .error e => .failed slot e.toString

/-- What a task does with the answer to an attempt: it is over, or it sleeps before a retry. -/
def answered (slot : UInt64) (attempt : ℕ) (result : Except RpcError DecodedBlock) : FetchPhase :=
  match result with
  | .ok _ => .done (outcomeOf slot result)
  | .error e =>
    if maxRetries ≤ attempt ∨ isTransient e = false then .done (outcomeOf slot result) else .sleeping attempt

/-! ## The worker pool -/

/-- What the pool is doing: waiting for the next finished task, handing on an outcome, or nothing more. -/
inductive PoolPhase where
  | polling
  | handingOn (outcome : FetchOutcome)
  | finished
  deriving DecidableEq

/-- The state of `fetch_block_range`: the slots left, the tasks in flight, the bucket, and the numbers of tokens
acquired and of requests sent. -/
structure Pool where
  phase : PoolPhase
  slots : List UInt64
  inFlight : List FetchTask
  limiter : TokenBucket
  acquired : ℕ
  requests : ℕ

/-- `start_slot..start_slot + count`, in the order in which the slots are taken. -/
def slotRange (startSlot count : UInt64) : List UInt64 :=
  (List.range ((startSlot + count).toNat - startSlot.toNat)).map fun i => startSlot + UInt64.ofNat i

/-- A new task. -/
def fetchOne (slot : UInt64) : FetchTask := ⟨slot, .acquiring⟩

/-- The primed pool: up to `maxConcurrency` tasks in flight. -/
def Pool.start (limiter : TokenBucket) (slots : List UInt64) (maxConcurrency : ℕ) : Pool :=
  { phase := .polling, slots := slots.drop maxConcurrency, inFlight := (slots.take maxConcurrency).map fetchOne,
    limiter, acquired := 0, requests := 0 }

/-- Put the next slot in flight, if there is one. -/
def Pool.refill (s : Pool) : Pool :=
  match s.slots with
  | [] => s
  | slot :: rest => { s with slots := rest, inFlight := s.inFlight ++ [fetchOne slot] }

theorem Pool.refill_eq (s : Pool) : s.refill =
    { s with slots := s.slots.tail, inFlight := s.inFlight ++ s.slots.head?.toList.map fetchOne } := by
  obtain ⟨phase, slots, inFlight, limiter, acquired, requests⟩ := s
  cases slots with
  | nil => simp [Pool.refill]
  | cons slot rest => rfl

/-- One step of the pool: tasks are polled in any order. -/
inductive Pool.Step (rpc : Rpc) : Pool → Pool → Prop
  /-- a task waits on for a token -/
  | denied {s : Pool} {pre post : List FetchTask} {slot : UInt64} {elapsed : ℚ} {limiter : TokenBucket}
      (hphase : s.phase = .polling) (htask : s.inFlight = pre ++ ⟨slot, .acquiring⟩ :: post) (htime : 0 ≤ elapsed)
      (hpoll : s.limiter.poll elapsed = (false, limiter)) : Step rpc s { s with limiter }
  /-- a task acquires its token and sends its first request -/
  | granted {s : Pool} {pre post : List FetchTask} {slot : UInt64} {elapsed : ℚ} {limiter : TokenBucket}
      (hphase : s.phase = .polling) (htask : s.inFlight = pre ++ ⟨slot, .acquiring⟩ :: post) (htime : 0 ≤ elapsed)
      (hpoll : s.limiter.poll elapsed = (true, limiter)) :
      Step rpc s { s with limiter, inFlight := pre ++ ⟨slot, .awaiting 0⟩ :: post, acquired := s.acquired + 1,
                          requests := s.requests + 1 }
  /-- the answer to a request arrives -/
  | answer {s : Pool} {pre post : List FetchTask} {slot : UInt64} {attempt : ℕ} (hphase : s.phase = .polling)
      (htask : s.inFlight = pre ++ ⟨slot, .awaiting attempt⟩ :: post) :
      Step rpc s { s with inFlight := pre ++ ⟨slot, answered slot attempt (rpc slot attempt)⟩ :: post }
  /-- the backoff is over: the next request is sent -/
  | retry {s : Pool} {pre post : List FetchTask} {slot : UInt64} {attempt : ℕ} (hphase : s.phase = .polling)
      (htask : s.inFlight = pre ++ ⟨slot, .sleeping attempt⟩ :: post) :
      Step rpc s { s with inFlight := pre ++ ⟨slot, .awaiting (attempt + 1)⟩ :: post, requests := s.requests + 1 }
  /-- a task is over: its outcome is handed on -/
  | next {s : Pool} {pre post : List FetchTask} {slot : UInt64} {outcome : FetchOutcome} (hphase : s.phase = .polling)
      (htask : s.inFlight = pre ++ ⟨slot, .done outcome⟩ :: post) :
      Step rpc s { s with phase := .handingOn outcome, inFlight := pre ++ post }
  /-- the outcome has been taken: the next slot is put in flight -/
  | handedOn {s : Pool} {outcome : FetchOutcome} (hphase : s.phase = .handingOn outcome) :
      Step rpc s { s with phase := .polling }.refill
  /-- no task is left -/
  | finish {s : Pool} (hphase : s.phase = .polling) (hnone : s.inFlight = []) : Step rpc s { s with phase := .finished }

/-- `fetch_block_range` over the slots, as a transition system. -/
def fetchBlockRange (rpc : Rpc) (limiter : TokenBucket) (slots : List UInt64) (maxConcurrency : ℕ) :
    Transition.System Pool :=
  { init := fun s => s = .start limiter slots maxConcurrency, step := Pool.Step rpc }

end Tenso.Ingest
