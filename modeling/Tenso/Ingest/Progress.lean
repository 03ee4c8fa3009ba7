import Mathlib.Algebra.BigOperators.Group.List.Basic
import Tenso.Ingest.RateCap
import Tenso.Ingest.Retry
import Tenso.Ingest.WorkerPool

/-!
# The worker pool goes on

A task that has its token sends at most `maxRetries + 1` requests, so every step of the pool brings its end nearer,
unless a task asks for a token in vain (`Pool.Step.left`). A bucket that can hold a token grants one after a wait
(`Pool.exists_step_left`); from one that cannot, the tasks never get any (`Pool.Idle.busy`).
-/

namespace Tenso.Ingest

/-! ## What is left -/

/-- The steps that a fetch task has left, apart from asking for a token in vain. -/
def FetchPhase.left : FetchPhase → ℕ
  | .acquiring => 2 * maxRetries + 5
  | .awaiting attempt => 2 * (maxRetries - attempt) + 4
  | .sleeping attempt => 2 * (maxRetries - attempt) + 3
  | .done _ => 2

/-- The steps that the tasks have left. -/
def tasksLeft (tasks : List FetchTask) : ℕ := (tasks.map (·.phase.left)).sum

/-- The steps that the pool has left. -/
def Pool.left (s : Pool) : ℕ := s.slots.length * FetchPhase.acquiring.left + tasksLeft s.inFlight + s.phase.left

/-- The numbers of slots that are outstanding. -/
def Pool.pending (s : Pool) : ℕ := s.slots.length + s.inFlight.length + s.phase.hand.length

@[simp] theorem tasksLeft_append (tasks tasks' : List FetchTask) :
    tasksLeft (tasks ++ tasks') = tasksLeft tasks + tasksLeft tasks' := by
  simp [tasksLeft]

@[simp] theorem tasksLeft_cons (t : FetchTask) (tasks : List FetchTask) :
    tasksLeft (t :: tasks) = t.phase.left + tasksLeft tasks := by
  simp [tasksLeft]

/-- A refill moves a slot into the pool. -/
theorem Pool.refill_left (s : Pool) : s.refill.left = s.left ∧ s.refill.pending = s.pending := by
  rw [Pool.refill_eq]
  cases hslots : s.slots with
  | nil => simp [Pool.left, Pool.pending, hslots]
  | cons slot rest =>
    simp only [Pool.left, Pool.pending, hslots, List.tail_cons, List.head?_cons, Option.toList_some, List.map_cons,
      List.map_nil, tasksLeft_append, tasksLeft_cons, fetchOne, List.length_cons, List.length_append]
    constructor
    · rw [Nat.succ_mul, tasksLeft, tasksLeft, List.map_nil, List.sum_nil]
      omega
    · rw [List.length_nil]
      omega

variable {rpc : Rpc}

/-- The answer to an attempt. -/
theorem left_answered (slot : UInt64) (attempt : ℕ) :
    (answered slot attempt (rpc slot attempt)).left < (FetchPhase.awaiting attempt).left := by
  rcases answered_cases slot attempt (rpc slot attempt) with ⟨hdone, _⟩ | ⟨hsleep, _, _⟩
  · rw [hdone]
    simp only [FetchPhase.left]
    omega
  · rw [hsleep]
    simp only [FetchPhase.left]
    omega

/-- A step of the pool brings its end nearer, unless a task asks for a token in vain. -/
theorem Pool.Step.left {s s' : Pool} (hs : Pool.Step rpc s s') (htrack : s.OnTrack rpc) :
    s'.left < s.left ∨ (∃ limiter, s' = { s with limiter }) ∧ ∃ t ∈ s.inFlight, t.phase = .acquiring := by
  cases hs with
  | denied hphase htask =>
    refine Or.inr ⟨⟨_, rfl⟩, ?_⟩
    rw [htask]
    exact ⟨_, List.mem_append_right _ List.mem_cons_self, rfl⟩
  | granted hphase htask =>
    refine Or.inl ?_
    have hlt : (FetchPhase.awaiting 0).left < FetchPhase.acquiring.left := by decide
    simp only [Pool.left, htask, tasksLeft_append, tasksLeft_cons]
    omega
  | @answer pre post slot attempt hphase htask =>
    refine Or.inl ?_
    have hlt := @left_answered rpc slot attempt
    simp only [Pool.left, htask, tasksLeft_append, tasksLeft_cons]
    omega
  | @retry pre post slot attempt hphase htask =>
    obtain ⟨hlt, _⟩ : FetchTask.OnTrack rpc ⟨slot, .sleeping attempt⟩ := htrack.tasks _ (by simp [htask])
    refine Or.inl ?_
    have hlt : (FetchPhase.awaiting (attempt + 1)).left < (FetchPhase.sleeping attempt).left := by
      simp only [FetchPhase.left]
      omega
    simp only [Pool.left, htask, tasksLeft_append, tasksLeft_cons]
    omega
  | @next _ _ _ outcome hphase htask =>
    refine Or.inl ?_
    have hlast : (FetchPhase.done outcome).left = 2 := rfl
    simp only [Pool.left, htask, hphase, tasksLeft_append, tasksLeft_cons, PoolPhase.left]
    omega
  | handedOn hphase =>
    refine Or.inl ?_
    rw [(Pool.refill_left _).1]
    simp [Pool.left, hphase, PoolPhase.left]
  | finish hphase =>
    refine Or.inl ?_
    simp [Pool.left, hphase, PoolPhase.left]

/-- No slot is lost on the way to the hands of the pool. -/
theorem Pool.Step.pending {s s' : Pool} (hs : Pool.Step rpc s s') (hquiet : s.phase.hand = []) :
    s'.pending = s.pending := by
  cases hs with
  | denied => rfl
  | granted hphase htask | answer hphase htask | retry hphase htask => simp [Pool.pending, htask]
  | next hphase htask =>
    simp only [Pool.pending, htask, hphase, PoolPhase.hand, List.length_append, List.length_cons, List.length_nil]
    omega
  | handedOn hphase =>
    rw [hphase] at hquiet
    cases hquiet
  | finish hphase => simp [Pool.pending, hphase, PoolPhase.hand]

/-- A waiting pool can go on, if its bucket can hold a token or no task needs one. -/
theorem Pool.exists_step_left {s : Pool} (htrack : s.OnTrack rpc) (hphase : s.phase = .polling)
    (htoken : s.inFlight ≠ [] → 1 ≤ s.limiter.capacity ∧ 0 < s.limiter.refillPerSec) :
    ∃ s', Pool.Step rpc s s' ∧ s'.left < s.left := by
  suffices ∃ s', Pool.Step rpc s s' ∧ (s'.acquired = s.acquired → s'.inFlight ≠ s.inFlight ∨ s'.phase ≠ s.phase) by
    obtain ⟨s', hs, hmoves⟩ := this
    refine ⟨s', hs, (hs.left htrack).resolve_right ?_⟩
    rintro ⟨⟨limiter, rfl⟩, _⟩
    exact (hmoves rfl).elim (· rfl) (· rfl)
  cases htask : s.inFlight with
  | nil =>
    refine ⟨_, .finish hphase htask, fun _ => Or.inr ?_⟩
    rw [hphase]
    exact nofun
  | cons t post =>
    obtain ⟨slot, phase⟩ := t
    have htask : s.inFlight = [] ++ ⟨slot, phase⟩ :: post := htask
    cases phase with
    | acquiring =>
      obtain ⟨hcap, hrate⟩ := htoken (by rw [htask]; exact List.cons_ne_nil _ _)
      obtain ⟨elapsed, limiter, htime, hpoll⟩ := exists_granted hcap hrate
      exact ⟨_, .granted hphase htask htime hpoll, fun h => absurd h (Nat.succ_ne_self _)⟩
    | awaiting attempt =>
      refine ⟨_, .answer hphase htask, fun _ => Or.inl ?_⟩
      rcases answered_cases slot attempt (rpc slot attempt) with ⟨hdone, _⟩ | ⟨hsleep, _, _⟩
      · simp [hdone]
      · simp [hsleep]
    | sleeping attempt => exact ⟨_, .retry hphase htask, fun _ => Or.inl (by simp)⟩
    | done outcome =>
      refine ⟨_, .next hphase htask, fun _ => Or.inr ?_⟩
      rw [hphase]
      exact nofun

/-- **Tasks that wait for a bucket without room for a token** wait on. -/
theorem Pool.Idle.busy {s s' : Pool} (h : s.Idle) (hs : Pool.Step rpc s s') (hbusy : s.inFlight ≠ []) :
    ∃ limiter, s' = { s with limiter } := by
  have hmid {pre post : List FetchTask} {t : FetchTask} (htask : s.inFlight = pre ++ t :: post) :
      t.phase = .acquiring ∧ s.limiter.capacity < 1 := h.tasks t (by simp [htask])
  cases hs with
  | denied => exact ⟨_, rfl⟩
  | granted hphase htask htime hpoll =>
    have hdenied := poll_of_capacity_lt (hmid htask).2
    rw [Prod.ext_iff, hdenied] at hpoll
    cases hpoll.1
  | answer hphase htask | retry hphase htask | next hphase htask => cases (hmid htask).1
  | handedOn hphase => exact absurd hphase (h.phase _)
  | finish hphase hnone => exact absurd hnone hbusy

/-! ## Tokens -/

/-- The slots that have no token yet. -/
def Pool.thirsty (s : Pool) : ℕ := s.inFlight.countP (·.phase = .acquiring) + s.slots.length

/-- Each slot takes one token. -/
theorem Pool.Step.thirsty {s s' : Pool} (hs : Pool.Step rpc s s') :
    s'.acquired + s'.thirsty = s.acquired + s.thirsty := by
  cases hs with
  | denied => rfl
  | granted hphase htask =>
    simp only [Pool.thirsty, htask, List.countP_append, List.countP_cons, decide_true, if_true,
      reduceCtorEq, decide_false, Bool.false_eq_true, if_false]
    omega
  | @answer pre post slot attempt hphase htask =>
    have hnot : decide (answered slot attempt (rpc slot attempt) = .acquiring) = false := by
      rcases answered_cases slot attempt (rpc slot attempt) with ⟨hdone, _⟩ | ⟨hsleep, _, _⟩
      · rw [hdone]; rfl
      · rw [hsleep]; rfl
    simp [Pool.thirsty, htask, hnot]
  | retry hphase htask => simp [Pool.thirsty, htask]
  | next hphase htask => simp [Pool.thirsty, htask]
  | handedOn hphase =>
    rw [Pool.refill_eq]
    cases hslots : s.slots with
    | nil => simp [Pool.thirsty, hslots]
    | cons slot rest =>
      simp only [Pool.thirsty, hslots, List.tail_cons, List.head?_cons, Option.toList_some, List.map_cons, List.map_nil,
        List.countP_append, fetchOne, List.countP_singleton, decide_true, if_true, List.length_cons]
      omega
  | finish => rfl

theorem thirsty_start (limiter : TokenBucket) (slots : List UInt64) (maxConcurrency : ℕ) :
    (Pool.start limiter slots maxConcurrency).thirsty = slots.length := by
  have hall : ((slots.take maxConcurrency).map fetchOne).countP (·.phase = .acquiring) =
      (slots.take maxConcurrency).length := by
    rw [← List.length_map fetchOne, List.countP_eq_length]
    intro t ht
    obtain ⟨slot, _, rfl⟩ := List.mem_map.1 ht
    rfl
  rw [Pool.thirsty, Pool.start, hall, ← List.length_append, List.take_append_drop]

end Tenso.Ingest
