import Tenso.Ingest.Range
import Tenso.Lib.WorkPool

/-!
# The worker pool is exact and bounded

A call of `fetch_block_range` first primes the pool and then waits for one finished task after the other, in any order
(`RangeFetch.Step`); the slots it has put in flight and the outcomes it has reported are recorded. Once primed it is the
pool of `fetchBlockRange` (`RangeFetch.follows`), and it is a bounded worker pool over the slots (`RangeFetch.tracks`).

So in every reachable state each slot of the range is reported, in flight or not yet dispatched, and at each wait the
pool is full while slots are left. If the fetches in flight complete, a call with a worker ends, with one outcome for
each slot (`fetchBlockRange_exact`).
-/

namespace Tenso.Ingest

open Transition

/-! ## The call -/

/-- The state of a call of `fetch_block_range`: whether it still primes the pool, the pool, the slots dispatched and the
outcomes reported so far. -/
structure RangeFetch where
  priming : Bool
  pool : Pool
  dispatched : List UInt64
  reported : List FetchOutcome

/-- One step of the call. -/
inductive RangeFetch.Step (rpc : Rpc) (maxConcurrency : ℕ) : RangeFetch → RangeFetch → Prop
  /-- the priming loop puts the next slot in flight -/
  | prime {f : RangeFetch} {slot : UInt64} {rest : List UInt64} (hpriming : f.priming = true)
      (hroom : f.pool.inFlight.length < maxConcurrency) (hslots : f.pool.slots = slot :: rest) :
      Step rpc maxConcurrency f { f with pool := f.pool.refill, dispatched := f.dispatched ++ [slot] }
  /-- the priming loop ends -/
  | primed {f : RangeFetch} (hpriming : f.priming = true)
      (hend : maxConcurrency ≤ f.pool.inFlight.length ∨ f.pool.slots = []) :
      Step rpc maxConcurrency f { f with priming := false }
  /-- the call waits: a task goes on, an outcome is reported, or no task is left -/
  | wait {f : RangeFetch} {pool : Pool} (hpriming : f.priming = false) (hphase : f.pool.phase = .polling)
      (hs : Pool.Step rpc f.pool pool) :
      Step rpc maxConcurrency f { f with pool, reported := f.reported ++ pool.phase.hand }
  /-- the callback returns: the next slot is put in flight -/
  | refill {f : RangeFetch} {pool : Pool} {outcome : FetchOutcome} (hpriming : f.priming = false)
      (hphase : f.pool.phase = .handingOn outcome) (hs : Pool.Step rpc f.pool pool) :
      Step rpc maxConcurrency f { f with pool, dispatched := f.dispatched ++ f.pool.slots.head?.toList }

/-- A call of `fetch_block_range` from its start. -/
def rangeFetch (rpc : Rpc) (limiter : TokenBucket) (slots : List UInt64) (maxConcurrency : ℕ) : System RangeFetch :=
  { init := fun f => f = ⟨true, .start limiter slots 0, [], []⟩, step := RangeFetch.Step rpc maxConcurrency }

/-- The call waits for a task. -/
def RangeFetch.Waiting (f : RangeFetch) : Prop := f.priming = false ∧ f.pool.phase = .polling

/-- The call is over. -/
def RangeFetch.Finished (f : RangeFetch) : Prop := f.priming = false ∧ f.pool.phase = .finished

/-- The pool is exact and bounded: each slot of the range is in one place, slots are dispatched in increasing order, no
more tasks are in flight than there are workers, and at each wait as many if slots are left. -/
structure RangeFetch.Exact (startSlot count : UInt64) (maxConcurrency : ℕ) (f : RangeFetch) : Prop where
  once : ((f.reported.map (·.slot) ++ f.pool.inFlight.map (·.slot) ++ f.pool.slots).map (·.toNat)).Perm
    (List.range' startSlot.toNat count.toNat)
  ordered : (f.dispatched ++ f.pool.slots).map (·.toNat) = List.range' startSlot.toNat count.toNat
  bounded : f.pool.inFlight.length ≤ maxConcurrency
  full : f.Waiting → f.pool.slots ≠ [] → f.pool.inFlight.length = maxConcurrency

/-- The fetches in flight complete: their outcomes are taken out of the pool some time. -/
def FetchesComplete (run : ℕ → RangeFetch) : Prop :=
  ∀ i, ∀ t ∈ (run i).pool.inFlight, ∃ j, i ≤ j ∧ t.slot ∉ (run j).pool.inFlight.map (·.slot)

/-! ## Steps of the pool -/

/-- What the pool does while it waits: a task in flight goes on, a finished one is taken, or none is left. -/
theorem Pool.Step.polling {rpc : Rpc} {s s' : Pool} (hs : Pool.Step rpc s s') (hphase : s.phase = .polling) :
    (s'.phase = .polling ∧ s'.slots = s.slots ∧ s.inFlight ≠ [] ∧
      s'.inFlight.map (·.slot) = s.inFlight.map (·.slot)) ∨
    (∃ pre post slot outcome, s.inFlight = pre ++ ⟨slot, .done outcome⟩ :: post ∧
      s' = { s with phase := .handingOn outcome, inFlight := pre ++ post }) ∨
    (s.inFlight = [] ∧ s' = { s with phase := .finished }) := by
  cases hs with
  | denied _ htask => exact .inl ⟨hphase, rfl, by simp [htask], rfl⟩
  | granted _ htask => exact .inl ⟨hphase, rfl, by simp [htask], by simp [htask]⟩
  | answer _ htask => exact .inl ⟨hphase, rfl, by simp [htask], by simp [htask]⟩
  | retry _ htask => exact .inl ⟨hphase, rfl, by simp [htask], by simp [htask]⟩
  | next _ htask => exact .inr (.inl ⟨_, _, _, _, htask, rfl⟩)
  | handedOn hhanding =>
    rw [hphase] at hhanding
    cases hhanding
  | finish _ hnone => exact .inr (.inr ⟨hnone, rfl⟩)

/-- What the pool does when the callback returns. -/
theorem Pool.Step.handing {rpc : Rpc} {s s' : Pool} {outcome : FetchOutcome} (hs : Pool.Step rpc s s')
    (hphase : s.phase = .handingOn outcome) : s' = Pool.refill { s with phase := .polling } := by
  cases hs with
  | handedOn => rfl
  | denied h | granted h | answer h | retry h | next h | finish h =>
    rw [hphase] at h
    cases h

theorem Pool.Step.not_finished {rpc : Rpc} {s s' : Pool} (hs : Pool.Step rpc s s') : s.phase ≠ .finished := by
  intro hfinished
  cases hs with
  | denied h | granted h | answer h | retry h | next h | handedOn h | finish h =>
    rw [hfinished] at h
    cases h

/-- A pool that is not over takes a step. -/
theorem Pool.exists_step (rpc : Rpc) {s : Pool} (h : s.phase ≠ .finished) : ∃ s', Pool.Step rpc s s' := by
  cases hphase : s.phase with
  | finished => exact absurd hphase h
  | handingOn outcome => exact ⟨_, .handedOn hphase⟩
  | polling =>
    cases htask : s.inFlight with
    | nil => exact ⟨_, .finish hphase htask⟩
    | cons t post =>
      obtain ⟨slot, phase⟩ := t
      have htask : s.inFlight = [] ++ ⟨slot, phase⟩ :: post := htask
      cases phase with
      | acquiring =>
        rcases hpoll : s.limiter.poll 0 with ⟨granted, limiter⟩
        cases granted with
        | false => exact ⟨_, .denied hphase htask le_rfl hpoll⟩
        | true => exact ⟨_, .granted hphase htask le_rfl hpoll⟩
      | awaiting attempt => exact ⟨_, .answer hphase htask⟩
      | sleeping attempt => exact ⟨_, .retry hphase htask⟩
      | done outcome => exact ⟨_, .next hphase htask⟩

/-- The tasks of the pool, the finished one in its hands included, are no more than the workers. -/
theorem Pool.bounded {rpc : Rpc} {limiter : TokenBucket} {slots : List UInt64} {maxConcurrency : ℕ} {s : Pool}
    (h : Reachable (fetchBlockRange rpc limiter slots maxConcurrency) s) :
    s.phase.hand.length + s.inFlight.length ≤ maxConcurrency := by
  refine h.invariant (I := fun s => s.phase.hand.length + s.inFlight.length ≤ maxConcurrency) ?_ ?_
  · rintro s rfl
    simp only [Pool.start, PoolPhase.hand, List.length_nil, List.length_map, List.length_take]
    omega
  · intro s s' hle hs
    cases hphase : s.phase with
    | polling =>
      rw [hphase] at hle
      simp only [PoolPhase.hand, List.length_nil] at hle
      rcases hs.polling hphase with ⟨hphase', _, _, hslots⟩ | ⟨pre, post, slot, outcome, htask, rfl⟩ | ⟨hnone, rfl⟩
      · have hlen := congrArg List.length hslots
        rw [List.length_map, List.length_map] at hlen
        rw [hphase', hlen]
        simpa [PoolPhase.hand] using hle
      · rw [htask] at hle
        simp only [PoolPhase.hand, List.length_append, List.length_cons, List.length_nil] at hle ⊢
        omega
      · simpa [PoolPhase.hand] using hle
    | handingOn outcome =>
      rw [hs.handing hphase, Pool.refill_eq]
      rw [hphase] at hle
      have hone : s.slots.head?.toList.length ≤ 1 := by cases s.slots <;> simp
      simp only [PoolPhase.hand, List.length_append, List.length_map, List.length_cons, List.length_nil] at hle ⊢
      omega
    | finished => exact absurd hphase hs.not_finished

/-- The pool serves the slots in every reachable state. -/
theorem Pool.exists_serves {answers : UInt64 → ℕ → Except RpcError (Option ℤ × List DecodedTransaction)}
    {limiter : TokenBucket} {slots : List UInt64} {maxConcurrency : ℕ} {s : Pool}
    (h : Reachable (fetchBlockRange (getBlock answers) limiter slots maxConcurrency) s) :
    ∃ handed, s.Serves slots maxConcurrency handed := by
  refine h.invariant (I := fun s => ∃ handed, s.Serves slots maxConcurrency handed) ?_ ?_
  · rintro s rfl
    exact ⟨[], serves_start limiter slots maxConcurrency⟩
  · rintro s s' ⟨handed, hserves⟩ hs
    cases hphase : s.phase with
    | polling => exact ⟨handed, hserves.step hs (by rw [hphase]; rfl)⟩
    | handingOn outcome =>
      rw [hs.handing hphase]
      exact ⟨_, hserves.handOn hphase⟩
    | finished => exact absurd hphase hs.not_finished

/-! ## The call and its pool -/

section Call

variable {rpc : Rpc} {limiter : TokenBucket} {slots : List UInt64} {maxConcurrency : ℕ}

/-- Priming puts the slots in flight one by one. -/
theorem Pool.refill_start {k : ℕ} {slot : UInt64} {rest : List UInt64}
    (h : (Pool.start limiter slots k).slots = slot :: rest) :
    (Pool.start limiter slots k).refill = Pool.start limiter slots (k + 1) := by
  have hdrop : slots.drop k = slot :: rest := h
  have hget : slots[k]? = some slot := by
    rw [← List.head?_drop, hdrop]
    rfl
  have htail : slots.drop (k + 1) = rest := by
    rw [← List.tail_drop, hdrop]
    rfl
  simp [Pool.refill_eq, Pool.start, hdrop, htail, List.take_add_one, hget]

/-- The call while it primes the pool, and afterwards. -/
inductive RangeFetch.Follows (rpc : Rpc) (limiter : TokenBucket) (slots : List UInt64) (maxConcurrency : ℕ)
    (f : RangeFetch) : Prop
  | priming {k : ℕ} (hpriming : f.priming = true) (hk : k ≤ maxConcurrency) (hkslots : k ≤ slots.length)
      (hpool : f.pool = .start limiter slots k)
  | primed (hpriming : f.priming = false) (h : Reachable (fetchBlockRange rpc limiter slots maxConcurrency) f.pool)

/-- The primed call is the pool of `fetchBlockRange`. -/
theorem RangeFetch.follows {f : RangeFetch} (h : Reachable (rangeFetch rpc limiter slots maxConcurrency) f) :
    f.Follows rpc limiter slots maxConcurrency := by
  refine h.invariant (I := fun f => f.Follows rpc limiter slots maxConcurrency) ?_ ?_
  · rintro f rfl
    exact .priming rfl (Nat.zero_le _) (Nat.zero_le _) rfl
  · intro f f' hf hs
    cases hs with
    | @prime slot rest hpriming hroom hslots =>
      cases hf with
      | primed h => simp [hpriming] at h
      | @priming k _ hk hkslots hpool =>
        rw [hpool] at hroom hslots
        have hlt : k < slots.length := by
          by_contra hle
          have : slots.drop k = [] := List.drop_eq_nil_iff.2 (Nat.le_of_not_lt hle)
          rw [Pool.start, this] at hslots
          cases hslots
        simp only [Pool.start, List.length_map, List.length_take] at hroom
        exact .priming (k := k + 1) hpriming (by omega) hlt (by rw [hpool]; exact Pool.refill_start hslots)
    | primed hpriming hend =>
      cases hf with
      | primed h => simp [hpriming] at h
      | @priming k _ hk hkslots hpool =>
        refine .primed rfl ?_
        -- a pool that is full, or out of slots, is the one that `fetchBlockRange` starts with
        have hstart : Pool.start limiter slots k = Pool.start limiter slots maxConcurrency := by
          rw [hpool] at hend
          simp only [Pool.start, List.length_map, List.length_take, List.drop_eq_nil_iff] at hend
          rcases Nat.lt_or_ge k maxConcurrency with hlt | hge
          · have hlen : slots.length ≤ k := by omega
            simp [Pool.start, List.drop_eq_nil_iff.2 hlen, List.drop_eq_nil_iff.2 (hlen.trans hk),
              List.take_of_length_le hlen, List.take_of_length_le (hlen.trans hk)]
          · rw [le_antisymm hk hge]
        exact .init (hpool.trans hstart)
    | wait hpriming hphase hs =>
      cases hf with
      | priming h => simp [hpriming] at h
      | primed _ h => exact .primed hpriming (h.step hs)
    | refill hpriming hphase hs =>
      cases hf with
      | priming h => simp [hpriming] at h
      | primed _ h => exact .primed hpriming (h.step hs)

/-- The pool of a primed call. -/
theorem RangeFetch.primed_pool {f : RangeFetch} (h : Reachable (rangeFetch rpc limiter slots maxConcurrency) f)
    (hpriming : f.priming = false) : Reachable (fetchBlockRange rpc limiter slots maxConcurrency) f.pool := by
  cases RangeFetch.follows h with
  | priming h => simp [hpriming] at h
  | primed _ h => exact h

/-- The tasks in flight leave room for the next one when the priming loop goes on or the callback returns. -/
theorem RangeFetch.hand_le {f : RangeFetch} (h : Reachable (rangeFetch rpc limiter slots maxConcurrency) f) :
    f.pool.phase.hand.length + f.pool.inFlight.length ≤ maxConcurrency := by
  cases RangeFetch.follows h with
  | @priming k _ hk _ hpool =>
    rw [hpool]
    simp only [Pool.start, PoolPhase.hand, List.length_nil, List.length_map, List.length_take]
    omega
  | primed _ h => exact Pool.bounded h

end Call

/-! ## The call is a worker pool over the slots -/

/-- The slots of the call, as a worker pool sees them. -/
def RangeFetch.tracks (f : RangeFetch) : WorkPool.State UInt64 :=
  { waiting := f.pool.slots, inFlight := f.pool.inFlight.map (·.slot), dispatched := f.dispatched
    reported := f.reported.map (·.slot) }

/-- The steps of the loop that are left in a phase of the pool. -/
def PoolPhase.left : PoolPhase → ℕ
  | .handingOn _ => 2
  | .polling => 1
  | .finished => 0

/-- The steps of the call that are left, those of the tasks apart: each slot is dispatched and reported, and with each
report the callback returns. -/
def RangeFetch.remaining (f : RangeFetch) : ℕ :=
  2 * f.tracks.remaining + f.pool.phase.left + f.priming.toNat

/-- A step of the worker pool brings the end nearer. -/
theorem RangeFetch.remaining_lt {n : ℕ} {f f' : RangeFetch} (hs : WorkPool.State.Step n f.tracks f'.tracks)
    (hphase : f'.pool.phase.left ≤ f.pool.phase.left + 1) (hpriming : f'.priming = f.priming) :
    f'.remaining < f.remaining := by
  have := hs.remaining
  unfold RangeFetch.remaining
  rw [hpriming]
  omega

/-- So does a step of the loop. -/
theorem RangeFetch.remaining_lt_of_phase {f f' : RangeFetch} (htracks : f'.tracks = f.tracks)
    (hphase : f'.pool.phase.left < f.pool.phase.left) (hpriming : f'.priming = f.priming) :
    f'.remaining < f.remaining := by
  unfold RangeFetch.remaining
  rw [htracks, hpriming]
  omega

/-- What a step of the call is to the worker pool: a task in flight goes on, or the loop does on its way to the end,
or the worker pool takes a step. -/
inductive RangeFetch.Progress (n : ℕ) (f f' : RangeFetch) : Prop
  | task (htracks : f'.tracks = f.tracks) (hbusy : f.pool.inFlight ≠ []) (hremaining : f'.remaining = f.remaining)
  | loop (htracks : f'.tracks = f.tracks) (hremaining : f'.remaining < f.remaining)
  | step (hstep : WorkPool.State.Step n f.tracks f'.tracks) (hremaining : f'.remaining < f.remaining)

/-- The next slot is put in flight. -/
theorem RangeFetch.progress_dispatch {n : ℕ} {f : RangeFetch} {pool : Pool} {slot : UInt64} {rest : List UInt64}
    (hroom : f.pool.inFlight.length < n) (hslots : f.pool.slots = slot :: rest)
    (hpool : pool = { f.pool.refill with phase := pool.phase }) (hphase : pool.phase.left ≤ f.pool.phase.left) :
    f.Progress n { f with pool, dispatched := f.dispatched ++ [slot] } := by
  have hstep := @WorkPool.State.Step.dispatch _ n f.tracks slot rest (by simpa [tracks] using hroom) hslots
  have htracks : RangeFetch.tracks { f with pool, dispatched := f.dispatched ++ [slot] } =
      { f.tracks with waiting := rest, inFlight := f.tracks.inFlight ++ [slot],
                      dispatched := f.tracks.dispatched ++ [slot] } := by
    rw [hpool]
    simp [tracks, Pool.refill_eq, hslots, fetchOne]
  rw [← htracks] at hstep
  exact .step hstep (RangeFetch.remaining_lt hstep (Nat.le_succ_of_le hphase) rfl)

section Tracks

variable {answers : UInt64 → ℕ → Except RpcError (Option ℤ × List DecodedTransaction)} {limiter : TokenBucket}
  {slots : List UInt64} {maxConcurrency : ℕ} {f f' : RangeFetch}

/-- A task in flight ends with the outcome of its slot. -/
theorem RangeFetch.own (h : Reachable (rangeFetch (getBlock answers) limiter slots maxConcurrency) f)
    (hpriming : f.priming = false) : ∀ t ∈ f.pool.inFlight, t.OwnSlot := by
  obtain ⟨handed, hserves⟩ := Pool.exists_serves (RangeFetch.primed_pool h hpriming)
  exact hserves.own

/-- The call waits for a task. -/
theorem RangeFetch.progress_wait {n : ℕ} {pool : Pool} (hown : ∀ t ∈ f.pool.inFlight, t.OwnSlot)
    (hphase : f.pool.phase = .polling) (hs : Pool.Step (getBlock answers) f.pool pool) :
    f.Progress n { f with pool, reported := f.reported ++ pool.phase.hand } := by
  rcases hs.polling hphase with
    ⟨hphase', hslots, hne, hinFlight⟩ | ⟨pre, post, slot, outcome, htask, rfl⟩ | ⟨hnone, rfl⟩
  · have htracks : RangeFetch.tracks { f with pool, reported := f.reported ++ pool.phase.hand } = f.tracks := by
      simp [tracks, hphase', hslots, hinFlight, PoolPhase.hand]
    refine .task htracks hne ?_
    unfold RangeFetch.remaining
    rw [htracks, hphase, hphase']
  · have hslot : outcome.slot = slot := hown ⟨slot, .done outcome⟩ (by simp [htask]) outcome rfl
    have hbusy : f.tracks.inFlight = pre.map (·.slot) ++ slot :: post.map (·.slot) := by simp [tracks, htask]
    have hstep := @WorkPool.State.Step.report _ n _ _ _ _ hbusy
    have htracks : RangeFetch.tracks { f with
        pool := { f.pool with phase := .handingOn outcome, inFlight := pre ++ post }
        reported := f.reported ++ [outcome] } =
        { f.tracks with
          inFlight := pre.map (·.slot) ++ post.map (·.slot)
          reported := f.tracks.reported ++ [slot] } := by
      simp [tracks, hslot]
    rw [← htracks] at hstep
    refine .step hstep (RangeFetch.remaining_lt hstep ?_ rfl)
    rw [hphase]
    exact le_rfl
  · refine .loop (by simp [tracks, PoolPhase.hand]) (RangeFetch.remaining_lt_of_phase ?_ ?_ rfl)
    · simp [tracks, PoolPhase.hand]
    · rw [hphase]
      exact Nat.zero_lt_one

/-- A step of the call, as the worker pool sees it. -/
theorem RangeFetch.progress (h : Reachable (rangeFetch (getBlock answers) limiter slots maxConcurrency) f)
    (hs : RangeFetch.Step (getBlock answers) maxConcurrency f f') : f.Progress maxConcurrency f' := by
  have hle := RangeFetch.hand_le h
  cases hs with
  | prime hpriming hroom hslots =>
    have hphase : f.pool.refill.phase = f.pool.phase := by rw [Pool.refill_eq]
    exact RangeFetch.progress_dispatch hroom hslots rfl (by rw [hphase])
  | primed hpriming hend =>
    refine .loop rfl ?_
    simp [RangeFetch.remaining, hpriming, RangeFetch.tracks]
  | wait hpriming hphase hs => exact RangeFetch.progress_wait (RangeFetch.own h hpriming) hphase hs
  | @refill pool outcome hpriming hphase hs =>
    have hpool := hs.handing hphase
    have hphase' : pool.phase = .polling := by rw [hpool, Pool.refill_eq]
    cases hslots : f.pool.slots with
    | nil =>
      have htracks : RangeFetch.tracks { f with pool, dispatched := f.dispatched ++ [] } = f.tracks := by
        simp [tracks, hpool, Pool.refill_eq, hslots]
      refine .loop htracks (RangeFetch.remaining_lt_of_phase htracks ?_ rfl)
      rw [hphase, hphase']
      exact Nat.one_lt_two
    | cons slot rest =>
      rw [hphase] at hle
      simp only [PoolPhase.hand, List.length_cons, List.length_nil] at hle
      refine RangeFetch.progress_dispatch (by omega) hslots ?_ ?_
      · rw [hphase', hpool, Pool.refill_eq, Pool.refill_eq]
      · rw [hphase, hphase']
        show 1 ≤ 2
        omega

/-- The call is a bounded worker pool over its slots. -/
theorem RangeFetch.tracks_reachable (h : Reachable (rangeFetch (getBlock answers) limiter slots maxConcurrency) f) :
    Reachable (WorkPool.system maxConcurrency slots) f.tracks := by
  refine h.map (T := WorkPool.system maxConcurrency slots) ?_ ?_
  · rintro f rfl
    rfl
  · intro f f' hf hs
    cases RangeFetch.progress hf hs with
    | task htracks => exact .inr htracks
    | loop htracks => exact .inr htracks
    | step hstep => exact .inl hstep

/-- A pool that waits is full while slots are left. -/
theorem RangeFetch.full (h : Reachable (rangeFetch (getBlock answers) limiter slots maxConcurrency) f)
    (hwaiting : f.Waiting) (hslots : f.pool.slots ≠ []) : f.pool.inFlight.length = maxConcurrency := by
  obtain ⟨hpriming, hphase⟩ := hwaiting
  obtain ⟨handed, hserves⟩ := Pool.exists_serves (RangeFetch.primed_pool h hpriming)
  have hle := RangeFetch.hand_le h
  have hge := hserves.full hslots
  rw [hphase] at hle hge
  simp only [PoolPhase.hand, List.length_nil] at hle hge
  omega

/-- A call with a worker that is over has reported all slots. -/
theorem RangeFetch.complete (h : Reachable (rangeFetch (getBlock answers) limiter slots maxConcurrency) f)
    (hworker : 1 ≤ maxConcurrency) (hfinished : f.Finished) : (f.reported.map (·.slot)).Perm slots := by
  obtain ⟨hpriming, hphase⟩ := hfinished
  obtain ⟨handed, hserves⟩ := Pool.exists_serves (RangeFetch.primed_pool h hpriming)
  have hexact := WorkPool.exact_of_reachable (RangeFetch.tracks_reachable h)
  have hnone := hserves.finished hphase
  have hempty : f.pool.slots = [] := by
    by_contra hne
    have := hserves.full hne
    rw [hphase, hnone] at this
    simp only [PoolPhase.hand, List.length_nil] at this
    omega
  exact hexact.complete hempty (by simp [tracks, hnone])

/-- A call that is not over takes a step. -/
theorem RangeFetch.exists_step (rpc : Rpc) (maxConcurrency : ℕ) (h : ¬f.Finished) :
    ∃ f', RangeFetch.Step rpc maxConcurrency f f' := by
  cases hpriming : f.priming with
  | true =>
    by_cases hend : maxConcurrency ≤ f.pool.inFlight.length ∨ f.pool.slots = []
    · exact ⟨_, .primed hpriming hend⟩
    · obtain ⟨hroom, hne⟩ := not_or.1 hend
      obtain ⟨slot, rest, hslots⟩ := List.exists_cons_of_ne_nil hne
      exact ⟨_, .prime hpriming (Nat.lt_of_not_le hroom) hslots⟩
  | false =>
    have hfinished : f.pool.phase ≠ .finished := fun hphase => h ⟨hpriming, hphase⟩
    obtain ⟨pool, hs⟩ := Pool.exists_step rpc hfinished
    cases hphase : f.pool.phase with
    | polling => exact ⟨_, .wait hpriming hphase hs⟩
    | handingOn outcome => exact ⟨_, .refill hpriming hphase hs⟩
    | finished => exact absurd hphase hfinished

/-- A run in which the fetches complete ends. -/
theorem RangeFetch.ends {run : ℕ → RangeFetch}
    (h : Run (rangeFetch (getBlock answers) limiter slots maxConcurrency) run) (hcomplete : FetchesComplete run) :
    ∃ i, (run i).Finished := by
  obtain ⟨N, hN⟩ := h.eventually_constant (m := RangeFetch.remaining) fun f f' hf hs => by
    cases RangeFetch.progress hf hs with
    | task _ _ heq => exact heq.le
    | loop _ hlt => exact hlt.le
    | step _ hlt => exact hlt.le
  by_contra hnever
  have hsteps : ∀ i, N ≤ i → (run (i + 1)).tracks = (run i).tracks ∧ (run i).pool.inFlight ≠ [] := by
    intro i hi
    rcases h.next i with hs | ⟨hstuck, _⟩
    · have hsame : (run (i + 1)).remaining = (run i).remaining := (hN _ (by omega)).trans (hN i hi).symm
      cases RangeFetch.progress (h.reachable i) hs with
      | task htracks hne => exact ⟨htracks, hne⟩
      | loop _ hlt => omega
      | step _ hlt => omega
    · obtain ⟨f', hs⟩ := RangeFetch.exists_step (getBlock answers) maxConcurrency fun hf => hnever ⟨i, hf⟩
      exact absurd hs (hstuck f')
  have htracks : ∀ d, (run (N + d)).tracks = (run N).tracks := by
    intro d
    induction d with
    | zero => rfl
    | succ d ih => exact (hsteps (N + d) (Nat.le_add_right N d)).1.trans ih
  -- a task in flight at that time stays there for ever
  obtain ⟨t, ht⟩ := List.exists_mem_of_ne_nil _ (hsteps N le_rfl).2
  obtain ⟨j, hj, hgone⟩ := hcomplete N t ht
  obtain ⟨d, rfl⟩ := Nat.exists_eq_add_of_le hj
  have hsame : (run (N + d)).pool.inFlight.map (·.slot) = (run N).pool.inFlight.map (·.slot) :=
    congrArg WorkPool.State.inFlight (htracks d)
  rw [hsame] at hgone
  exact hgone (List.mem_map_of_mem ht)

end Tracks

/-! ## The range -/

/-- The slots of the range, in increasing order. -/
theorem slotRange_eq_range' {startSlot count : UInt64} (h : startSlot.toNat + count.toNat < 2 ^ 64) :
    (slotRange startSlot count).map (·.toNat) = List.range' startSlot.toNat count.toNat := by
  rw [slotRange_toNat h, List.range'_eq_map_range]

/-- **The worker pool is exact and bounded** in every reachable state, and a call with a worker in which the fetches
complete ends with one outcome for each slot of the range. -/
theorem fetchBlockRange_exact {startSlot count : UInt64} (hfits : startSlot.toNat + count.toNat < 2 ^ 64)
    (answers : UInt64 → ℕ → Except RpcError (Option ℤ × List DecodedTransaction)) (limiter : TokenBucket)
    (maxConcurrency : ℕ) :
    let call := rangeFetch (getBlock answers) limiter (slotRange startSlot count) maxConcurrency
    (∀ f, Reachable call f → f.Exact startSlot count maxConcurrency) ∧
    (1 ≤ maxConcurrency →
      (∀ f, Reachable call f → f.Finished → f.reported.length = count.toNat ∧
        (f.reported.map (·.slot.toNat)).Perm (List.range' startSlot.toNat count.toNat)) ∧
      (∀ f, Reachable call f → f.Finished ∨ ∃ f', call.step f f') ∧
      ∀ run, Run call run → FetchesComplete run → ∃ i, (run i).Finished) := by
  intro call
  refine ⟨fun f hf => ?_, fun hworker => ⟨fun f hf hfinished => ?_, fun f _ => ?_, fun run => RangeFetch.ends⟩⟩
  · have hexact := WorkPool.exact_of_reachable (RangeFetch.tracks_reachable hf)
    refine ⟨?_, ?_, by simpa [RangeFetch.tracks] using hexact.bounded, RangeFetch.full hf⟩
    · rw [← slotRange_eq_range' hfits]
      exact hexact.once.map _
    · rw [← slotRange_eq_range' hfits]
      exact congrArg (List.map (·.toNat)) hexact.ordered
  · have hperm := (RangeFetch.complete hf hworker hfinished).map (·.toNat)
    rw [slotRange_eq_range' hfits, List.map_map] at hperm
    have hlength := hperm.length_eq
    rw [List.length_map, List.length_range'] at hlength
    exact ⟨hlength, hperm⟩
  · rcases Classical.em f.Finished with hfinished | hfinished
    · exact .inl hfinished
    · exact .inr (RangeFetch.exists_step _ _ hfinished)

/-- A call that is over takes no step. -/
theorem RangeFetch.Finished.not_step {rpc : Rpc} {maxConcurrency : ℕ} {f f' : RangeFetch} (h : f.Finished) :
    ¬RangeFetch.Step rpc maxConcurrency f f' := by
  intro hs
  cases hs with
  | prime hpriming | primed hpriming =>
    rw [h.1] at hpriming
    cases hpriming
  | wait _ hphase | refill _ hphase =>
    rw [h.2] at hphase
    cases hphase

/-- Two workers and two slots, of which the server has no block; the second slot is done first. -/
theorem exists_twoSkipped : ∃ f, Reachable
    (rangeFetch (getBlock fun _ _ => .error .slotSkipped) (.new 10 10) (slotRange 5 2) 2) f ∧
    f.Finished ∧ f.pool.inFlight = [] := by
  have hstart : Reachable (rangeFetch (getBlock fun _ _ => .error .slotSkipped) (.new 10 10) (slotRange 5 2) 2)
    ⟨true, .start (.new 10 10) (slotRange 5 2) 0, [], []⟩ := .init rfl
  have hslots : slotRange 5 2 = [5, 6] := by decide
  rw [hslots] at hstart
  have hprimed := ((hstart.step (.prime rfl (by decide) rfl)).step (.prime rfl (by decide) rfl)).step
    (.primed rfl (.inl le_rfl))
  -- slot 6 goes first
  have hgranted := hprimed.step (.wait rfl rfl (@Pool.Step.granted _ _ [fetchOne 5] _ _ _ _ rfl rfl le_rfl
    (poll_zero (by decide +kernel) le_rfl)))
  have hanswered := hgranted.step (.wait rfl rfl (@Pool.Step.answer _ _ [fetchOne 5] _ _ _ rfl rfl))
  have hsix := hanswered.step (.wait rfl rfl (@Pool.Step.next _ _ [fetchOne 5] _ _ _ rfl rfl))
  have hwaiting := hsix.step (.refill rfl rfl (.handedOn rfl))
  -- and slot 5 after it
  have hgranted := hwaiting.step (.wait rfl rfl (@Pool.Step.granted _ _ [] _ _ _ _ rfl rfl le_rfl
    (poll_zero (by decide +kernel) (by decide +kernel))))
  have hanswered := hgranted.step (.wait rfl rfl (@Pool.Step.answer _ _ [] _ _ _ rfl rfl))
  have hfive := hanswered.step (.wait rfl rfl (@Pool.Step.next _ _ [] _ _ _ rfl rfl))
  have hempty := hfive.step (.refill rfl rfl (.handedOn rfl))
  exact ⟨_, hempty.step (.wait rfl rfl (.finish rfl rfl)), ⟨rfl, rfl⟩, rfl⟩

/-- In the run of this call both slots are reported. -/
theorem fetchBlockRange_exact_example :
    let call := rangeFetch (getBlock fun _ _ => .error .slotSkipped) (.new 10 10) (slotRange 5 2) 2
    (∀ f, Reachable call f → f.Exact 5 2 2) ∧
    ∃ run, Run call run ∧ FetchesComplete run ∧ ∃ i, (run i).Finished ∧ (run i).reported.length = 2 := by
  intro call
  obtain ⟨hexact, hends⟩ :=
    @fetchBlockRange_exact 5 2 (by decide) (fun _ _ => .error .slotSkipped) (.new 10 10) 2
  obtain ⟨hreported, _, hrun⟩ := hends (by decide)
  obtain ⟨f, hf, hfinished, hnone⟩ := exists_twoSkipped
  obtain ⟨run, n, h, htail⟩ :=
    @Reachable.exists_run _ _ f hf (fun _ => f) rfl fun _ => Or.inr ⟨fun _ => hfinished.not_step, rfl⟩
  have hcomplete : FetchesComplete run := by
    intro i t _
    refine ⟨n + i, Nat.le_add_left i n, ?_⟩
    rw [htail, hnone]
    exact List.not_mem_nil
  obtain ⟨i, hi⟩ := hrun run h hcomplete
  exact ⟨hexact, run, h, hcomplete, i, hi, (hreported _ (h.reachable i) hi).1⟩

end Tenso.Ingest
