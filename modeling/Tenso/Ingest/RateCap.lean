import Mathlib.Algebra.Order.Field.Rat
import Mathlib.Algebra.Order.Group.Unbundled.Abs
import Mathlib.Tactic.FieldSimp
import Mathlib.Tactic.Linarith
import Tenso.Ingest.Fetch

/-!
# The rate cap and retries

A task acquires one token and sends its retries without another one. So the requests stay below the tokens in every
state of every run exactly when no request is ever retried: no task runs, the bucket never holds a token, or no first
answer is a transient error (`requests_le_acquired_iff`). One slot with one transient error breaks the cap
(`retry_breaks_cap`).
-/

namespace Tenso.Ingest

open Transition

/-- The first request of the slot is answered with a transient error. -/
def FirstTransient (rpc : Rpc) (slot : UInt64) : Prop := ∃ e, rpc slot 0 = .error e ∧ isTransient e = true

/-- The requests never outnumber the tokens, in any state of any run. -/
def CapHolds (rpc : Rpc) (limiter : TokenBucket) (slots : List UInt64) (maxConcurrency : ℕ) : Prop :=
  ∀ s, Reachable (fetchBlockRange rpc limiter slots maxConcurrency) s → s.requests ≤ s.acquired

/-! ## Runs without retries -/

/-- A task that has sent at most one request, of a slot whose first answer is final. -/
structure OneShot (rpc : Rpc) (t : FetchTask) : Prop where
  final : ¬FirstTransient rpc t.slot
  phase : t.phase = .acquiring ∨ t.phase = .awaiting 0 ∨ ∃ outcome, t.phase = .done outcome

/-- The pool sends one request a token. -/
structure Pool.OneRequest (rpc : Rpc) (s : Pool) : Prop where
  requests : s.requests = s.acquired
  slots : ∀ slot ∈ s.slots, ¬FirstTransient rpc slot
  tasks : ∀ t ∈ s.inFlight, OneShot rpc t

/-- A final first answer ends the task. -/
theorem answered_done {rpc : Rpc} {slot : UInt64} (h : ¬FirstTransient rpc slot) :
    answered slot 0 (rpc slot 0) = .done (outcomeOf slot (rpc slot 0)) := by
  unfold answered
  cases hr : rpc slot 0 with
  | ok block => rfl
  | error e =>
    have : isTransient e = false := by
      by_contra hne
      exact h ⟨e, hr, by simpa using hne⟩
    simp [this]

/-- A transient first answer puts the task to sleep. -/
theorem answered_sleeping {rpc : Rpc} {slot : UInt64} (h : FirstTransient rpc slot) :
    answered slot 0 (rpc slot 0) = .sleeping 0 := by
  obtain ⟨e, hr, ht⟩ := h
  rw [hr, answered]
  simp [ht, maxRetries]

/-- A step keeps one request a token. -/
theorem Pool.OneRequest.step {rpc : Rpc} {s s' : Pool} (h : s.OneRequest rpc) (hs : Pool.Step rpc s s') :
    s'.OneRequest rpc := by
  obtain ⟨hreq, hslots, htasks⟩ := h
  cases hs with
  | denied => exact ⟨hreq, hslots, htasks⟩
  | granted hphase htask =>
    rw [htask] at htasks
    have ht := (List.forall_mem_cons.1 (List.forall_mem_append.1 htasks).2).1
    exact ⟨congrArg (· + 1) hreq, hslots, forall_replace htasks ⟨ht.final, Or.inr (Or.inl rfl)⟩⟩
  | answer hphase htask =>
    rw [htask] at htasks
    have ht := (List.forall_mem_cons.1 (List.forall_mem_append.1 htasks).2).1
    rcases ht.phase with h | h | ⟨_, h⟩
    · cases h
    · cases h
      exact ⟨hreq, hslots, forall_replace htasks ⟨ht.final, Or.inr (Or.inr ⟨_, answered_done ht.final⟩)⟩⟩
    · cases h
  | retry hphase htask =>
    rw [htask] at htasks
    have ht := (List.forall_mem_cons.1 (List.forall_mem_append.1 htasks).2).1
    rcases ht.phase with h | h | ⟨_, h⟩ <;> cases h
  | next hphase htask =>
    rw [htask] at htasks
    refine ⟨hreq, hslots, ?_⟩
    simp only [List.forall_mem_append, List.forall_mem_cons] at htasks ⊢
    exact ⟨htasks.1, htasks.2.2⟩
  | handedOn hphase =>
    unfold Pool.refill
    split
    · exact ⟨hreq, hslots, htasks⟩
    · rename_i slot rest heq
      have heq' : s.slots = slot :: rest := heq
      rw [heq', List.forall_mem_cons] at hslots
      refine ⟨hreq, hslots.2, ?_⟩
      rw [List.forall_mem_append, List.forall_mem_singleton]
      exact ⟨htasks, hslots.1, Or.inl rfl⟩
  | finish => exact ⟨hreq, hslots, htasks⟩

/-- The cap holds when no first answer is transient. -/
theorem capHolds_of_final {rpc : Rpc} {limiter : TokenBucket} {slots : List UInt64} {maxConcurrency : ℕ}
    (h : ∀ slot ∈ slots, ¬FirstTransient rpc slot) : CapHolds rpc limiter slots maxConcurrency := by
  intro s hs
  have hinv : s.OneRequest rpc := by
    refine hs.invariant (fun s h0 => ?_) fun _ _ hi hst => hi.step hst
    rw [(h0 : s = _)]
    refine ⟨rfl, fun slot hm => h slot (List.mem_of_mem_drop hm), fun t ht => ?_⟩
    obtain ⟨slot, hm, rfl⟩ := List.mem_map.1 ht
    exact ⟨h slot (List.mem_of_mem_take hm), Or.inl rfl⟩
  exact Nat.le_of_eq hinv.requests

/-! ## Runs without a request -/

/-- The bucket cannot hold a token, or no task is in flight; no request has been sent. -/
structure Pool.Idle (s : Pool) : Prop where
  requests : s.requests = 0
  phase : ∀ outcome, s.phase ≠ .handingOn outcome
  tasks : ∀ t ∈ s.inFlight, t.phase = .acquiring ∧ s.limiter.capacity < 1

/-- An idle pool stays idle. -/
theorem Pool.Idle.step {rpc : Rpc} {s s' : Pool} (h : s.Idle) (hs : Pool.Step rpc s s') : s'.Idle := by
  obtain ⟨hreq, hphase', htasks⟩ := h
  have hmid {pre post : List FetchTask} {t : FetchTask} (htask : s.inFlight = pre ++ t :: post) :
      t.phase = .acquiring ∧ s.limiter.capacity < 1 := htasks t (by simp [htask])
  cases hs with
  | denied hphase htask htime hpoll =>
    refine ⟨hreq, hphase', fun t ht => ⟨(htasks t ht).1, ?_⟩⟩
    rw [(poll_capacity hpoll).1]
    exact (htasks t ht).2
  | granted hphase htask htime hpoll =>
    have := poll_of_capacity_lt (hmid htask).2
    rw [Prod.ext_iff] at hpoll
    rw [this] at hpoll
    cases hpoll.1
  | answer hphase htask => cases (hmid htask).1
  | retry hphase htask => cases (hmid htask).1
  | next hphase htask => cases (hmid htask).1
  | handedOn hphase => exact absurd hphase (hphase' _)
  | finish hphase hnone => exact ⟨hreq, nofun, htasks⟩

/-- The cap holds when nothing is ever sent. -/
theorem capHolds_of_idle {rpc : Rpc} {limiter : TokenBucket} {slots : List UInt64} {maxConcurrency : ℕ}
    (h : maxConcurrency = 0 ∨ limiter.capacity < 1) : CapHolds rpc limiter slots maxConcurrency := by
  intro s hs
  have hinv : s.Idle := by
    refine hs.invariant (fun s h0 => ?_) fun _ _ hi hst => hi.step hst
    rw [(h0 : s = _)]
    refine ⟨rfl, nofun, fun t ht => ?_⟩
    obtain ⟨slot, hm, rfl⟩ := List.mem_map.1 ht
    refine ⟨rfl, h.resolve_left fun h0 => ?_⟩
    rw [h0] at hm
    cases hm
  rw [hinv.requests]
  exact Nat.zero_le _

/-! ## Runs with a retry -/

/-- After a long enough wait a bucket that can hold a token grants one. -/
theorem exists_granted {b : TokenBucket} (hcap : 1 ≤ b.capacity) (hrate : 0 < b.refillPerSec) :
    ∃ elapsed b', 0 ≤ elapsed ∧ b.poll elapsed = (true, b') := by
  have hfull : b.capacity ≤ b.tokens + |b.capacity - b.tokens| / b.refillPerSec * b.refillPerSec := by
    rw [div_mul_cancel₀ _ hrate.ne']
    have := le_abs_self (b.capacity - b.tokens)
    linarith
  refine ⟨|b.capacity - b.tokens| / b.refillPerSec, { b with tokens := b.capacity - 1 },
    div_nonneg (abs_nonneg _) hrate.le, ?_⟩
  unfold TokenBucket.poll
  simp only [min_eq_right hfull, hcap, if_true]

section Served

variable {rpc : Rpc} {start : TokenBucket} {slots : List UInt64} {maxConcurrency : ℕ}

/-- The first task is granted its token, and its first request is answered. -/
theorem reachable_granted {slot : UInt64} {tasks : List FetchTask} {rest : List UInt64} {limiter : TokenBucket} {m : ℕ}
    (h : Reachable (fetchBlockRange rpc start slots maxConcurrency)
      ⟨.polling, rest, ⟨slot, .acquiring⟩ :: tasks, limiter, m, m⟩)
    (hcap : 1 ≤ limiter.capacity) (hrate : 0 < limiter.refillPerSec) :
    ∃ limiter', limiter'.capacity = limiter.capacity ∧ limiter'.refillPerSec = limiter.refillPerSec ∧
      Reachable (fetchBlockRange rpc start slots maxConcurrency)
        ⟨.polling, rest, ⟨slot, answered slot 0 (rpc slot 0)⟩ :: tasks, limiter', m + 1, m + 1⟩ := by
  obtain ⟨elapsed, limiter', htime, hpoll⟩ := exists_granted hcap hrate
  obtain ⟨hc, hr⟩ := poll_capacity hpoll
  refine ⟨limiter', hc, hr, ?_⟩
  have hgrant : Pool.Step rpc ⟨.polling, rest, ⟨slot, .acquiring⟩ :: tasks, limiter, m, m⟩
      ⟨.polling, rest, [] ++ ⟨slot, .awaiting 0⟩ :: tasks, limiter', m + 1, m + 1⟩ :=
    .granted rfl (List.nil_append _).symm htime hpoll
  have hanswer : Pool.Step rpc ⟨.polling, rest, ⟨slot, .awaiting 0⟩ :: tasks, limiter', m + 1, m + 1⟩
      ⟨.polling, rest, [] ++ ⟨slot, answered slot 0 (rpc slot 0)⟩ :: tasks, limiter', m + 1, m + 1⟩ :=
    .answer rfl (List.nil_append _).symm
  exact (h.step hgrant).step hanswer

/-- A run that serves the tasks one after the other reaches a retry, if some slot needs one. -/
theorem exists_over : ∀ (all waiting rest : List UInt64) (limiter : TokenBucket) (m : ℕ), waiting ++ rest = all →
    waiting ≠ [] → 1 ≤ limiter.capacity → 0 < limiter.refillPerSec → (∃ slot ∈ all, FirstTransient rpc slot) →
    Reachable (fetchBlockRange rpc start slots maxConcurrency)
      ⟨.polling, rest, waiting.map fetchOne, limiter, m, m⟩ →
    ∃ s, Reachable (fetchBlockRange rpc start slots maxConcurrency) s ∧ s.acquired < s.requests := by
  intro all
  induction all with
  | nil =>
    rintro waiting rest limiter m hall hne _ _ ⟨slot, hmem, _⟩ _
    cases hmem
  | cons slot all ih =>
    intro waiting rest limiter m hall hne hcap hrate htransient hreach
    cases waiting with
    | nil => exact absurd rfl hne
    | cons slot' waiting =>
      obtain ⟨hslot, hrest⟩ : slot' = slot ∧ waiting ++ rest = all := List.cons.inj hall
      subst hslot
      obtain ⟨limiter', hc, hr, hanswered⟩ := reachable_granted hreach hcap hrate
      by_cases hfirst : FirstTransient rpc slot'
      · -- the task sleeps and sends a second request with the same token
        rw [answered_sleeping hfirst] at hanswered
        exact ⟨_, hanswered.step (.retry rfl (List.nil_append _).symm), Nat.lt_succ_self (m + 1)⟩
      · -- the task ends, and the next slot takes its place
        rw [answered_done hfirst] at hanswered
        have hnext := hanswered.step (.next rfl (List.nil_append _).symm)
        have hrefilled := hnext.step (.handedOn rfl)
        simp only [Pool.refill_eq, List.nil_append, ← List.map_append, ← List.take_one, ← List.drop_one] at hrefilled
        have htransient' : ∃ slot ∈ all, FirstTransient rpc slot := by
          obtain ⟨x, hx, ht⟩ := htransient
          rcases List.mem_cons.1 hx with rfl | hx
          · exact absurd ht hfirst
          · exact ⟨x, hx, ht⟩
        refine ih (waiting ++ rest.take 1) (rest.drop 1) limiter' (m + 1) ?_ ?_ (hc ▸ hcap) (hr ▸ hrate) htransient'
          hrefilled
        · rw [List.append_assoc, List.take_append_drop, hrest]
        · intro hempty
          obtain ⟨x, hx, _⟩ := htransient'
          rw [List.append_eq_nil_iff] at hempty
          rw [← hrest, hempty.1, List.nil_append] at hx
          cases rest with
          | nil => cases hx
          | cons y rest => cases hempty.2

end Served

/-! ## The condition -/

/-- The cap fails when a task runs, tokens arrive, and some first answer is transient. -/
theorem not_capHolds {rpc : Rpc} {limiter : TokenBucket} {slots : List UInt64} {maxConcurrency : ℕ}
    (hcon : maxConcurrency ≠ 0) (hcap : 1 ≤ limiter.capacity) (hrate : 0 < limiter.refillPerSec)
    (h : ∃ slot ∈ slots, FirstTransient rpc slot) : ¬CapHolds rpc limiter slots maxConcurrency := by
  intro hholds
  have hne : slots.take maxConcurrency ≠ [] := by
    obtain ⟨slot, hmem, _⟩ := h
    intro hempty
    rcases List.take_eq_nil_iff.1 hempty with h0 | h0
    · exact hcon h0
    · rw [h0] at hmem
      cases hmem
  obtain ⟨s, hs, hlt⟩ := exists_over slots (slots.take maxConcurrency) (slots.drop maxConcurrency) limiter 0
    (List.take_append_drop _ _) hne hcap hrate h (.init rfl)
  exact absurd (hholds s hs) (Nat.not_le.2 hlt)

/-- **When the cap holds.** With any limiter, no first answer that is transient is enough. With a limiter of `rate`
tokens a second and as many at once, the requests stay below the tokens in every state of every run exactly when no
task runs, the bucket is too small for a token, or no first answer is a transient error. -/
theorem requests_le_acquired_iff (rpc : Rpc) (startSlot count : UInt64) (maxConcurrency : ℕ) :
    (∀ limiter, (∀ slot ∈ slotRange startSlot count, ¬FirstTransient rpc slot) →
      CapHolds rpc limiter (slotRange startSlot count) maxConcurrency) ∧
    ∀ rate, CapHolds rpc (.new rate rate) (slotRange startSlot count) maxConcurrency ↔
      maxConcurrency = 0 ∨ rate < 1 ∨ ∀ slot ∈ slotRange startSlot count, ¬FirstTransient rpc slot := by
  refine ⟨fun limiter h => capHolds_of_final h, fun rate => ⟨fun h => ?_, fun h => ?_⟩⟩
  · by_contra hno
    rw [not_or, not_or, not_lt] at hno
    obtain ⟨hcon, hrate, hfinal⟩ := hno
    simp only [not_forall, not_not] at hfinal
    obtain ⟨slot, hmem, ht⟩ := hfinal
    exact not_capHolds hcon hrate (lt_of_lt_of_le one_pos hrate) ⟨slot, hmem, ht⟩ h
  · rcases h with h | h | h
    · exact capHolds_of_idle (Or.inl h)
    · exact capHolds_of_idle (Or.inr h)
    · exact capHolds_of_final h

/-- A slot whose first answer is a network error, and whose second is that the slot was skipped. -/
def flakyRpc : Rpc := fun _ attempt => .error (if attempt = 0 then .transport "connection reset" else .slotSkipped)

/-- One slot, one token a second: after the network error the task sends its second request with one token. -/
theorem retry_breaks_cap :
    ∃ s, Reachable (fetchBlockRange flakyRpc (.new 1 1) (slotRange 7 1) 1) s ∧ s.acquired = 1 ∧ s.requests = 2 := by
  have hstart : Reachable (fetchBlockRange flakyRpc (.new 1 1) (slotRange 7 1) 1)
      ⟨.polling, [], [⟨7, .acquiring⟩], .new 1 1, 0, 0⟩ := .init rfl
  obtain ⟨limiter, _, _, hanswered⟩ := reachable_granted hstart le_rfl one_pos
  have hsleeping : answered 7 0 (flakyRpc 7 0) = .sleeping 0 := rfl
  rw [hsleeping] at hanswered
  exact ⟨_, hanswered.step (.retry rfl (List.nil_append _).symm), rfl, rfl⟩

end Tenso.Ingest
