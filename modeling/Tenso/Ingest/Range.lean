import Tenso.Ingest.Fetch

/-!
# Every slot of the range is served

In every state of the pool, the slots handed on so far and the outstanding ones (being handed on, in flight, or not yet
dispatched) are the slots of the range, each once (`Pool.Serves`). A pool with at least one worker that has finished has
handed on all of them (`Pool.Serves.complete`); without a worker it hands on none.

The range itself is computed in `u64`: it has `count` slots as long as its end fits, and none if its end wraps
(`slotRange_wraps`).
-/

namespace Tenso.Ingest

/-- The slot of an outcome. -/
def FetchOutcome.slot : FetchOutcome → UInt64
  | .ingested block => block.slot
  | .skipped slot => slot
  | .failed slot _ => slot

/-- `get_block` over the raw answers: a decoded block carries the slot that was asked for. -/
def getBlock (answers : UInt64 → ℕ → Except RpcError (Option ℤ × List DecodedTransaction)) : Rpc :=
  fun slot attempt => (answers slot attempt).map fun (blockTime, transactions) => { slot, blockTime, transactions }

/-- The outcome in the hands of the pool. -/
def PoolPhase.hand : PoolPhase → List FetchOutcome
  | .handingOn outcome => [outcome]
  | _ => []

/-- The slots that are still to be handed on. -/
def Pool.outstanding (s : Pool) : List UInt64 := s.phase.hand.map (·.slot) ++ s.inFlight.map (·.slot) ++ s.slots

/-! ## The range -/

theorem slotRange_length (startSlot count : UInt64) :
    (slotRange startSlot count).length = (startSlot + count).toNat - startSlot.toNat := by
  simp [slotRange]

/-- The slots of a range whose end fits. -/
theorem slotRange_toNat {startSlot count : UInt64} (h : startSlot.toNat + count.toNat < 2 ^ 64) :
    (slotRange startSlot count).map (·.toNat) = (List.range count.toNat).map (startSlot.toNat + ·) := by
  have hend : (startSlot + count).toNat - startSlot.toNat = count.toNat := by
    rw [UInt64.toNat_add]
    omega
  rw [slotRange, hend, List.map_map]
  apply List.map_congr_left
  intro i hi
  have := List.mem_range.1 hi
  simp only [Function.comp_apply, UInt64.toNat_add, UInt64.toNat_ofNat']
  omega

/-- A range whose end wraps is empty. -/
theorem slotRange_wraps {startSlot count : UInt64} (h : 2 ^ 64 ≤ startSlot.toNat + count.toNat) :
    slotRange startSlot count = [] := by
  have hcount := count.toNat_lt
  apply List.length_eq_zero_iff.1
  rw [slotRange_length, UInt64.toNat_add]
  omega

/-! ## The pool -/

/-- The outcome of a finished task is that of its slot. -/
def FetchTask.OwnSlot (t : FetchTask) : Prop := ∀ outcome, t.phase = .done outcome → outcome.slot = t.slot

/-- The pool serves the slots: those that were handed on and the outstanding ones are all slots, each once. As long as
slots wait, the pool is full; without workers it does nothing. -/
structure Pool.Serves (slots : List UInt64) (maxConcurrency : ℕ) (handed : List UInt64) (s : Pool) : Prop where
  all : (handed ++ s.outstanding).Perm slots
  own : ∀ t ∈ s.inFlight, t.OwnSlot
  full : s.slots ≠ [] → maxConcurrency ≤ s.phase.hand.length + s.inFlight.length
  idle : maxConcurrency = 0 → s.phase.hand = [] ∧ s.inFlight = [] ∧ handed = []
  finished : s.phase = .finished → s.inFlight = []

theorem slot_outcomeOf {answers : UInt64 → ℕ → Except RpcError (Option ℤ × List DecodedTransaction)} {slot : UInt64}
    {attempt : ℕ} : (outcomeOf slot (getBlock answers slot attempt)).slot = slot := by
  unfold getBlock
  cases answers slot attempt with
  | ok block => rfl
  | error e => cases e <;> rfl

theorem ownSlot_answered {answers : UInt64 → ℕ → Except RpcError (Option ℤ × List DecodedTransaction)} {slot : UInt64}
    {attempt : ℕ} : FetchTask.OwnSlot ⟨slot, answered slot attempt (getBlock answers slot attempt)⟩ := by
  have hslot := @slot_outcomeOf answers slot attempt
  intro outcome h
  unfold answered at h
  simp only at h
  split at h
  · cases h
    assumption
  · split at h
    · cases h
      assumption
    · cases h

theorem serves_start (limiter : TokenBucket) (slots : List UInt64) (maxConcurrency : ℕ) :
    (Pool.start limiter slots maxConcurrency).Serves slots maxConcurrency [] := by
  constructor
  · simp only [Pool.outstanding, Pool.start, PoolPhase.hand, List.map_nil, List.nil_append, List.map_map]
    have hslots : (slots.take maxConcurrency).map ((·.slot) ∘ fetchOne) = slots.take maxConcurrency := by
      have : (fun t : FetchTask => t.slot) ∘ fetchOne = id := rfl
      rw [this, List.map_id]
    rw [hslots, List.take_append_drop]
  · intro t ht outcome h
    obtain ⟨slot, _, rfl⟩ := List.mem_map.1 ht
    cases h
  · intro hne
    have hlt : maxConcurrency < slots.length := by
      by_contra hle
      exact hne (List.drop_eq_nil_iff.2 (Nat.le_of_not_lt hle))
    simp [Pool.start, PoolPhase.hand]
    omega
  · rintro rfl
    exact ⟨rfl, rfl, rfl⟩
  · exact nofun

/-- A task that goes on keeps its slot. -/
theorem Pool.Serves.update {slots handed : List UInt64} {maxConcurrency : ℕ} {s s' : Pool} {pre post : List FetchTask}
    {slot : UInt64} {phase phase' : FetchPhase} (h : s.Serves slots maxConcurrency handed)
    (htask : s.inFlight = pre ++ ⟨slot, phase⟩ :: post) (htask' : s'.inFlight = pre ++ ⟨slot, phase'⟩ :: post)
    (hphase : s'.phase = s.phase) (hslots : s'.slots = s.slots) (hown : FetchTask.OwnSlot ⟨slot, phase'⟩) :
    s'.Serves slots maxConcurrency handed := by
  have hlen : s'.inFlight.length = s.inFlight.length := by simp [htask, htask']
  have hout : s'.outstanding = s.outstanding := by simp [Pool.outstanding, htask, htask', hphase, hslots]
  refine ⟨hout ▸ h.all, ?_, by rw [hslots, hphase, hlen]; exact h.full, fun h0 => ?_, fun hf => ?_⟩
  · have := h.own
    rw [htask] at this
    rw [htask']
    simp only [List.forall_mem_append, List.forall_mem_cons] at this ⊢
    exact ⟨this.1, hown, this.2.2⟩
  · obtain ⟨_, hnone, _⟩ := h.idle h0
    rw [htask] at hnone
    simp at hnone
  · have := h.finished (hphase ▸ hf)
    rw [htask] at this
    simp at this

/-- A step of the pool that hands nothing on keeps it serving. -/
theorem Pool.Serves.step {answers : UInt64 → ℕ → Except RpcError (Option ℤ × List DecodedTransaction)}
    {slots handed : List UInt64} {maxConcurrency : ℕ} {s s' : Pool} (h : s.Serves slots maxConcurrency handed)
    (hs : Pool.Step (getBlock answers) s s') (hquiet : s.phase.hand = []) : s'.Serves slots maxConcurrency handed := by
  cases hs with
  | denied => exact ⟨h.all, h.own, h.full, h.idle, h.finished⟩
  | granted hphase htask => exact h.update htask rfl rfl rfl nofun
  | answer hphase htask => exact h.update htask rfl rfl rfl ownSlot_answered
  | retry hphase htask => exact h.update htask rfl rfl rfl nofun
  | @next pre post slot outcome hphase htask =>
    have hslot : outcome.slot = slot := h.own ⟨slot, .done outcome⟩ (by simp [htask]) outcome rfl
    refine ⟨?_, fun t ht => h.own t ?_, fun hne => ?_, fun h0 => ?_, nofun⟩
    · refine List.Perm.trans (List.Perm.append_left _ ?_) h.all
      simp only [Pool.outstanding, PoolPhase.hand, hphase, htask, List.map_cons, List.map_nil, List.map_append,
        List.nil_append, hslot]
      exact List.Perm.append_right _ (by simpa using List.perm_middle.symm)
    · rw [htask]
      simp only [List.mem_append, List.mem_cons] at ht ⊢
      tauto
    · have := h.full hne
      simp only [PoolPhase.hand, hphase, htask, List.length_append, List.length_cons, List.length_nil] at this ⊢
      omega
    · obtain ⟨_, hnone, _⟩ := h.idle h0
      rw [htask] at hnone
      simp at hnone
  | handedOn hphase =>
    rw [hphase] at hquiet
    cases hquiet
  | finish hphase hnone =>
    refine ⟨?_, h.own, fun hne => ?_, fun h0 => ⟨rfl, hnone, (h.idle h0).2.2⟩, fun _ => hnone⟩
    · have := h.all
      simp only [Pool.outstanding, PoolPhase.hand, hphase] at this ⊢
      exact this
    · have := h.full hne
      rwa [hphase] at this

/-- An outcome is handed on. -/
theorem Pool.Serves.handOn {slots handed : List UInt64} {maxConcurrency : ℕ} {s : Pool} {outcome : FetchOutcome}
    (h : s.Serves slots maxConcurrency handed) (hphase : s.phase = .handingOn outcome) :
    (Pool.refill { s with phase := .polling }).Serves slots maxConcurrency (handed ++ [outcome.slot]) := by
  obtain ⟨hall, hown, hfull, hidle, _⟩ := h
  have h0 : maxConcurrency ≠ 0 := fun h0 => by
    have := (hidle h0).1
    rw [hphase] at this
    cases this
  simp only [Pool.outstanding, PoolPhase.hand, hphase, List.map_cons, List.map_nil] at hall hfull
  unfold Pool.refill
  split
  · rename_i hnone
    have hnone' : s.slots = [] := hnone
    refine ⟨?_, hown, fun hne => absurd hnone' hne, fun he => absurd he h0, nofun⟩
    simpa [Pool.outstanding, PoolPhase.hand] using hall
  · rename_i slot rest heq
    have heq' : s.slots = slot :: rest := heq
    rw [heq'] at hall hfull
    refine ⟨?_, ?_, fun _ => ?_, fun he => absurd he h0, nofun⟩
    · simpa [Pool.outstanding, PoolPhase.hand, fetchOne] using hall
    · rw [List.forall_mem_append, List.forall_mem_singleton]
      exact ⟨hown, nofun⟩
    · have := hfull (List.cons_ne_nil _ _)
      simp only [PoolPhase.hand, List.length_append, List.length_cons, List.length_nil] at this ⊢
      omega

/-- **The end of the pool.** With a worker, all slots have been handed on; without one, none. -/
theorem Pool.Serves.complete {slots handed : List UInt64} {maxConcurrency : ℕ} {s : Pool}
    (h : s.Serves slots maxConcurrency handed) (hfin : s.phase = .finished) :
    (maxConcurrency ≠ 0 → handed.Perm slots) ∧ (maxConcurrency = 0 → handed = []) := by
  refine ⟨fun h0 => ?_, fun h0 => (h.idle h0).2.2⟩
  have hnone := h.finished hfin
  have hempty : s.slots = [] := by
    by_contra hne
    have := h.full hne
    rw [hfin, hnone] at this
    exact h0 (Nat.le_zero.1 this)
  have hall := h.all
  simpa [Pool.outstanding, PoolPhase.hand, hfin, hnone, hempty] using hall

end Tenso.Ingest
