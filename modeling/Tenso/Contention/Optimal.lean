import Mathlib.Algebra.BigOperators.Group.List.Lemmas
import Mathlib.Algebra.GroupWithZero.Nat
import Mathlib.Data.List.GetD
import Tenso.Contention.Summary

/-!
# The schedule is optimal

`buildSchedule` keeps conflicting transactions in block order, and among the schedules that do it puts every transaction
into the earliest step, its depth is the length of the longest chain of conflicts, and it leaves no step empty
(`buildSchedule_optimal`).
-/

namespace Tenso.Contention

open ConflictOrder

/-! ## The width of a step -/

/-- The widths count the transactions of each step that is taken. -/
theorem lookup_widthPerStep (steps : List Nat) (s : Nat) :
    (widthPerStep steps).lookup s = if steps.count s = 0 then none else some (steps.count s) := by
  induction steps using List.reverseRecOn with
  | nil => rfl
  | append_singleton steps x ih =>
    have hstep : widthPerStep (steps ++ [x]) =
        ((widthPerStep steps).entryOr x 0).1.insert x (((widthPerStep steps).entryOr x 0).2 + 1) := by
      simp [widthPerStep]
    rw [hstep, HashMap.lookup_insert_entryOr, HashMap.entryOr_snd]
    by_cases hs : s = x
    · subst hs
      by_cases h0 : steps.count s = 0 <;> simp [ih, h0]
    · simp [ih, hs, Ne.symm hs]

theorem mem_widthPerStep {steps : List Nat} {s : Nat} : s ∈ widthPerStep steps ↔ s ∈ steps := by
  rw [← AList.lookup_isSome, lookup_widthPerStep, ← List.count_pos_iff]
  by_cases h0 : steps.count s = 0
  · simp [h0]
  · simp [h0, Nat.pos_of_ne_zero h0]

/-- The width of a step that is taken is the number of its transactions. -/
theorem widthPerStep_eq_some {steps : List Nat} {s width : Nat} (h : (widthPerStep steps).lookup s = some width) :
    width = steps.count s ∧ 0 < width := by
  rw [lookup_widthPerStep] at h
  split at h
  · cases h
  · cases h
    exact ⟨rfl, by omega⟩

/-- The widths add up to the number of transactions. -/
theorem sum_widthPerStep (steps : List Nat) : ((widthPerStep steps).entries.map (·.2)).sum = steps.length := by
  have hwidth : (widthPerStep steps).entries.map (·.2) = (widthPerStep steps).keys.map (steps.count ·) := by
    rw [AList.keys, List.keys, List.map_map]
    apply List.map_congr_left
    intro e he
    exact (widthPerStep_eq_some (AList.mem_lookup_iff.2 he)).1
  have hkeys : (widthPerStep steps).keys.Perm steps.dedup :=
    (List.perm_ext_iff_of_nodup (widthPerStep steps).keys_nodup (List.nodup_dedup steps)).2 fun s => by
      rw [← AList.mem_keys, mem_widthPerStep, List.mem_dedup]
  rw [hwidth, (hkeys.map _).sum_eq, List.sum_map_count_dedup_eq_length]

/-! ## Optimality -/

/-- A chain of transactions, in block order, of which each conflicts with the one before it. -/
abbrev ConflictChain (txs : List TxLocks) (l : List Nat) : Prop := Chain (ConflictAt txs) txs.length l

theorem ScheduleResult.step_eq_getElem (r : ScheduleResult) {i : Nat} (hi : i < r.steps.length) :
    r.step i = r.steps[i] := List.getD_eq_getElem _ _ hi

/-- Every step is below the depth, and a schedule that is not empty has a last step. -/
theorem step_lt_depth (txs : List TxLocks) :
    (∀ i < txs.length, (schedule txs).step i < (schedule txs).depth) ∧
    ((schedule txs).depth = 0 ∨ ∃ i < txs.length, (schedule txs).depth = (schedule txs).step i + 1) := by
  have hlen := (schedule_stepAt txs).1
  rw [schedule_depth]
  cases hmax : (schedule txs).steps.max? with
  | none =>
    rw [List.max?_eq_none_iff] at hmax
    have hzero : txs.length = 0 := by simp [← hlen, hmax]
    exact ⟨fun i hi => by omega, Or.inl rfl⟩
  | some m =>
    obtain ⟨hm, hle⟩ := List.max?_eq_some_iff.1 hmax
    have hstep (i : Nat) (hi : i < txs.length) : (schedule txs).step i ∈ (schedule txs).steps := by
      rw [ScheduleResult.step_eq_getElem _ (by omega)]
      exact List.getElem_mem _
    refine ⟨fun i hi => Nat.lt_succ_of_le (hle _ (hstep i hi)), Or.inr ?_⟩
    obtain ⟨i, hi, rfl⟩ := List.mem_iff_getElem.1 hm
    exact ⟨i, by omega, by rw [ScheduleResult.step_eq_getElem _ hi]; rfl⟩

theorem schedule_widthPerStep (txs : List TxLocks) :
    (schedule txs).widthPerStep = widthPerStep (schedule txs).steps := by
  have h := buildSchedule_eq_schedule txs
  simp only [buildSchedule, Option.bind_eq_bind, Option.bind_eq_some_iff, Option.pure_def, Option.some.injEq] at h
  obtain ⟨acc, _, h⟩ := h
  rw [← h]

/-- The steps that are taken are those below the depth. -/
theorem mem_steps_iff_lt_depth (txs : List TxLocks) (s : Nat) :
    s ∈ (schedule txs).steps ↔ s < (schedule txs).depth := by
  obtain ⟨hlen, hstep⟩ := schedule_stepAt txs
  obtain ⟨hlt, hmax⟩ := step_lt_depth txs
  constructor
  · intro hs
    obtain ⟨i, hi, rfl⟩ := List.mem_iff_getElem.1 hs
    have := hlt i (by omega)
    rwa [ScheduleResult.step_eq_getElem _ hi] at this
  · intro hs
    rcases hmax with h0 | ⟨i, hi, he⟩
    · omega
    · obtain ⟨j, hj, rfl⟩ := exists_step_eq hstep i hi s (by omega)
      rw [ScheduleResult.step_eq_getElem _ (by omega)]
      exact List.getElem_mem _

/-- **The schedule is optimal** among those that keep conflicting transactions in block order: it is one of them, every
transaction is in the earliest possible step, the depth is the length of the longest chain of conflicts, and the widths
count the transactions of the steps `0` to `depth - 1`, none of which is empty. -/
theorem buildSchedule_optimal (txs : List TxLocks) : ∃ r, buildSchedule txs = some r ∧
    r.steps.length = txs.length ∧
    (∀ i < txs.length, ∀ j < i, ConflictAt txs j i → r.step j < r.step i) ∧
    (∀ f : Nat → Nat, (∀ i < txs.length, ∀ j < i, ConflictAt txs j i → f j < f i) →
      ∀ i < txs.length, r.step i ≤ f i) ∧
    IsGreatest {k | ∃ l, ConflictChain txs l ∧ l.length = k} r.depth ∧
    (∀ s, s ∈ r.widthPerStep ↔ s < r.depth) ∧
    (∀ s width, r.widthPerStep.lookup s = some width → width = r.steps.count s ∧ 0 < width) ∧
    (r.widthPerStep.entries.map (·.2)).sum = txs.length := by
  obtain ⟨hlen, hstep⟩ := schedule_stepAt txs
  obtain ⟨hlt, hmax⟩ := step_lt_depth txs
  refine ⟨schedule txs, buildSchedule_eq_schedule txs, hlen, fun i hi j hj => (hstep i hi).after j hj, ?_,
    isGreatest_chain hstep hlt hmax, ?_, ?_, ?_⟩
  · intro f hf
    exact StepAt.le hstep hf
  · intro s
    rw [schedule_widthPerStep, mem_widthPerStep, mem_steps_iff_lt_depth]
  · intro s width h
    rw [schedule_widthPerStep] at h
    exact widthPerStep_eq_some h
  · rw [schedule_widthPerStep, sum_widthPerStep, hlen]

end Tenso.Contention
