import Mathlib.Logic.Relation
import Mathlib.Order.Monotone.Defs
import Mathlib.Order.WellFounded

/-!
# Transition systems

A transition system has initial states and steps. What holds of the initial states and is preserved by every step
holds of every reachable state (`Reachable.invariant`), and a map that sends steps to steps or to nothing sends
reachable states to reachable states (`Reachable.map`).

A run goes on for ever: it repeats a state that has no step. If no step makes a number grow, then from some time on a
run takes only steps that keep it (`Run.eventually_constant`).

A final state can be reached from everywhere if each other state has a step that brings a number down
(`Reachable.exists_final`), and a run that does not only wait from some time on gets there (`Run.ends`).
-/

namespace Transition

/-- A transition system on the states `σ`. -/
structure System (σ : Type) where
  init : σ → Prop
  step : σ → σ → Prop

variable {σ : Type}

/-- The states that runs of the system reach. -/
inductive Reachable (S : System σ) : σ → Prop
  | init {s : σ} (h : S.init s) : Reachable S s
  | step {s s' : σ} (h : Reachable S s) (hs : S.step s s') : Reachable S s'

/-- Invariants. -/
theorem Reachable.invariant {S : System σ} {I : σ → Prop} (hinit : ∀ s, S.init s → I s)
    (hstep : ∀ s s', I s → S.step s s' → I s') {s : σ} (h : Reachable S s) : I s := by
  induction h with
  | init h => exact hinit _ h
  | step _ hs ih => exact hstep _ _ ih hs

theorem Reachable.trans {S : System σ} {s s' : σ} (h : Reachable S s) (hs : Relation.ReflTransGen S.step s s') :
    Reachable S s' := by
  induction hs with
  | refl => exact h
  | tail _ hs ih => exact ih.step hs

/-- Simulation. -/
theorem Reachable.map {τ : Type} {S : System σ} {T : System τ} {f : σ → τ} (hinit : ∀ s, S.init s → T.init (f s))
    (hstep : ∀ s s', Reachable S s → S.step s s' → T.step (f s) (f s') ∨ f s' = f s) {s : σ} (h : Reachable S s) :
    Reachable T (f s) := by
  induction h with
  | init h => exact .init (hinit _ h)
  | step h hs ih =>
    rcases hstep _ _ h hs with ht | heq
    · exact ih.step ht
    · rw [heq]
      exact ih

/-! ## Runs -/

/-- A run of the system. -/
structure Run (S : System σ) (run : ℕ → σ) : Prop where
  init : S.init (run 0)
  next : ∀ i, S.step (run i) (run (i + 1)) ∨ (∀ s, ¬S.step (run i) s) ∧ run (i + 1) = run i

namespace Run

variable {S : System σ} {run : ℕ → σ}

theorem reachable (h : Run S run) (i : ℕ) : Reachable S (run i) := by
  induction i with
  | zero => exact .init h.init
  | succ i ih =>
    rcases h.next i with hs | ⟨_, heq⟩
    · exact ih.step hs
    · rw [heq]
      exact ih

theorem antitone (h : Run S run) {m : σ → ℕ} (hm : ∀ s s', Reachable S s → S.step s s' → m s' ≤ m s) :
    Antitone fun i => m (run i) := by
  refine antitone_nat_of_succ_le fun i => ?_
  rcases h.next i with hs | ⟨_, heq⟩
  · exact hm _ _ (h.reachable i) hs
  · exact (congrArg m heq).le

/-- A number that no step makes grow stays the same from some time on. -/
theorem eventually_constant (h : Run S run) {m : σ → ℕ} (hm : ∀ s s', Reachable S s → S.step s s' → m s' ≤ m s) :
    ∃ N, ∀ i, N ≤ i → m (run i) = m (run N) := by
  let N := Function.argmin fun i => m (run i)
  refine ⟨N, fun i hi => le_antisymm (h.antitone hm hi) ?_⟩
  exact Function.argmin_le (fun i => m (run i)) i

/-- A run ends: no step makes the number grow, those that keep it wait, and the run does not wait for ever. -/
theorem ends (h : Run S run) {m : σ → ℕ} {F : σ → Prop} {waits : σ → σ → Prop}
    (hm : ∀ s s', Reachable S s → S.step s s' → m s' < m s ∨ m s' = m s ∧ waits s s')
    (hstep : ∀ s, Reachable S s → ¬F s → ∃ s', S.step s s')
    (hfair : ∀ i, ∃ j, i ≤ j ∧ ¬waits (run j) (run (j + 1))) : ∃ i, F (run i) := by
  obtain ⟨N, hN⟩ := h.eventually_constant (m := m) fun s s' hs hstep => by
    rcases hm s s' hs hstep with hlt | ⟨heq, _⟩
    · exact hlt.le
    · exact heq.le
  by_contra hnever
  obtain ⟨j, hj, hbusy⟩ := hfair N
  rcases h.next j with hs | ⟨hstuck, _⟩
  · rcases hm _ _ (h.reachable j) hs with hlt | ⟨_, hwaits⟩
    · have hsame : m (run (j + 1)) = m (run j) := (hN _ (by omega)).trans (hN j hj).symm
      omega
    · exact hbusy hwaits
  · obtain ⟨s', hs⟩ := hstep _ (h.reachable j) fun hf => hnever ⟨j, hf⟩
    exact hstuck s' hs

end Run

/-- What goes on from a reachable state is the end of a run. -/
theorem Reachable.exists_run {S : System σ} {s : σ} (h : Reachable S s) {tail : ℕ → σ} (hstart : tail 0 = s)
    (hnext : ∀ i, S.step (tail i) (tail (i + 1)) ∨ (∀ s, ¬S.step (tail i) s) ∧ tail (i + 1) = tail i) :
    ∃ run N, Run S run ∧ ∀ i, run (N + i) = tail i := by
  induction h generalizing tail with
  | @init s h =>
    refine ⟨tail, 0, ⟨hstart ▸ h, hnext⟩, fun i => ?_⟩
    rw [Nat.zero_add]
  | @step s s' _ hs ih =>
    let longer : ℕ → σ
      | 0 => s
      | i + 1 => tail i
    have hlonger : ∀ i, S.step (longer i) (longer (i + 1)) ∨ (∀ s, ¬S.step (longer i) s) ∧ longer (i + 1) = longer i
      | 0 => Or.inl (show S.step s (tail 0) from hstart ▸ hs)
      | i + 1 => hnext i
    obtain ⟨run, N, hrun, htail⟩ := @ih longer rfl hlonger
    refine ⟨run, N + 1, hrun, fun i => ?_⟩
    rw [Nat.add_assoc, Nat.add_comm 1 i]
    exact htail (i + 1)

/-- **Progress**: a final state can be reached from every reachable one. -/
theorem Reachable.exists_final {S : System σ} {m : σ → ℕ} {final : σ → Prop}
    (hstep : ∀ s, Reachable S s → ¬final s → ∃ s', S.step s s' ∧ m s' < m s) {s : σ} (h : Reachable S s) :
    ∃ s', Relation.ReflTransGen S.step s s' ∧ final s' := by
  induction hn : m s using Nat.strong_induction_on generalizing s with
  | _ n ih =>
    by_cases hf : final s
    · exact ⟨s, .refl, hf⟩
    · obtain ⟨s₁, hs, hlt⟩ := hstep s h hf
      obtain ⟨s', hs', hf'⟩ := ih _ (hn ▸ hlt) (h.step hs) rfl
      exact ⟨s', hs'.head hs, hf'⟩

end Transition
