import Mathlib.Data.Nat.Notation
import Mathlib.Tactic.Common

/-!
# Loops that return

The body of a loop takes the state of the loop, and goes on with a new state or returns. `Returns body s n r`: the
loop that starts in `s` returns `r` in its turn `n`, counted from `1`.

- A loop returns once at most (`Returns.unique`), and it does if its turns lower a number (`exists_returns`).
- What holds at the start, and is kept by the turns that go on, holds before the turn that returns
  (`Returns.invariant`).
-/

namespace Loop

variable {σ ρ : Type} {body : σ → σ ⊕ ρ}

/-- The loop returns in turn `n`. -/
inductive Returns (body : σ → σ ⊕ ρ) : σ → ℕ → ρ → Prop
  | last {s : σ} {r : ρ} (h : body s = .inr r) : Returns body s 1 r
  | next {s s' : σ} {n : ℕ} {r : ρ} (h : body s = .inl s') (hr : Returns body s' n r) : Returns body s (n + 1) r

/-- A loop returns once at most. -/
theorem Returns.unique {s : σ} {n m : ℕ} {r t : ρ} (h : Returns body s n r) (h' : Returns body s m t) :
    n = m ∧ r = t := by
  induction h generalizing m with
  | last h =>
    cases h' with
    | last h' =>
      rw [h] at h'
      exact ⟨rfl, Sum.inr.inj h'⟩
    | next h' _ =>
      rw [h] at h'
      cases h'
  | next h _ ih =>
    cases h' with
    | last h' =>
      rw [h] at h'
      cases h'
    | next h' hr =>
      rw [h, Sum.inl.injEq] at h'
      subst h'
      obtain ⟨hn, hr⟩ := ih hr
      exact ⟨by rw [hn], hr⟩

/-- Variants: a loop returns if the turns that go on lower a number. -/
theorem exists_returns (v : σ → ℕ) (hv : ∀ s s', body s = .inl s' → v s' < v s) (s : σ) :
    ∃ n r, Returns body s n r := by
  induction hn : v s using Nat.strongRecOn generalizing s with
  | ind n ih =>
    cases h : body s with
    | inr r => exact ⟨1, r, .last h⟩
    | inl s' =>
      obtain ⟨m, r, hr⟩ := ih (v s') (hn ▸ hv s s' h) s' rfl
      exact ⟨m + 1, r, .next h hr⟩

/-- **Invariants**: what the turns keep holds before the turn that returns. -/
theorem Returns.invariant {I : ℕ → σ → Prop} (hstep : ∀ i s s', I i s → body s = .inl s' → I (i + 1) s') {s : σ} {n : ℕ}
    {r : ρ} (h : Returns body s n r) {i : ℕ} (hs : I i s) : ∃ m t, n = m + 1 ∧ I (i + m) t ∧ body t = .inr r := by
  induction h generalizing i with
  | @last s r h => exact ⟨0, s, rfl, hs, h⟩
  | next h _ ih =>
    obtain ⟨m, t, rfl, ht, hret⟩ := ih (hstep i _ _ hs h)
    refine ⟨m + 1, t, rfl, ?_, hret⟩
    rwa [Nat.add_assoc, Nat.add_comm 1 m] at ht

end Loop
