import Mathlib.Algebra.BigOperators.Group.List.Basic
import Mathlib.Algebra.Order.Field.Basic
import Mathlib.Tactic.Linarith

/-!
# Token buckets

A bucket of capacity `c` into which tokens flow at rate `r`. What is taken out since some time and what is left in the
bucket is at most the capacity and what has flowed in since (`Run.since_add_tokens_le`), so the tokens taken in any
window of time are bounded by the capacity and the flow over the window (`Run.taken_le`).
-/

namespace Bucket

variable {K : Type} [Field K]

/-! ## What is taken -/

/-- What was taken at the times with a property. -/
def taken (p : K → Prop) [DecidablePred p] (takes : List (K × K)) : K :=
  (takes.map fun take => if p take.1 then take.2 else 0).sum

@[simp] theorem taken_nil (p : K → Prop) [DecidablePred p] : taken p [] = 0 := rfl

@[simp] theorem taken_snoc (p : K → Prop) [DecidablePred p] (takes : List (K × K)) (now n : K) :
    taken p (takes ++ [(now, n)]) = taken p takes + if p now then n else 0 := by
  simp [taken]

/-! ## Runs -/

/-- A bucket: the tokens in it at the last time it was filled up. -/
structure State (K : Type) where
  tokens : K
  lastRefill : K

variable [LinearOrder K]

/-- A turn: tokens have flowed in up to the capacity, and `n` of them are taken. -/
structure Turn (r c : K) (s : State K) (now n : K) (s' : State K) : Prop where
  refill : s'.tokens + n = min (s.tokens + (now - s.lastRefill) * r) c
  time : s'.lastRefill = now
  taken : 0 ≤ n
  left : 0 ≤ s'.tokens

/-- A run of turns in the order of time, with the times and what was taken. -/
inductive Run (r c : K) (s : State K) : List (K × K) → State K → Prop
  | nil : Run r c s [] s
  | snoc {takes : List (K × K)} {s' s'' : State K} {now n : K} (h : Run r c s takes s') (hmono : s'.lastRefill ≤ now)
      (hturn : Turn r c s' now n s'') : Run r c s (takes ++ [(now, n)]) s''

variable {r c : K} {s s' : State K} {takes : List (K × K)}

theorem Run.time_le (h : Run r c s takes s') : ∀ take ∈ takes, take.1 ≤ s'.lastRefill := by
  induction h with
  | nil => exact nofun
  | snoc _ hmono hturn ih =>
    intro take htake
    rw [hturn.time]
    rcases List.mem_append.1 htake with htake | htake
    · exact (ih take htake).trans hmono
    · rw [List.mem_singleton.1 htake]

/-- Nothing was taken after the last turn. -/
theorem Run.taken_of_lt (h : Run r c s takes s') {p : K → Prop} [DecidablePred p]
    (hp : ∀ now, p now → s'.lastRefill < now) : taken p takes = 0 := by
  unfold taken
  rw [List.map_congr_left (g := fun _ => 0)]
  · simp
  · intro take htake
    exact if_neg fun hnow => not_lt.2 (h.time_le take htake) (hp _ hnow)

variable [IsStrictOrderedRing K]

/-- The tokens stay between zero and the capacity. -/
theorem Run.tokens_mem (h : Run r c s takes s') (hs : 0 ≤ s.tokens ∧ s.tokens ≤ c) :
    0 ≤ s'.tokens ∧ s'.tokens ≤ c := by
  cases h with
  | nil => exact hs
  | @snoc _ s' _ now n _ _ hturn =>
    have := min_le_right (s'.tokens + (now - s'.lastRefill) * r) c
    exact ⟨hturn.left, by linarith [hturn.refill, hturn.taken]⟩

/-- What is taken since a time and what is left is at most the capacity and what has flowed in since. -/
theorem Run.since_add_tokens_le (h : Run r c s takes s') (hr : 0 ≤ r) (hs : s.tokens ≤ c) :
    ∀ a ≤ s'.lastRefill, taken (a ≤ ·) takes + s'.tokens ≤ c + r * (s'.lastRefill - a) := by
  induction h with
  | nil =>
    intro a ha
    have := mul_nonneg hr (sub_nonneg.2 ha)
    rw [taken_nil]
    linarith
  | @snoc takes s₁ s₂ now n hrun hmono hturn ih =>
    intro a ha
    rw [hturn.time] at ha ⊢
    rw [taken_snoc, if_pos ha]
    have hrefill := hturn.refill
    rcases le_or_gt a s₁.lastRefill with hle | hlt
    · -- the turn takes from what was there and what has flowed in since the turn before
      have := min_le_left (s₁.tokens + (now - s₁.lastRefill) * r) c
      have := ih a hle
      linarith
    · -- this turn is the first since `a`: it takes from a bucket that is at most full
      have hnone := hrun.taken_of_lt (p := (a ≤ ·)) fun t ht => hlt.trans_le ht
      have := min_le_right (s₁.tokens + (now - s₁.lastRefill) * r) c
      have := mul_nonneg hr (sub_nonneg.2 ha)
      linarith

/-- **The bound of a window**: what is taken in it is at most the capacity and what flows in over it. -/
theorem Run.taken_le (h : Run r c s takes s') (hr : 0 ≤ r) (hc : 0 ≤ c) (hs : s.tokens ≤ c) {a b : K} (hab : a ≤ b) :
    taken (fun t => a ≤ t ∧ t ≤ b) takes ≤ c + r * (b - a) := by
  have hflow := mul_nonneg hr (sub_nonneg.2 hab)
  induction h with
  | nil =>
    rw [taken_nil]
    linarith
  | @snoc takes s₁ s₂ now n hrun hmono hturn ih =>
    by_cases hin : a ≤ now ∧ now ≤ b
    · have hsince := (hrun.snoc hmono hturn).since_add_tokens_le hr hs a (hturn.time ▸ hin.1)
      have hle : taken (fun t => a ≤ t ∧ t ≤ b) (takes ++ [(now, n)]) = taken (a ≤ ·) (takes ++ [(now, n)]) := by
        unfold taken
        refine congrArg List.sum (List.map_congr_left fun take htake => ?_)
        have := (hrun.snoc hmono hturn).time_le take htake
        rw [hturn.time] at this
        simp [this.trans hin.2]
      rw [hturn.time] at hsince
      have := mul_le_mul_of_nonneg_left (sub_le_sub_right hin.2 a) hr
      have := hturn.left
      rw [hle]
      linarith
    · rw [taken_snoc, if_neg hin, add_zero]
      exact ih

end Bucket
