import Mathlib.Order.Bounds.Basic
import Mathlib.Data.List.Chain
import Mathlib.Data.List.Perm.Basic

/-!
# Steps and reorderings of a conflict relation

Positions `0, 1, 2, …` carry a conflict relation `C`. A step function is *greedy* at `i` when it puts `i` as early as
the earlier positions that conflict with it allow (`StepAt`): at `0` if there is none, and otherwise one after the
largest step among them (`StepAt.eq_zero`, `StepAt.isGreatest`). Greedy steps are the smallest that respect the
conflicts (`StepAt.le`), hence unique (`StepAt.unique`), and their number is the length of the longest chain of
conflicts (`isGreatest_chain`). They move with the positions when a renaming keeps conflicting positions in order
(`StepAt.rename`).

Running actions one after the other (`exec`) does not depend on the order in which commuting actions stand: two
arrangements of the same actions whose inversions all commute end in the same state (`exec_reorder`).
-/

namespace ConflictOrder

/-! ## Greedy steps -/

section Steps

variable {C : ℕ → ℕ → Prop} {f g : ℕ → ℕ} {i j : ℕ}

/-- `f` places `i` right after the last earlier position that conflicts with it. -/
structure StepAt (C : ℕ → ℕ → Prop) (f : ℕ → ℕ) (i : ℕ) : Prop where
  /-- an earlier conflict has a smaller step -/
  after : ∀ j < i, C j i → f j < f i
  /-- a step above `0` is the next one after some earlier conflict -/
  tight : f i = 0 ∨ ∃ j < i, C j i ∧ f i = f j + 1

/-- Without an earlier conflict the step is `0`. -/
theorem StepAt.eq_zero (h : StepAt C f i) (hno : ∀ j < i, ¬C j i) : f i = 0 := by
  rcases h.tight with h0 | ⟨j, hj, hc, _⟩
  · exact h0
  · exact absurd hc (hno j hj)

/-- With an earlier conflict the step is one more than the largest step among them. -/
theorem StepAt.isGreatest (h : StepAt C f i) (hex : ∃ j < i, C j i) :
    ∃ m, IsGreatest {s | ∃ j < i, C j i ∧ f j = s} m ∧ f i = 1 + m := by
  obtain ⟨j, hj, hc⟩ := hex
  have hpos := h.after j hj hc
  rcases h.tight with h0 | ⟨k, hk, hck, hfk⟩
  · omega
  · refine ⟨f k, ⟨⟨k, hk, hck, rfl⟩, ?_⟩, by omega⟩
    rintro s ⟨l, hl, hcl, rfl⟩
    have := h.after l hl hcl
    omega

/-- Being greedy at `i` only looks at the positions up to `i`. -/
theorem StepAt.congr {C' : ℕ → ℕ → Prop} (h : StepAt C f i) (hC : ∀ j < i, C' j i ↔ C j i)
    (hf : ∀ j ≤ i, g j = f j) : StepAt C' g i := by
  refine ⟨fun j hj hc => ?_, ?_⟩
  · rw [hf j hj.le, hf i le_rfl]
    exact h.after j hj ((hC j hj).1 hc)
  · rcases h.tight with h0 | ⟨j, hj, hc, he⟩
    · exact Or.inl (by rw [hf i le_rfl, h0])
    · exact Or.inr ⟨j, hj, (hC j hj).2 hc, by rw [hf i le_rfl, hf j hj.le, he]⟩

/-- When all positions conflict, they take one step each. -/
theorem stepAt_chain {n : ℕ} (h : ∀ i < n, StepAt C f i) (hC : ∀ i < n, ∀ j < i, C j i) : ∀ i < n, f i = i := by
  intro i
  induction i using Nat.strong_induction_on with
  | _ i ih =>
    intro hi
    cases i with
    | zero =>
      rcases (h 0 hi).tight with h0 | ⟨j, hj, _⟩
      · exact h0
      · omega
    | succ i =>
      have hlast := (h (i + 1) hi).after i (Nat.lt_succ_self i) (hC _ hi i (Nat.lt_succ_self i))
      have hi' := ih i (Nat.lt_succ_self i) (Nat.lt_of_succ_lt hi)
      rcases (h (i + 1) hi).tight with h0 | ⟨j, hj, _, he⟩
      · omega
      · have hj' := ih j hj (Nat.lt_trans hj hi)
        omega

/-! ### Optimality -/

/-- Greedy steps are the smallest among the steps that respect the conflicts. -/
theorem StepAt.le {n : ℕ} (hf : ∀ i < n, StepAt C f i) (hg : ∀ i < n, ∀ j < i, C j i → g j < g i) :
    ∀ i < n, f i ≤ g i := by
  intro i
  induction i using Nat.strong_induction_on with
  | _ i ih =>
    intro hi
    rcases (hf i hi).tight with h0 | ⟨j, hj, hc, he⟩
    · omega
    · have hle := ih j hj (by omega)
      have hlt := hg i hi j hj hc
      omega

/-- Greedy steps are unique. -/
theorem StepAt.unique {n : ℕ} (hf : ∀ i < n, StepAt C f i) (hg : ∀ i < n, StepAt C g i) : ∀ i < n, f i = g i := by
  intro i hi
  have hle := StepAt.le hf (fun i hi => (hg i hi).after) i hi
  have hge := StepAt.le hg (fun i hi => (hf i hi).after) i hi
  omega

/-- Renaming: if conflicting positions keep their order under `π`, the steps move with the positions. -/
theorem StepAt.rename {C' : ℕ → ℕ → Prop} {π ρ : ℕ → ℕ} (hρ : ∀ j, π (ρ j) = j) (h : StepAt C f (π i))
    (hC : ∀ j, C' j i ↔ C (π j) (π i)) (hlt : ∀ j, C' j i → (j < i ↔ π j < π i)) :
    StepAt C' (fun j => f (π j)) i := by
  constructor
  · intro j hj hc
    exact h.after (π j) ((hlt j hc).1 hj) ((hC j).1 hc)
  · refine h.tight.imp id ?_
    rintro ⟨k, hk, hc, he⟩
    have hc' : C' (ρ k) i := (hC (ρ k)).2 (by rwa [hρ])
    exact ⟨ρ k, (hlt _ hc').2 (by rwa [hρ]), hc', by rw [hρ, he]⟩

/-! ### Chains -/

/-- A chain of conflicts among the positions below `n`: each position conflicts with the one before it. -/
structure Chain (C : ℕ → ℕ → Prop) (n : ℕ) (l : List ℕ) : Prop where
  conflicts : l.IsChain fun j i => j < i ∧ C j i
  lt : ∀ i ∈ l, i < n

/-- Along a chain the steps grow. -/
theorem Chain.length_le {n : ℕ} (h : ∀ i < n, StepAt C f i) : ∀ {l : List ℕ} {i : ℕ}, Chain C n (i :: l) →
    ∃ k < n, f i + l.length ≤ f k
  | [], i, hl => ⟨i, hl.lt i (by simp), by simp⟩
  | j :: l, i, hl => by
    obtain ⟨⟨hij, hc⟩, hrest⟩ := List.isChain_cons_cons.1 hl.conflicts
    obtain ⟨k, hk, hle⟩ := Chain.length_le h (l := l) (i := j) ⟨hrest, fun x hx => hl.lt x (List.mem_cons_of_mem _ hx)⟩
    have hstep := (h j (hl.lt j (by simp))).after i hij hc
    refine ⟨k, hk, ?_⟩
    simp only [List.length_cons]
    omega

/-- Every position ends a chain that takes all the steps up to its own. -/
theorem exists_chain {n : ℕ} (h : ∀ i < n, StepAt C f i) : ∀ i < n, ∃ l : List ℕ,
    Chain C n (l ++ [i]) ∧ l.length = f i := by
  intro i
  induction i using Nat.strong_induction_on with
  | _ i ih =>
    intro hi
    rcases (h i hi).tight with h0 | ⟨j, hj, hc, he⟩
    · exact ⟨[], ⟨by simp, by simpa using hi⟩, by simp [h0]⟩
    · obtain ⟨l, ⟨hl, hlt⟩, hlen⟩ := ih j hj (by omega)
      refine ⟨l ++ [j], ⟨?_, ?_⟩, by simp [hlen, he]⟩
      · rw [List.append_assoc, List.singleton_append, List.isChain_append_cons_cons]
        exact ⟨hl, ⟨hj, hc⟩, by simp⟩
      · intro x hx
        rcases List.mem_append.1 hx with hx | hx
        · exact hlt x hx
        · rwa [List.mem_singleton.1 hx]

/-- The number of steps is the length of the longest chain. -/
theorem isGreatest_chain {n depth : ℕ} (h : ∀ i < n, StepAt C f i) (hlt : ∀ i < n, f i < depth)
    (hmax : depth = 0 ∨ ∃ i < n, depth = f i + 1) :
    IsGreatest {k | ∃ l : List ℕ, Chain C n l ∧ l.length = k} depth := by
  constructor
  · rcases hmax with rfl | ⟨i, hi, rfl⟩
    · exact ⟨[], ⟨by simp, by simp⟩, rfl⟩
    · obtain ⟨l, hl, hlen⟩ := exists_chain h i hi
      exact ⟨l ++ [i], hl, by simp [hlen]⟩
  · rintro k ⟨l, hl, rfl⟩
    cases l with
    | nil => simp
    | cons i l =>
      obtain ⟨k, hk, hle⟩ := hl.length_le h
      have := hlt k hk
      simp only [List.length_cons]
      omega

/-- No step is left out below a step that is taken. -/
theorem exists_step_eq {n : ℕ} (h : ∀ i < n, StepAt C f i) : ∀ i < n, ∀ s ≤ f i, ∃ j < n, f j = s := by
  intro i
  induction i using Nat.strong_induction_on with
  | _ i ih =>
    intro hi s hs
    by_cases heq : s = f i
    · exact ⟨i, hi, heq.symm⟩
    · rcases (h i hi).tight with h0 | ⟨j, hj, _, he⟩
      · omega
      · exact ih j hj (by omega) s (by omega)

end Steps

/-! ## Reordering commuting actions -/

section Exec

variable {ι σ : Type*} {f : ι → σ → σ}

/-- Run the actions of `l` in order. -/
def exec (f : ι → σ → σ) (l : List ι) (s : σ) : σ := l.foldl (fun s i => f i s) s

@[simp] theorem exec_nil (s : σ) : exec f [] s = s := rfl

@[simp] theorem exec_cons (i : ι) (l : List ι) (s : σ) : exec f (i :: l) s = exec f l (f i s) := rfl

/-- An action that commutes with everything before it may run first. -/
theorem exec_front {x : ι} : ∀ {u : List ι} (v : List ι), (∀ y ∈ u, ∀ s, f x (f y s) = f y (f x s)) →
    ∀ s, exec f (u ++ x :: v) s = exec f (u ++ v) (f x s)
  | [], _, _, _ => rfl
  | y :: u, v, h, s => by
    simp only [List.cons_append, exec_cons]
    rw [exec_front v (fun z hz => h z (List.mem_cons_of_mem _ hz)), h y List.mem_cons_self]

/-- **Reordering.** If `l` is arranged by `r`, its rearrangement `l'` by `q`, and any two actions that the two
arrangements put in opposite order commute, then `l'` and `l` end in the same state. -/
theorem exec_reorder {r q : ι → ι → Prop} (hcomm : ∀ i j, r i j → q j i → ∀ s, f i (f j s) = f j (f i s)) :
    ∀ {l l' : List ι}, l'.Perm l → l.Pairwise r → l'.Pairwise q → ∀ s, exec f l' s = exec f l s
  | [], _, hp, _, _, _ => by rw [hp.eq_nil]
  | x :: t, l', hp, hr, hq, s => by
    obtain ⟨u, v, rfl⟩ := List.append_of_mem (hp.mem_iff.2 List.mem_cons_self)
    have hperm : (u ++ v).Perm t := (List.perm_middle.symm.trans hp).cons_inv
    obtain ⟨hrx, hrt⟩ := List.pairwise_cons.1 hr
    obtain ⟨hqu, hqv, hquv⟩ := List.pairwise_append.1 hq
    -- everything in front of `x` is inverted against the arrangement `l`
    have hfront : ∀ y ∈ u, ∀ s, f x (f y s) = f y (f x s) := fun y hy =>
      hcomm x y (hrx y (hperm.mem_iff.1 (List.mem_append_left _ hy))) (hquv y hy x List.mem_cons_self)
    have hq' : (u ++ v).Pairwise q := List.pairwise_append.2
      ⟨hqu, (List.pairwise_cons.1 hqv).2, fun a ha b hb => hquv a ha b (List.mem_cons_of_mem _ hb)⟩
    rw [exec_front v hfront, exec_cons, exec_reorder hcomm hperm hrt hq']

end Exec

end ConflictOrder
