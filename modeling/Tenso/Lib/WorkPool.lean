import Mathlib.Data.List.Perm.Basic
import Tenso.Lib.Transition

/-!
# Bounded worker pools

A pool takes the items of a list in order, works on at most `n` of them at a time, and reports them in the order in
which the work on them ends, which may be any order (`State.Step`). In every reachable state each item waits, is in
flight or has been reported, and it is only one of these (`State.Exact`). Every step brings the end nearer
(`Step.remaining`).
-/

namespace WorkPool

open Transition

variable {α : Type}

/-- The items that wait, those in flight, and those that have been put in flight and reported, in order. -/
structure State (α : Type) where
  waiting : List α
  inFlight : List α
  dispatched : List α
  reported : List α

/-- A step of a pool of `n` workers. -/
inductive State.Step (n : ℕ) : State α → State α → Prop
  | dispatch {s : State α} {a : α} {rest : List α} (hroom : s.inFlight.length < n) (hwaiting : s.waiting = a :: rest) :
      Step n s { s with waiting := rest, inFlight := s.inFlight ++ [a], dispatched := s.dispatched ++ [a] }
  | report {s : State α} {pre post : List α} {a : α} (hbusy : s.inFlight = pre ++ a :: post) :
      Step n s { s with inFlight := pre ++ post, reported := s.reported ++ [a] }

/-- The pool of `n` workers over the items. -/
def system (n : ℕ) (items : List α) : System (State α) :=
  { init := fun s => s = ⟨items, [], [], []⟩, step := State.Step n }

/-- The pool is exact: each item is in one place, they are taken in order, and no more are in flight than there are
workers. -/
structure State.Exact (n : ℕ) (items : List α) (s : State α) : Prop where
  once : (s.reported ++ s.inFlight ++ s.waiting).Perm items
  ordered : s.dispatched ++ s.waiting = items
  bounded : s.inFlight.length ≤ n

theorem State.Exact.step {n : ℕ} {items : List α} {s s' : State α} (h : s.Exact n items) (hs : State.Step n s s') :
    s'.Exact n items := by
  cases hs with
  | dispatch hroom hwaiting =>
    have honce := h.once
    have hordered := h.ordered
    rw [hwaiting] at honce hordered
    refine ⟨?_, ?_, ?_⟩
    · simpa using honce
    · simpa using hordered
    · simp only [List.length_append, List.length_singleton]
      omega
  | @report pre post a hbusy =>
    have hbounded := h.bounded
    rw [hbusy] at hbounded
    simp only [List.length_append, List.length_cons] at hbounded
    refine ⟨?_, h.ordered, ?_⟩
    · refine (List.Perm.append_right _ ?_).trans h.once
      rw [hbusy, List.append_assoc, List.singleton_append]
      exact List.perm_middle.symm.append_left _
    · simp only [List.length_append]
      omega

/-- Each item is in one place in every reachable state. -/
theorem exact_of_reachable {n : ℕ} {items : List α} {s : State α} (h : Reachable (system n items) s) :
    s.Exact n items := by
  refine h.invariant ?_ fun s s' hs => hs.step
  rintro s rfl
  exact ⟨by simp, by simp, Nat.zero_le n⟩

/-- A pool that has nothing left to do has reported every item. -/
theorem State.Exact.complete {n : ℕ} {items : List α} {s : State α} (h : s.Exact n items) (hwaiting : s.waiting = [])
    (hidle : s.inFlight = []) : s.reported.Perm items := by
  have := h.once
  rwa [hwaiting, hidle, List.append_nil, List.append_nil] at this

/-- The number of steps that are left. -/
def State.remaining (s : State α) : ℕ := 2 * s.waiting.length + s.inFlight.length

theorem State.Step.remaining {n : ℕ} {s s' : State α} (hs : State.Step n s s') : s'.remaining + 1 = s.remaining := by
  cases hs with
  | dispatch _ hwaiting =>
    simp only [State.remaining, hwaiting, List.length_append, List.length_cons, List.length_nil]
    omega
  | report hbusy =>
    simp only [State.remaining, hbusy, List.length_append, List.length_cons]
    omega

end WorkPool
