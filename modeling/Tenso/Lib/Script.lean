import Mathlib.Tactic.Common

/-!
# Scripts

A script works on a value by calls, one at a time: a call changes the value, and what comes next depends on the value
that the call found.

- `run` makes all calls of a script, and `Calls` some of them (`Calls.run_eq`).
- `Always I` says that `I` holds at every moment of a run, and so wherever it is stopped (`Calls.always`).
-/

/-- A script on a value `σ` with a result `ρ`. -/
inductive Script (σ ρ : Type) where
  | done (result : ρ)
  | call (effect : σ → σ) (next : σ → Script σ ρ)

namespace Script

variable {σ α β ρ : Type}

/-- Make all calls of a script. -/
def run : Script σ ρ → σ → ρ × σ
  | done r, v => (r, v)
  | call effect next, v => run (next v) (effect v)

/-- One call. -/
def ofCall (op : σ → α × σ) : Script σ α := call (fun v => (op v).2) fun v => done (op v).1

/-- A script, and then one that depends on its result. -/
def bind : Script σ α → (α → Script σ β) → Script σ β
  | done a, k => k a
  | call effect next, k => call effect fun v => (next v).bind k

instance : Monad (Script σ) where
  pure := done
  bind := bind

@[simp] theorem run_pure (a : α) (v : σ) : (pure a : Script σ α).run v = (a, v) := rfl

@[simp] theorem run_ofCall (op : σ → α × σ) (v : σ) : (ofCall op).run v = op v := rfl

@[simp] theorem run_bind (p : Script σ α) (k : α → Script σ β) (v : σ) :
    (p >>= k).run v = (k (p.run v).1).run (p.run v).2 := by
  show (p.bind k).run v = _
  induction p generalizing v with
  | done a => rfl
  | call effect next ih => exact ih v (effect v)

/-- Some calls of the script `p` on the value `v`, down to what is left of it. -/
inductive Calls (p : Script σ ρ) (v : σ) : Script σ ρ → σ → Prop
  | refl : Calls p v p v
  | tail {w : σ} {effect : σ → σ} {next : σ → Script σ ρ} (h : Calls p v (call effect next) w) :
      Calls p v (next w) (effect w)

/-- Some calls leave the result of the whole script as it is. -/
theorem Calls.run_eq {p q : Script σ ρ} {v w : σ} (h : Calls p v q w) : p.run v = q.run w := by
  induction h with
  | refl => rfl
  | tail _ ih => exact ih

/-! ## Every moment of a run -/

/-- `I` holds at every moment of a run of the script on a value. -/
def Always (I : σ → Prop) : Script σ ρ → σ → Prop
  | done _, v => I v
  | call effect next, v => I v ∧ Always I (next v) (effect v)

variable {I : σ → Prop}

theorem Always.start {p : Script σ ρ} {v : σ} (h : Always I p v) : I v := by
  cases p with
  | done r => exact h
  | call effect next => exact h.1

theorem Always.imp {J : σ → Prop} {p : Script σ ρ} {v : σ} (h : Always I p v) (hIJ : ∀ v, I v → J v) :
    Always J p v := by
  induction p generalizing v with
  | done r => exact hIJ v h
  | call effect next ih => exact ⟨hIJ v h.1, ih v h.2⟩

/-- Wherever the run is stopped. -/
theorem Calls.always {p q : Script σ ρ} {v w : σ} (h : Calls p v q w) (hp : Always I p v) : Always I q w := by
  induction h with
  | refl => exact hp
  | tail _ ih => exact ih.2

@[simp] theorem always_pure (a : α) (v : σ) : Always I (pure a : Script σ α) v ↔ I v := Iff.rfl

@[simp] theorem always_ofCall (op : σ → α × σ) (v : σ) : Always I (ofCall op) v ↔ I v ∧ I (op v).2 := Iff.rfl

theorem always_bind (p : Script σ α) (k : α → Script σ β) (v : σ) :
    Always I (p >>= k) v ↔ Always I p v ∧ Always I (k (p.run v).1) (p.run v).2 := by
  show Always I (p.bind k) v ↔ _
  induction p generalizing v with
  | done a =>
    refine ⟨fun h => ⟨Always.start h, h⟩, fun h => h.2⟩
  | call effect next ih =>
    show I v ∧ Always I ((next v).bind k) (effect v) ↔ (I v ∧ Always I (next v) (effect v)) ∧ _
    rw [ih v (effect v), and_assoc]
    rfl

theorem Always.finish {p : Script σ ρ} {v : σ} (h : Always I p v) : I (p.run v).2 := by
  induction p generalizing v with
  | done r => exact h
  | call effect next ih => exact ih v h.2

end Script
