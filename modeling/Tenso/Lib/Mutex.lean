import Mathlib.Logic.Relation
import Tenso.Lib.Script
import Tenso.Lib.Transition

/-!
# A value behind a mutex

Threads share a value behind a mutex. With the lock, a thread runs a script on the value, one call at a time; between
any two calls the other threads may go on with their own work, but not touch the value. A thread that panics in its
script leaves the value as it is and poisons the mutex: from then on no thread gets the lock, and each is told so.

- `system` is this machine, `atomicSystem` one in which a thread runs its whole script in one step.
- **The lock makes scripts atomic** (`atomic`): whatever is not behind the lock is, at any time, as in a run in which no
  script is ever interrupted; and so is the value whenever nobody holds the lock.
- A poisoned mutex stays poisoned, and the value behind it never changes again (`Steps.poisoned`).
- A thread that waits can be served next: once the holder has run the rest of its script, and before any other thread
  gets the lock (`ServedNext.steps`).
-/

namespace Mutex

open Transition

/-- What the threads `ι` do around the mutex; `τ` is everything that is not behind it. -/
structure Client (ι σ ρ τ : Type) where
  /-- a step of a thread on its own -/
  free : ι → τ → τ → Prop
  /-- the script of a thread that waits for the lock -/
  wants : ι → τ → Option (Script σ ρ)
  /-- a thread goes on with the result of its script -/
  resume : ι → ρ → τ → τ
  /-- a thread panics in its script -/
  crashed : ι → τ → τ
  /-- a thread that waits is told that the mutex is poisoned -/
  refused : ι → τ → τ
  /-- what a thread waits for does not depend on the steps of the others -/
  stable : ∀ {i j : ι} {t t' : τ} {p : Script σ ρ}, i ≠ j → free j t t' → wants i t = some p → wants i t' = some p

variable {ι σ ρ τ : Type}

/-- The value, the rest of the world, the thread with the lock and what is left of its script, and whether the mutex is
poisoned. -/
structure State (ι σ ρ τ : Type) where
  value : σ
  world : τ
  holder : Option (ι × Script σ ρ)
  poisoned : Bool

/-- One step of one thread. -/
inductive Step (C : Client ι σ ρ τ) : State ι σ ρ τ → State ι σ ρ τ → Prop
  /-- a thread without the lock goes on -/
  | free {s : State ι σ ρ τ} {i : ι} {t : τ} (hother : ∀ h ∈ s.holder, i ≠ h.1) (h : C.free i s.world t) :
      Step C s { s with world := t }
  /-- a thread takes the lock -/
  | lock {s : State ι σ ρ τ} {i : ι} {p : Script σ ρ} (hfree : s.holder = none) (hsound : s.poisoned = false)
      (hwants : C.wants i s.world = some p) : Step C s { s with holder := some (i, p) }
  /-- the thread with the lock makes a call -/
  | call {s : State ι σ ρ τ} {i : ι} {effect : σ → σ} {next : σ → Script σ ρ}
      (hholds : s.holder = some (i, .call effect next)) :
      Step C s { s with value := effect s.value, holder := some (i, next s.value) }
  /-- its script is over: it releases the lock and goes on -/
  | unlock {s : State ι σ ρ τ} {i : ι} {r : ρ} (hholds : s.holder = some (i, .done r)) :
      Step C s { s with world := C.resume i r s.world, holder := none }
  /-- it panics -/
  | crash {s : State ι σ ρ τ} {i : ι} {p : Script σ ρ} (hholds : s.holder = some (i, p)) :
      Step C s { s with world := C.crashed i s.world, holder := none, poisoned := true }
  /-- a thread finds the mutex poisoned -/
  | refuse {s : State ι σ ρ τ} {i : ι} {p : Script σ ρ} (hfree : s.holder = none) (hpoisoned : s.poisoned = true)
      (hwants : C.wants i s.world = some p) : Step C s { s with world := C.refused i s.world }

/-- The states before anyone has taken the lock. -/
def Starts (init : σ → τ → Prop) (s : State ι σ ρ τ) : Prop :=
  init s.value s.world ∧ s.holder = none ∧ s.poisoned = false

/-- The machine. -/
def system (C : Client ι σ ρ τ) (init : σ → τ → Prop) : System (State ι σ ρ τ) :=
  { init := Starts init, step := Step C }

/-! ## Scripts in one step -/

/-- A state outside all scripts. -/
structure Outside (σ τ : Type) where
  value : σ
  world : τ
  poisoned : Bool

/-- A step of the machine whose scripts are never interrupted. -/
inductive AtomicStep (C : Client ι σ ρ τ) : Outside σ τ → Outside σ τ → Prop
  | free {s : Outside σ τ} {i : ι} {t : τ} (h : C.free i s.world t) : AtomicStep C s { s with world := t }
  /-- a whole script -/
  | whole {s : Outside σ τ} {i : ι} {p : Script σ ρ} (hsound : s.poisoned = false)
      (hwants : C.wants i s.world = some p) :
      AtomicStep C s { s with value := (p.run s.value).2, world := C.resume i (p.run s.value).1 s.world }
  /-- a script up to a panic -/
  | crash {s : Outside σ τ} {i : ι} {p q : Script σ ρ} {v : σ} (hsound : s.poisoned = false)
      (hwants : C.wants i s.world = some p) (hcalls : Script.Calls p s.value q v) :
      AtomicStep C s { value := v, world := C.crashed i s.world, poisoned := true }
  | refuse {s : Outside σ τ} {i : ι} {p : Script σ ρ} (hpoisoned : s.poisoned = true)
      (hwants : C.wants i s.world = some p) : AtomicStep C s { s with world := C.refused i s.world }

/-- The machine with atomic scripts. -/
def atomicSystem (C : Client ι σ ρ τ) (init : σ → τ → Prop) : System (Outside σ τ) where
  init s := init s.value s.world ∧ s.poisoned = false
  step := AtomicStep C

/-- The state as it was when the lock was taken: `v` was the value. -/
inductive Since (C : Client ι σ ρ τ) (s : State ι σ ρ τ) : σ → Prop
  | free (hfree : s.holder = none) : Since C s s.value
  | held {v : σ} {i : ι} {p q : Script σ ρ} (hholds : s.holder = some (i, q)) (hsound : s.poisoned = false)
      (hwants : C.wants i s.world = some p) (hcalls : Script.Calls p v q s.value) : Since C s v

theorem Since.of_none {C : Client ι σ ρ τ} {s : State ι σ ρ τ} {v : σ} (h : Since C s v) (hfree : s.holder = none) :
    v = s.value := by
  cases h with
  | free => rfl
  | held hholds =>
    rw [hfree] at hholds
    cases hholds

theorem Since.of_some {C : Client ι σ ρ τ} {s : State ι σ ρ τ} {v : σ} {i : ι} {q : Script σ ρ} (h : Since C s v)
    (hholds : s.holder = some (i, q)) :
    s.poisoned = false ∧ ∃ p, C.wants i s.world = some p ∧ Script.Calls p v q s.value := by
  cases h with
  | free hfree =>
    rw [hfree] at hholds
    cases hholds
  | held hholds' hsound hwants hcalls =>
    rw [hholds, Option.some.injEq, Prod.mk.injEq] at hholds'
    obtain ⟨rfl, rfl⟩ := hholds'
    exact ⟨hsound, _, hwants, hcalls⟩

/-- One step of the machine is at most one step of the machine with atomic scripts. -/
theorem Step.atomic {C : Client ι σ ρ τ} {s s' : State ι σ ρ τ} {v : σ} (hs : Step C s s') (hv : Since C s v) :
    ∃ v', Since C s' v' ∧ (AtomicStep C ⟨v, s.world, s.poisoned⟩ ⟨v', s'.world, s'.poisoned⟩ ∨
      (v' = v ∧ s'.world = s.world ∧ s'.poisoned = s.poisoned)) := by
  cases hs with
  | @free i t hother h =>
    refine ⟨v, ?_, Or.inl (.free h)⟩
    cases hv with
    | free hfree => exact .free hfree
    | held hholds hsound hwants hcalls =>
      exact .held hholds hsound (C.stable (Ne.symm (hother _ hholds)) h hwants) hcalls
  | lock hfree hsound hwants =>
    obtain rfl := hv.of_none hfree
    exact ⟨_, Since.held rfl hsound hwants .refl, Or.inr ⟨rfl, rfl, rfl⟩⟩
  | call hholds =>
    obtain ⟨hsound, p, hwants, hcalls⟩ := hv.of_some hholds
    exact ⟨v, .held rfl hsound hwants hcalls.tail, Or.inr ⟨rfl, rfl, rfl⟩⟩
  | @unlock i r hholds =>
    obtain ⟨hsound, p, hwants, hcalls⟩ := hv.of_some hholds
    have hrun : p.run v = (r, s.value) := hcalls.run_eq
    have hstep := AtomicStep.whole (s := ⟨v, s.world, s.poisoned⟩) hsound hwants
    rw [hrun] at hstep
    exact ⟨_, .free rfl, Or.inl hstep⟩
  | crash hholds =>
    obtain ⟨hsound, p, hwants, hcalls⟩ := hv.of_some hholds
    exact ⟨_, .free rfl, Or.inl (.crash hsound hwants hcalls)⟩
  | refuse hfree hpoisoned hwants =>
    obtain rfl := hv.of_none hfree
    exact ⟨_, .free hfree, Or.inl (.refuse hpoisoned hwants)⟩

/-- The lock makes scripts atomic: everything that is not behind the lock is as in a run without interrupted scripts,
and so is the value when nobody holds the lock. -/
theorem atomic {C : Client ι σ ρ τ} {init : σ → τ → Prop} {s : State ι σ ρ τ} (h : Reachable (system C init) s) :
    ∃ v, Since C s v ∧ Reachable (atomicSystem C init) ⟨v, s.world, s.poisoned⟩ := by
  induction h with
  | @init s h => exact ⟨s.value, .free h.2.1, .init ⟨h.1, h.2.2⟩⟩
  | @step s s' _ hs ih =>
    obtain ⟨v, hv, hreach⟩ := ih
    obtain ⟨v', hv', hstep | ⟨rfl, hw, hp⟩⟩ := hs.atomic hv
    · exact ⟨v', hv', hreach.step hstep⟩
    · refine ⟨v', hv', ?_⟩
      rwa [hw, hp]

/-! ## Poison -/

/-- Runs of the machine. -/
abbrev Steps (C : Client ι σ ρ τ) : State ι σ ρ τ → State ι σ ρ τ → Prop := Relation.ReflTransGen (Step C)

theorem Steps.reachable {C : Client ι σ ρ τ} {init : σ → τ → Prop} {s s' : State ι σ ρ τ} (hs : Steps C s s')
    (h : Reachable (system C init) s) : Reachable (system C init) s' := h.trans hs

/-- A mutex is poisoned when it is free. -/
theorem free_of_poisoned {C : Client ι σ ρ τ} {init : σ → τ → Prop} {s : State ι σ ρ τ}
    (h : Reachable (system C init) s) (hpoisoned : s.poisoned = true) : s.holder = none := by
  obtain ⟨v, hv, _⟩ := atomic h
  cases hv with
  | free hfree => exact hfree
  | held _ hsound =>
    rw [hpoisoned] at hsound
    cases hsound

/-- **Poison is for ever.** After a panic the value stays as the panic left it, the threads that ask for it are
refused, and the others go on: what holds of the world then, and is kept by their own steps and by refusals, goes on
to hold. -/
theorem Steps.poisoned {C : Client ι σ ρ τ} {s s' : State ι σ ρ τ} (h : Steps C s s') (hfree : s.holder = none)
    (hpoisoned : s.poisoned = true) {I : τ → Prop} (hI : I s.world)
    (hown : ∀ {i t t'}, C.free i t t' → I t → I t')
    (hrefused : ∀ {i p t}, C.wants i t = some p → I t → I (C.refused i t)) :
    s'.poisoned = true ∧ s'.holder = none ∧ s'.value = s.value ∧ I s'.world := by
  induction h with
  | refl => exact ⟨hpoisoned, hfree, rfl, hI⟩
  | @tail u u' _ hs ih =>
    obtain ⟨hp, hf, hv, hw⟩ := ih
    cases hs with
    | free _ h => exact ⟨hp, hf, hv, hown h hw⟩
    | lock _ hsound =>
      rw [hp] at hsound
      cases hsound
    | call hholds | unlock hholds | crash hholds =>
      rw [hf] at hholds
      cases hholds
    | refuse _ _ hwants => exact ⟨hp, hf, hv, hrefused hwants hw⟩

/-! ## Progress -/

/-- The thread with the lock can bring its script to the end, whatever the others wait for. -/
theorem exists_unlock (C : Client ι σ ρ τ) (t : τ) (b : Bool) (i : ι) (p : Script σ ρ) (v : σ) :
    Steps C ⟨v, t, some (i, p), b⟩ ⟨(p.run v).2, C.resume i (p.run v).1 t, none, b⟩ := by
  induction p generalizing v with
  | done r => exact .single (.unlock rfl)
  | call effect next ih => exact .head (.call rfl) (ih v (effect v))

/-- The thread with the lock has run the rest of its script, and released the lock. -/
def State.released (C : Client ι σ ρ τ) (s : State ι σ ρ τ) : State ι σ ρ τ :=
  match s.holder with
  | none => s
  | some (i, p) => { s with value := (p.run s.value).2, world := C.resume i (p.run s.value).1 s.world, holder := none }

/-- Thread `i` has run its script `p` with the free lock, or has been refused. -/
def State.served (C : Client ι σ ρ τ) (i : ι) (p : Script σ ρ) (s : State ι σ ρ τ) : State ι σ ρ τ :=
  if s.poisoned then { s with world := C.refused i s.world }
  else { s with value := (p.run s.value).2, world := C.resume i (p.run s.value).1 s.world }

theorem State.released_holder (C : Client ι σ ρ τ) (s : State ι σ ρ τ) : (s.released C).holder = none := by
  unfold State.released
  split
  · assumption
  · rfl

theorem steps_released (C : Client ι σ ρ τ) (s : State ι σ ρ τ) : Steps C s (s.released C) := by
  obtain ⟨v, t, holder, b⟩ := s
  cases holder with
  | none => exact .refl
  | some held => exact exists_unlock C t b held.1 held.2 v

theorem steps_served {C : Client ι σ ρ τ} {s : State ι σ ρ τ} (hfree : s.holder = none) {i : ι} {p : Script σ ρ}
    (hwants : C.wants i s.world = some p) : Steps C s (s.served C i p) := by
  obtain ⟨v, t, holder, b⟩ := s
  obtain rfl : holder = none := hfree
  cases b with
  | false => exact .head (.lock rfl rfl hwants) (exists_unlock C t false i p v)
  | true => exact .single (.refuse rfl rfl hwants)

/-- Thread `i` is served next: the thread with the lock runs the rest of its script, and if that is another one,
thread `i` then runs its own, or is refused. -/
inductive ServedNext (C : Client ι σ ρ τ) (i : ι) (s : State ι σ ρ τ) : State ι σ ρ τ → Prop
  | own {p : Script σ ρ} (hholds : s.holder = some (i, p)) : ServedNext C i s (s.released C)
  | next {p : Script σ ρ} (hother : ∀ h ∈ s.holder, i ≠ h.1) (hwants : C.wants i (s.released C).world = some p) :
      ServedNext C i s ((s.released C).served C i p)

theorem ServedNext.steps {C : Client ι σ ρ τ} {i : ι} {s s' : State ι σ ρ τ} (h : ServedNext C i s s') :
    Steps C s s' := by
  cases h with
  | own => exact steps_released C s
  | next _ hwants => exact (steps_released C s).trans (steps_served (s.released_holder C) hwants)

end Mutex
