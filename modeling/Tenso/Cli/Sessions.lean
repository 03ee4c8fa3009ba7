import Tenso.Cli.Server

/-!
# Sessions

A database outlives the program: each run opens the file that the last one has left, ingests a range and serves
clients, and ends when it is done, when it fails, or when it is killed, between two database calls or within one. What
is committed stays, and an open transaction is gone.

- What the database calls keep holds in a file at any time of its life (`sessions_keep`).
- An ingest without clients is a session of its own (`served_of_ingest`).
-/

namespace Tenso.Cli

open Api Storage

/-! ## Every moment of an ingest with clients -/

section Moments

variable {S : Setting} {X : Externals} {c₀ : Conn Store} {J : Store → Prop}

/-- At every moment of what a thread does with the lock. -/
theorem always_of_wants {c : Conn Store} {w : Serving} {i : Thread} {p : Script (Conn Store) Reply}
    (hJ : KeptByCalls S J)
    (hreach : Transition.Reachable (ingest S c₀) ⟨c, w.job⟩) (hidle : c.txn = none) (h0 : J c.store)
    (h : Serving.wants S X i w = some p) : p.Always (fun c => J c.store) c := by
  cases i with
  | tasks => cases h
  | ingest =>
    obtain ⟨sec, hwaits, rfl⟩ := Option.map_eq_some_iff.1 h
    have hsec := Section.always hJ hidle h0 (waitsFor_own hreach hwaits)
    exact (Script.always_bind _ _ _).2 ⟨hsec, hsec.finish⟩
  | client n =>
    obtain ⟨ask, _, h⟩ := Option.bind_eq_some_iff.1 h
    obtain ⟨query, hquery, h⟩ := Option.bind_eq_some_iff.1 h
    cases h
    have hsame := handle_always X _ _ c (query?_eq_some hquery)
    have hkept : query.Always (fun c => J c.store) c := hsame.imp fun c' hc => by rwa [hc]
    exact (Script.always_bind _ _ _).2 ⟨hkept, hkept.finish⟩

/-- At every moment of an ingest with clients, whoever has the lock and also after a panic. -/
theorem served_keeps {s : ServerState} (hc₀ : Written c₀) (hJ : KeptByCalls S J) (h0 : J c₀.store)
    (h : Served S X c₀ s) :
    J s.value.store := by
  obtain ⟨v, hsince, hatomic⟩ := Mutex.atomic h
  have hinv : Sound S X c₀ ⟨v, s.world, s.poisoned⟩ ∧ J v.store := by
    refine hatomic.invariant (I := fun s => Sound S X c₀ s ∧ J s.value.store) ?_ ?_
    · rintro ⟨c, w, poisoned⟩ ⟨⟨rfl, rfl⟩, rfl⟩
      exact ⟨⟨fun _ => .init rfl, nofun⟩, h0⟩
    · rintro s s' ⟨hsound, hkept⟩ hs
      refine ⟨hsound.step hc₀ hs, ?_⟩
      cases hs with
      | free | refuse => exact hkept
      | whole hp hwants =>
        have hreach := hsound.job hp
        exact (always_of_wants hJ hreach (hc₀.ingest hreach).idle hkept hwants).finish
      | crash hp hwants hcalls =>
        have hreach := hsound.job hp
        exact (hcalls.always (always_of_wants hJ hreach (hc₀.ingest hreach).idle hkept hwants)).start
  obtain ⟨hsound, hkept⟩ := hinv
  cases hsince with
  | free => exact hkept
  | held _ hp hwants hcalls =>
    have hreach := hsound.job hp
    exact (hcalls.always (always_of_wants hJ hreach (hc₀.ingest hreach).idle hkept hwants)).start

/-- An answer is that on a store of the ingest, or it says that a worker has panicked. -/
theorem answered_keeps {s : ServerState} (hc₀ : Written c₀) (hJ : KeptByCalls S J) (h0 : J c₀.store)
    (h : Served S X c₀ s) {e : Answered} (he : e ∈ s.world.answered) :
    e.Refused X ∨ ∃ i, Transition.Reachable (ingest S c₀) i ∧ J i.conn.store ∧
      e.response = answerOn X (X.order e.ask.order) i.conn.store e.ask.request := by
  obtain ⟨v, _, hatomic⟩ := Mutex.atomic h
  rcases (sound_of_reachable hc₀ hatomic).answers e he with ⟨i, hi, _, hresponse⟩ | ⟨_, hrefused⟩
  · exact Or.inr ⟨i, hi, (ingest_keeps hJ hc₀.idle h0 hi).2, hresponse⟩
  · exact Or.inl hrefused

/-- An answer with data is not a refusal. -/
theorem Answered.Refused.body {e : Answered} (h : e.Refused X) : ∃ message, e.response.body = .text message :=
  h.elim (fun h => ⟨_, by rw [h]; rfl⟩) fun h => ⟨_, by rw [h]; rfl⟩

end Moments

/-! ## The life of a database -/

/-- The sessions of a database that starts with `st₀`, with settings in `P`: each runs on the store that the last one
has committed, up to any moment. -/
def sessions (P : Setting → Prop) (st₀ : Store) : Transition.System Store where
  init st := st = st₀
  step st st' := ∃ S X s, P S ∧ Served S X ⟨st, none, 0⟩ s ∧ s.value.store = st'

/-- What the database calls keep holds at any time in the life of a database. -/
theorem sessions_keep {P : Setting → Prop} {J : Store → Prop} (hJ : ∀ S, P S → KeptByCalls S J) {st₀ st : Store}
    (hst₀ : Written ⟨st₀, none, 0⟩) (h0 : J st₀) (h : Transition.Reachable (sessions P st₀) st) :
    Written ⟨st, none, 0⟩ ∧ J st := by
  refine h.invariant (I := fun st => Written ⟨st, none, 0⟩ ∧ J st) ?_ ?_
  · rintro st rfl
    exact ⟨hst₀, h0⟩
  · rintro st st' ⟨hst, hkept⟩ ⟨S, X, s, hP, hserved, rfl⟩
    exact ⟨⟨rfl, served_keeps hst (keptByCalls_oneBlock fun _ _ => trivial) hst.oneBlock hserved⟩,
      served_keeps hst (hJ S hP) hkept hserved⟩

/-- The state of an ingest as one with clients that never ask. -/
def IngestState.alone (s : IngestState) : ServerState := ⟨s.conn, ⟨s.job, fun _ => none, []⟩, none, false⟩

/-- **An ingest without clients** is one in which none of them asks. -/
theorem served_of_ingest {S : Setting} {X : Externals} {c₀ : Conn Store} {s : IngestState} (hc₀ : Written c₀)
    (h : Transition.Reachable (ingest S c₀) s) : Served S X c₀ s.alone := by
  induction h with
  | @init s hinit =>
    obtain rfl : s = _ := hinit
    exact .init ⟨⟨rfl, rfl⟩, rfl, rfl⟩
  | @step s s' h hs ih =>
    cases hs with
    | @free own j hj =>
      cases own with
      | false => exact ih.step (.free (i := .tasks) nofun (.tasks hj))
      | true => exact ih.step (.free (i := .ingest) nofun (.ingest hj))
    | @whole sec hwaits =>
      let p : Script (Conn Store) Reply := do
        let r ← sec.script S
        return .inl r
      have hwants : (server S X).wants .ingest s.alone.world = some p := by
        show s.job.waitsFor.map _ = _
        rw [hwaits]
        rfl
      have hsteps := (Mutex.exists_unlock (server S X) s.alone.world false .ingest p s.conn).reachable
        (ih.step (.lock rfl rfl hwants))
      have hrun : p.run s.conn = (.inl (sec.run S s.conn).1, (sec.run S s.conn).2) := by
        rw [Script.run_bind, Section.run_script S sec (hc₀.ingest h).idle]
        rfl
      rw [hrun] at hsteps
      exact hsteps

end Tenso.Cli
