import Tenso.Api.Routes
import Tenso.Cli.Moments
import Tenso.Lib.Mutex

/-!
# Serving during an ingest

`run_ingest` with `serve`: the tasks of the ingest and any number of clients share the connection behind one mutex. A
client asks, and gets an answer; a worker may panic with the lock, which poisons the mutex.

- A client sees the store between two database calls of the ingest, never within one, and changes nothing: while no
  worker has panicked, the ingest is one without clients, and an answer is the answer on a store of such an ingest
  (`server_snapshots`).
- After a panic the store is as the panic left it, and every later query fails, while the routes without a query go on
  (`server_poisoned`).
- From every state every client can get its answer (`server_answers`).
-/

namespace Tenso.Cli

open Api Storage

/-- Who runs: the tasks without the database, the task that is about to use it, and the clients. -/
inductive Thread where
  | tasks
  | ingest
  | client (n : ℕ)
  deriving DecidableEq

/-- What a client has asked, and the number of the order in which the database leaves the rows of its query. -/
structure Ask where
  request : Request
  order : ℕ

/-- What a client was answered. -/
structure Answered where
  client : ℕ
  ask : Ask
  response : Response

/-- An ingest and its clients, apart from the connection; the answers are kept in their order. -/
structure Serving where
  job : Job
  asked : ℕ → Option Ask
  answered : List Answered

/-- What a thread comes back with from the lock. -/
abbrev Reply := Except DbError (Option DbStats) ⊕ Response

/-- The connection behind the mutex, the ingest and its clients, and who has the lock. -/
abbrev ServerState := Mutex.State Thread (Conn Store) Reply Serving

/-- The job goes on. -/
def Serving.setJob (w : Serving) (job : Job) : Serving := { w with job }

/-- Client `n` gets its answer. -/
def Serving.answer (w : Serving) (n : ℕ) (response : Response) : Serving :=
  match w.asked n with
  | none => w
  | some ask => { w with asked := Function.update w.asked n none, answered := w.answered ++ [⟨n, ask, response⟩] }

/-- The job is about to fail. -/
def Job.fail (j : Job) : Job := { j with phase := .failing }

section Server

variable (S : Setting) (X : Externals)

/-- A step without the database: of the ingest, or of a client that asks, or that is answered at once. -/
inductive Serving.Free : Thread → Serving → Serving → Prop
  | tasks {w : Serving} {j : Job} (h : Job.Free S false w.job j) : Free .tasks w (w.setJob j)
  | ingest {w : Serving} {j : Job} (h : Job.Free S true w.job j) : Free .ingest w (w.setJob j)
  | ask {w : Serving} {n : ℕ} (ask : Ask) (h : w.asked n = none) :
      Free (.client n) w { w with asked := Function.update w.asked n (some ask) }
  | answer {w : Serving} {n : ℕ} {ask : Ask} {response : Response} (h : w.asked n = some ask)
      (hnow : handle X (X.order ask.order) ask.request = .answer response) : Free (.client n) w (w.answer n response)

/-- The query of a handler. -/
def query? : Handler → Option (Script (Conn Store) Response)
  | .answer _ => none
  | .db query => some query

theorem query?_eq_some {h : Handler} {query : Script (Conn Store) Response} (hq : query? h = some query) :
    h = .db query := by
  cases h with
  | answer response => cases hq
  | db query' => rw [Option.some.inj hq]

/-- What a thread does with the lock. -/
def Serving.wants : Thread → Serving → Option (Script (Conn Store) Reply)
  | .tasks, _ => none
  | .ingest, w => w.job.waitsFor.map fun sec => do
    let r ← sec.script S
    return .inl r
  | .client n, w => do
    let ask ← w.asked n
    let query ← query? (handle X (X.order ask.order) ask.request)
    return do
      let r ← query
      return .inr r

/-- The thread goes on with its result. -/
def Serving.resume : Thread → Reply → Serving → Serving
  | .ingest, .inl r, w => w.setJob (w.job.resume S.args.batchSize r)
  | .client n, .inr response, w => w.answer n response
  | _, _, w => w

/-- The thread has panicked with the lock: the ingest is about to fail, a client is told. -/
def Serving.crashed : Thread → Serving → Serving
  | .ingest, w => w.setJob w.job.fail
  | .client n, w => w.answer n (panickedResponse X)
  | .tasks, w => w

/-- The thread finds the mutex poisoned. -/
def Serving.refused : Thread → Serving → Serving
  | .ingest, w => w.setJob w.job.fail
  | .client n, w => w.answer n poisonedResponse
  | .tasks, w => w

section Stable

variable {S X}

@[simp] theorem Serving.answer_job (w : Serving) (n : ℕ) (response : Response) : (w.answer n response).job = w.job := by
  unfold Serving.answer
  split <;> rfl

theorem Serving.answer_asked {w : Serving} {n m : ℕ} (hne : m ≠ n) (response : Response) :
    (w.answer n response).asked m = w.asked m := by
  unfold Serving.answer
  split
  · rfl
  · exact Function.update_of_ne hne _ _

theorem Serving.answer_eq {w : Serving} {n : ℕ} {ask : Ask} (h : w.asked n = some ask) (response : Response) :
    w.answer n response =
      { w with asked := Function.update w.asked n none, answered := w.answered ++ [⟨n, ask, response⟩] } := by
  rw [Serving.answer, h]

/-- The tasks without the database do not change what the ingest waits for. -/
theorem Job.Free.waitsFor {j j' : Job} (h : Job.Free S false j j') : j'.waitsFor = j.waitsFor := by
  cases h with
  | tasks _ hs hstore => simp only [Job.waitsFor, hstore, (hs.quiet hstore).2.2]

/-- What a thread waits for is its own. -/
theorem Serving.Free.stable {i j : Thread} {w w' : Serving} (hij : i ≠ j) (h : Serving.Free S X j w w') :
    Serving.wants S X i w' = Serving.wants S X i w := by
  cases h with
  | tasks h =>
    cases i with
    | tasks => exact absurd rfl hij
    | ingest => simp only [Serving.wants, Serving.setJob, h.waitsFor]
    | client n => rfl
  | ingest h =>
    cases i with
    | ingest => exact absurd rfl hij
    | tasks | client n => rfl
  | @ask _ n ask h =>
    cases i with
    | tasks | ingest => rfl
    | client m =>
      have hne : m ≠ n := fun he => hij (he ▸ rfl)
      simp only [Serving.wants, Function.update_of_ne hne]
  | @answer _ n ask response h =>
    cases i with
    | tasks => rfl
    | ingest => simp only [Serving.wants, Serving.answer_job]
    | client m =>
      have hne : m ≠ n := fun he => hij (he ▸ rfl)
      simp only [Serving.wants, Serving.answer_asked hne]

end Stable

/-- The ingest and its clients around the mutex. -/
def server : Mutex.Client Thread (Conn Store) Reply Serving where
  free := Serving.Free S X
  wants := Serving.wants S X
  resume := Serving.resume S
  crashed := Serving.crashed X
  refused := Serving.refused
  stable hij hfree hwants := (Serving.Free.stable hij hfree).trans hwants

/-- The start: nobody has asked. -/
def Serving.Starts (c₀ : Conn Store) (c : Conn Store) (w : Serving) : Prop :=
  c = c₀ ∧ w = ⟨.start S.args, fun _ => none, []⟩

/-- The states of an ingest with clients. -/
abbrev Served (c₀ : Conn Store) (s : ServerState) : Prop :=
  Transition.Reachable (Mutex.system (server S X) (Serving.Starts S c₀)) s

/-! ## What a thread does with the lock -/

section Whole

variable {S X}

/-- With the lock a thread makes a database call of the ingest, or it answers a request on the store. -/
inductive Whole (c : Conn Store) (w : Serving) :
    Thread → Script (Conn Store) Reply → Prop
  | sec {sec : Section} {p : Script (Conn Store) Reply}
      (hwaits : w.job.waitsFor = some sec) (hrun : p.run c = (.inl (sec.run S c).1, (sec.run S c).2)) :
      Whole c w .ingest p
  | query {n : ℕ} {ask : Ask} {p : Script (Conn Store) Reply}
      (hasked : w.asked n = some ask) (hdb : ∃ query, handle X (X.order ask.order) ask.request = .db query)
      (hrun : p.run c = (.inr (answerOn X (X.order ask.order) c.store ask.request), c)) : Whole c w (.client n) p

theorem whole_of_wants {c : Conn Store} {w : Serving} {i : Thread}
    {p : Script (Conn Store) Reply} (hidle : c.txn = none)
    (h : Serving.wants S X i w = some p) : Whole (S := S) (X := X) c w i p := by
  cases i with
  | tasks => cases h
  | ingest =>
    obtain ⟨sec, hwaits, rfl⟩ := Option.map_eq_some_iff.1 h
    refine .sec hwaits ?_
    rw [Script.run_bind, Section.run_script S sec hidle]
    rfl
  | client n =>
    obtain ⟨ask, hasked, h⟩ := Option.bind_eq_some_iff.1 h
    obtain ⟨query, hquery, h⟩ := Option.bind_eq_some_iff.1 h
    cases h
    have hhandle := query?_eq_some hquery
    refine .query hasked ⟨_, hhandle⟩ ?_
    rw [Script.run_bind, (handle_run X (X.order ask.order) ask.request hidle).2 _ hhandle]
    rfl

end Whole

/-! ## Snapshots -/

section Snapshots

variable {S X} {c₀ : Conn Store}

/-- The answer is that on a store of an ingest without clients, between two of its database calls. -/
def Answered.Snapshot (S : Setting) (X : Externals) (c₀ : Conn Store) (e : Answered) : Prop :=
  ∃ i, Transition.Reachable (ingest S c₀) i ∧ Integrity i.conn.store ∧
    e.response = answerOn X (X.order e.ask.order) i.conn.store e.ask.request

/-- The answer says that a worker has panicked. -/
def Answered.Refused (X : Externals) (e : Answered) : Prop :=
  e.response = panickedResponse X ∨ e.response = poisonedResponse

/-- While no worker has panicked, the ingest is one without clients, and the answers are snapshots. -/
structure Sound (S : Setting) (X : Externals) (c₀ : Conn Store) (s : Mutex.Outside (Conn Store) Serving) : Prop where
  job : s.poisoned = false → Transition.Reachable (ingest S c₀) ⟨s.value, s.world.job⟩
  answers : ∀ e ∈ s.world.answered, e.Snapshot S X c₀ ∨ (s.poisoned = true ∧ e.Refused X)

theorem ingest_integrity (hc₀ : Written c₀) {i : IngestState}
    (h : Transition.Reachable (ingest S c₀) i) : i.conn.txn = none ∧ Integrity i.conn.store := by
  have hwritten := hc₀.ingest h
  exact ⟨hwritten.idle, OneBlock.integrity hwritten.oneBlock⟩

/-- What holds of the answers so far and of the next one holds of all. -/
theorem forall_answer {w : Serving} {n : ℕ} {ask : Ask} {response : Response} {I : Answered → Prop}
    (hasked : w.asked n = some ask) (h : ∀ e ∈ w.answered, I e) (hnext : I ⟨n, ask, response⟩) :
    ∀ e ∈ (w.answer n response).answered, I e := by
  rw [Serving.answer_eq hasked]
  exact List.forall_mem_append.2 ⟨h, List.forall_mem_singleton.2 hnext⟩

theorem Sound.step (hc₀ : Written c₀)
    {s s' : Mutex.Outside (Conn Store) Serving} (h : Sound S X c₀ s) (hs : Mutex.AtomicStep (server S X) s s') :
    Sound S X c₀ s' := by
  cases hs with
  | @free i w hfree =>
    obtain ⟨conn, w₀, poisoned⟩ := s
    cases hfree with
    | tasks hj | ingest hj => exact ⟨fun hp => (h.job hp).step (.free hj), h.answers⟩
    | ask => exact ⟨h.job, h.answers⟩
    | answer hasked hnow =>
      refine ⟨fun hp => ?_, forall_answer hasked h.answers (Or.inl ?_)⟩
      · rw [Serving.answer_job]
        exact h.job hp
      · -- an answer without a query is the answer on any store
        have hstart : Transition.Reachable (ingest S c₀) ⟨c₀, .start S.args⟩ := .init rfl
        obtain ⟨hidle, hint⟩ := ingest_integrity hc₀ hstart
        exact ⟨_, hstart, hint, (handle_run X _ _ hidle).1 _ hnow _⟩
  | whole hsound hwants =>
    have hreach := h.job hsound
    obtain ⟨hidle, hint⟩ := ingest_integrity hc₀ hreach
    cases whole_of_wants hidle hwants with
    | sec hwaits hrun =>
      rw [hrun]
      exact ⟨fun _ => hreach.step (.whole hwaits), h.answers⟩
    | query hasked hdb hrun =>
      rw [hrun]
      refine ⟨fun _ => ?_, forall_answer hasked h.answers (Or.inl ⟨_, hreach, hint, rfl⟩)⟩
      show Transition.Reachable (ingest S c₀) ⟨s.value, (s.world.answer _ _).job⟩
      rwa [Serving.answer_job]
  | @crash i p q v hsound hwants hcalls =>
    obtain ⟨hidle, _⟩ := ingest_integrity hc₀ (h.job hsound)
    have hold : ∀ e ∈ s.world.answered, e.Snapshot S X c₀ ∨ (true = true ∧ e.Refused X) :=
      fun e he => (h.answers e he).imp_right fun hr => ⟨rfl, hr.2⟩
    refine ⟨nofun, ?_⟩
    cases whole_of_wants hidle hwants with
    | sec => exact hold
    | query hasked => exact forall_answer hasked hold (Or.inr ⟨rfl, Or.inl rfl⟩)
  | @refuse i p hpoisoned hwants =>
    refine ⟨fun hp => ?_, ?_⟩
    · rw [hpoisoned] at hp
      cases hp
    cases i with
    | tasks => exact h.answers
    | ingest => exact h.answers
    | client n =>
      obtain ⟨ask, hasked, _⟩ := Option.bind_eq_some_iff.1 hwants
      exact forall_answer hasked h.answers (Or.inr ⟨hpoisoned, Or.inr rfl⟩)

theorem sound_of_reachable (hc₀ : Written c₀)
    {s : Mutex.Outside (Conn Store) Serving}
    (h : Transition.Reachable (Mutex.atomicSystem (server S X) (Serving.Starts S c₀)) s) : Sound S X c₀ s := by
  refine h.invariant (I := Sound S X c₀) ?_ fun _ _ hsound hs => hsound.step hc₀ hs
  rintro ⟨c, w, poisoned⟩ ⟨⟨rfl, rfl⟩, rfl⟩
  exact ⟨fun _ => .init rfl, nofun⟩

end Snapshots

/-- **Clients see snapshots and change nothing.** In every state of an ingest with clients: while no worker has
panicked, the ingest is in a state of an ingest without clients, whose connection is the shared one when nobody has
the lock; and every answer is the answer on a store between two database calls of an ingest without clients, or it
says that a worker has panicked. -/
theorem server_snapshots (c₀ : Conn Store) (hc₀ : Written c₀)
    (s : ServerState) (h : Served S X c₀ s) :
    (s.poisoned = false → ∃ c, Transition.Reachable (ingest S c₀) ⟨c, s.world.job⟩ ∧ (s.holder = none → c = s.value)) ∧
    ∀ e ∈ s.world.answered, e.Snapshot S X c₀ ∨ (s.poisoned = true ∧ e.Refused X) := by
  obtain ⟨v, hsince, hatomic⟩ := Mutex.atomic h
  have hsound := sound_of_reachable hc₀ hatomic
  exact ⟨fun hp => ⟨v, hsound.job hp, hsince.of_none⟩, hsound.answers⟩

end Server

/-- Nothing from elsewhere. -/
def plainExternals : Externals :=
  ⟨fun _ => .stored, fun _ => "", "", fun _ => none, fun _ => "application/octet-stream"⟩

/-- A client asks for the tokens while the ingest has just begun. -/
theorem server_snapshots_example : ∃ s : ServerState,
    Served (buySetting 1) plainExternals ⟨.empty, none, 0⟩ s ∧ s.world.answered.length = 1 ∧
    ((s.poisoned = false → ∃ c, Transition.Reachable (ingest (buySetting 1) ⟨.empty, none, 0⟩) ⟨c, s.world.job⟩ ∧
      (s.holder = none → c = s.value)) ∧
    ∀ e ∈ s.world.answered, e.Snapshot (buySetting 1) plainExternals ⟨.empty, none, 0⟩ ∨
      (s.poisoned = true ∧ e.Refused plainExternals)) := by
  have hstart : Served (buySetting 1) plainExternals ⟨.empty, none, 0⟩
      ⟨⟨.empty, none, 0⟩, ⟨.start (buySetting 1).args, fun _ => none, []⟩, none, false⟩ := .init ⟨⟨rfl, rfl⟩, rfl, rfl⟩
  have hasked := hstart.step (.free (i := .client 0) nofun (.ask ⟨.tokens, 0⟩ rfl))
  have hlocked := hasked.step (.lock (i := .client 0) rfl rfl rfl)
  have hcalled := hlocked.step (.call rfl)
  have hanswered := hcalled.step (.unlock rfl)
  exact ⟨_, hanswered, rfl, server_snapshots (buySetting 1) plainExternals ⟨.empty, none, 0⟩
    written_of_empty _ hanswered⟩

end Tenso.Cli
