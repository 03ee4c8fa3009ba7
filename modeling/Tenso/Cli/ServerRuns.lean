import Tenso.Cli.Server

/-!
# What clients see over time

- **The dropdown is never stale** (`server_tokens`): what the token list has promised a client, a later candle query
  keeps, since no database call of the ingest removes a candle.
- **After a panic** (`server_poisoned`) the store stays as it is, every answer to a query is an error, and the routes
  without a query answer as before.
- **Every client can be answered next** (`server_answers`), in every state, at whatever point the ingest holds the lock.
-/

namespace Tenso.Cli

open Api Storage

/-! ## Candles only come -/

/-- No series of `st` is longer than that of `st'`. -/
def SeriesGrow (st st' : Store) : Prop :=
  ∀ mint intervalSec, (queryOhlcv mint intervalSec st).length ≤ (queryOhlcv mint intervalSec st').length

theorem queryOhlcv_candles {st st' : Store} (h : st'.candles = st.candles) (mint : String) (intervalSec : Int32) :
    queryOhlcv mint intervalSec st' = queryOhlcv mint intervalSec st := by rw [queryOhlcv, h, queryOhlcv]

/-- An upsert keeps the keys. -/
theorem seriesGrow_upsert (st : Store) (r : CandlesRow) :
    SeriesGrow st { st with candles := st.candles.upsert r } := by
  intro mint intervalSec
  have hlength (t : Table CandlesRow.key) :
      (t.rows.filter fun r => r.mint = mint ∧ r.intervalSec = intervalSec).length =
        ((t.rows.map CandlesRow.key).filter fun k => k.1 = mint ∧ k.2.1 = intervalSec).length := by
    rw [List.filter_map, List.length_map]
    rfl
  rw [queryOhlcv, queryOhlcv, List.length_map, List.length_map, List.length_insertionSort, List.length_insertionSort,
    hlength, hlength]
  refine List.Subperm.length_le (List.subperm_of_subset (st.candles.keyed.filter _) fun k hk => ?_)
  obtain ⟨hk, hseries⟩ := List.mem_filter.1 hk
  obtain ⟨x, hx, rfl⟩ := List.mem_map.1 hk
  refine List.mem_filter.2 ⟨?_, hseries⟩
  by_cases hxr : x.key = r.key
  · rw [hxr]
    exact List.mem_map_of_mem (Table.mem_upsert.2 (Or.inl rfl))
  · exact List.mem_map_of_mem (Table.mem_upsert.2 (Or.inr ⟨hx, hxr⟩))

theorem seriesGrow_upsertAll : ∀ (rows : List CandlesRow) (st : Store),
    SeriesGrow st { st with candles := st.candles.upsertAll rows }
  | [], _ => fun _ _ => Nat.le_refl _
  | r :: rows, st => fun mint intervalSec => (seriesGrow_upsert st r mint intervalSec).trans
      (seriesGrow_upsertAll rows { st with candles := st.candles.upsert r } mint intervalSec)

/-- No database call of an ingest removes a candle. -/
theorem keptByCalls_seriesGrow (S : Setting) (st₀ : Store) : KeptByCalls S (SeriesGrow st₀) where
  flush _ hflush h mint intervalSec := by
    rw [queryOhlcv_candles hflush.candles]
    exact h mint intervalSec
  status _ h := h
  candles _ _ h mint intervalSec := (h mint intervalSec).trans (seriesGrow_upsertAll _ _ mint intervalSec)

/-! ## The dropdown -/

/-- The answer is a token list that offers `n` candles of a mint. -/
def Answered.Offers (e : Answered) (mint interval : String) (n : ℕ) : Prop :=
  ∃ tokens, e.response.body = .tokens tokens ∧ ∃ t ∈ tokens, t.mint = mint ∧
    ((interval = "1m" ∧ n = t.candles1m) ∨ (interval = "5m" ∧ n = t.candles5m))

/-- What the token list `e` offers, the later answer `e'` has. -/
def Answered.Keeps (X : Externals) (e e' : Answered) : Prop :=
  ∀ mint interval n, e.Offers mint interval n → e'.ask.request = .ohlcv mint interval →
    e'.Refused X ∨ ∃ candles, e'.response = ok (.candles candles) ∧ n ≤ candles.length

section Tokens

variable {S : Setting} {X : Externals} {c₀ : Conn Store}

/-- An offer is of one of the two intervals. -/
theorem Answered.Offers.interval {e : Answered} {mint interval : String} {n : ℕ} (h : e.Offers mint interval n) :
    ∃ sec, intervalSec interval = some sec := by
  obtain ⟨_, _, _, _, _, ⟨rfl, _⟩ | ⟨rfl, _⟩⟩ := h
  · exact ⟨60, rfl⟩
  · exact ⟨300, rfl⟩

/-- Only the token list offers candles, and it offers those that are stored. -/
theorem Answered.Offers.length {e : Answered} {ord : HashMap.IterOrder} {st : Store}
    (he : e.response = answerOn X ord st e.ask.request) {mint interval : String} {n : ℕ} (h : e.Offers mint interval n)
    {sec : Int32} (hsec : intervalSec interval = some sec) : n = (queryOhlcv mint sec st).length := by
  obtain ⟨tokens, hbody, t, ht, rfl, hn⟩ := h
  rw [he] at hbody
  obtain rfl := answerOn_tokens X hbody
  obtain ⟨h1m, h5m, _⟩ := mem_queryTokens.1 ht
  rcases hn with ⟨rfl, rfl⟩ | ⟨rfl, rfl⟩
  · cases hsec
    exact h1m
  · cases hsec
    exact h5m

/-- The answers so far keep what earlier ones offer, and so does the store. -/
structure OffersKept (X : Externals) (s : Mutex.Outside (Conn Store) Serving) : Prop where
  answers : s.world.answered.Pairwise (Answered.Keeps X)
  store : s.poisoned = false → ∀ e ∈ s.world.answered, ∀ mint interval n, e.Offers mint interval n →
    ∀ sec, intervalSec interval = some sec → n ≤ (queryOhlcv mint sec s.value.store).length

/-- The next answer. -/
theorem pairwise_answer {w : Serving} {n : ℕ} {ask : Ask} {response : Response} {R : Answered → Answered → Prop}
    (hasked : w.asked n = some ask) (h : w.answered.Pairwise R) (hnext : ∀ e ∈ w.answered, R e ⟨n, ask, response⟩) :
    (w.answer n response).answered.Pairwise R := by
  rw [Serving.answer_eq hasked]
  exact List.pairwise_append.2 ⟨h, List.pairwise_singleton _ _, fun e he e' he' =>
    List.mem_singleton.1 he' ▸ hnext e he⟩

theorem OffersKept.step (hc₀ : Written c₀) {s s' : Mutex.Outside (Conn Store) Serving}
    (hsound : Sound S X c₀ s) (h : OffersKept X s) (hs : Mutex.AtomicStep (server S X) s s') : OffersKept X s' := by
  cases hs with
  | @free i w hfree =>
    obtain ⟨conn, w₀, poisoned⟩ := s
    cases hfree with
    | tasks hj | ingest hj => exact ⟨h.answers, h.store⟩
    | ask => exact ⟨h.answers, h.store⟩
    | @answer _ n ask response hasked hnow =>
      refine ⟨pairwise_answer hasked h.answers fun e he mint interval n hoffer hrequest => ?_, fun hp =>
        forall_answer hasked (h.store hp) fun mint interval n hoffer sec hsec => ?_⟩
      · -- candles of an interval on offer are not answered at once
        obtain ⟨sec, hsec⟩ := hoffer.interval
        simp only at hrequest
        rw [hrequest, handle, getOhlcv, hsec] at hnow
        cases hnow
      · obtain ⟨hidle, _⟩ := ingest_integrity hc₀ (hsound.job hp)
        exact (hoffer.length ((handle_run X _ _ hidle).1 _ hnow conn.store) hsec).le
  | whole hp hwants =>
    obtain ⟨hidle, _⟩ := ingest_integrity hc₀ (hsound.job hp)
    cases whole_of_wants hidle hwants with
    | @sec sec p hwaits hrun =>
      rw [hrun]
      have hgrow := Section.keeps (keptByCalls_seriesGrow S s.value.store) hidle (fun _ _ => Nat.le_refl _)
        (waitsFor_own (hsound.job hp) hwaits)
      exact ⟨h.answers, fun _ e he mint interval n hoffer sec' hsec =>
        (h.store hp e he mint interval n hoffer sec' hsec).trans (hgrow mint sec')⟩
    | query hasked hdb hrun =>
      rw [hrun]
      refine ⟨pairwise_answer hasked h.answers fun e he mint interval n hoffer hrequest => Or.inr ?_, fun _ =>
        forall_answer hasked (h.store hp) fun mint interval n hoffer sec hsec => (hoffer.length rfl hsec).le⟩
      obtain ⟨sec, hsec⟩ := hoffer.interval
      refine ⟨queryOhlcv mint sec s.value.store, ?_, h.store hp e he mint interval n hoffer sec hsec⟩
      simp only at hrequest ⊢
      rw [hrequest, answerOn, hsec]
  | @crash i p q v hp hwants hcalls =>
    obtain ⟨hidle, _⟩ := ingest_integrity hc₀ (hsound.job hp)
    refine ⟨?_, fun hno => by cases hno⟩
    cases whole_of_wants hidle hwants with
    | sec => exact h.answers
    | query hasked => exact pairwise_answer hasked h.answers fun _ _ _ _ _ _ _ => Or.inl (Or.inl rfl)
  | @refuse i p hp hwants =>
    cases i with
    | tasks => exact ⟨h.answers, fun hno => by cases hp.symm.trans hno⟩
    | ingest => exact ⟨h.answers, fun hno => by cases hp.symm.trans hno⟩
    | client n =>
      obtain ⟨ask, hasked, _⟩ := Option.bind_eq_some_iff.1 hwants
      exact ⟨pairwise_answer hasked h.answers fun _ _ _ _ _ _ _ => Or.inl (Or.inr rfl),
        fun hno => by cases hp.symm.trans hno⟩

theorem offersKept (hc₀ : Written c₀) {s : ServerState} (h : Served S X c₀ s) :
    ∃ v, OffersKept X ⟨v, s.world, s.poisoned⟩ := by
  obtain ⟨v, _, hatomic⟩ := Mutex.atomic h
  have hinv : Sound S X c₀ ⟨v, s.world, s.poisoned⟩ ∧ OffersKept X ⟨v, s.world, s.poisoned⟩ := by
    refine hatomic.invariant (I := fun s => Sound S X c₀ s ∧ OffersKept X s) ?_ fun _ _ hi hs =>
      ⟨hi.1.step hc₀ hs, hi.2.step hc₀ hi.1 hs⟩
    rintro ⟨c, w, poisoned⟩ ⟨⟨rfl, rfl⟩, rfl⟩
    exact ⟨⟨fun _ => .init rfl, nofun⟩, ⟨.nil, nofun⟩⟩
  exact ⟨v, hinv.2⟩

/-- **The dropdown is never stale.** In every state of an ingest with clients: if one answer was a token list that
offers `n` candles of a mint for an interval, every later answer to a query for these candles has at least `n` of
them, unless a worker has panicked. -/
theorem server_tokens (S : Setting) (X : Externals) (c₀ : Conn Store)
    (hc₀ : Written c₀)
    (s : ServerState) (h : Served S X c₀ s) :
    s.world.answered.Pairwise (Answered.Keeps X) := by
  obtain ⟨_, hkept⟩ := offersKept hc₀ h
  exact hkept.answers

end Tokens

/-- A store with one candle. -/
def oneCandle : Conn Store := ((Write.candles "mint" 60 [⟨0, 1, 1, 1, 1, 1⟩]).run (fun _ => false) ⟨.empty, none, 0⟩).2

/-- A client asks for the tokens, and then for the candles of one. -/
theorem exists_asked : ∃ s : ServerState, Served (buySetting 1) plainExternals oneCandle s ∧
    s.world.answered = [⟨0, ⟨.tokens, 0⟩, ok (.tokens [⟨"mint", 1, 0⟩])⟩,
      ⟨0, ⟨.ohlcv "mint" "1m", 0⟩, ok (.candles [⟨0, 1, 1, 1, 1, 1⟩])⟩] := by
  have hstart : Served (buySetting 1) plainExternals oneCandle
      ⟨oneCandle, ⟨.start (buySetting 1).args, fun _ => none, []⟩, none, false⟩ := .init ⟨⟨rfl, rfl⟩, rfl, rfl⟩
  have htokens := ((hstart.step (.free (i := .client 0) nofun (.ask ⟨.tokens, 0⟩ rfl))).step
    (.lock (i := .client 0) rfl rfl rfl)).step (.call rfl)
  have hlist := htokens.step (.unlock rfl)
  have hcandles := ((hlist.step (.free (i := .client 0) nofun (.ask ⟨.ohlcv "mint" "1m", 0⟩ rfl))).step
    (.lock (i := .client 0) rfl rfl rfl)).step (.call rfl)
  exact ⟨_, hcandles.step (.unlock rfl), rfl⟩

/-- The candles of a token on offer. -/
theorem server_tokens_example : ∃ s : ServerState, Served (buySetting 1) plainExternals oneCandle s ∧
    s.world.answered.map (·.ask.request) = [.tokens, .ohlcv "mint" "1m"] ∧
    s.world.answered.Pairwise (Answered.Keeps plainExternals) := by
  obtain ⟨s, h, hanswered⟩ := exists_asked
  exact ⟨s, h, by rw [hanswered]; rfl, server_tokens (buySetting 1) plainExternals oneCandle written_of_empty s h⟩

/-! ## After a panic -/

/-- The answer is that of a route without a query, or the query was refused. -/
def Answered.AfterPanic (X : Externals) (e : Answered) : Prop :=
  match handle X (X.order e.ask.order) e.ask.request with
  | .answer response => e.response = response
  | .db _ => e.response = poisonedResponse

/-- **After a panic.** Once a worker has panicked with the lock, the store never changes again, no query is ever
answered, and the routes without a query go on. -/
theorem server_poisoned (S : Setting) (X : Externals) (c₀ : Conn Store)
    (s s' : ServerState) (h : Served S X c₀ s)
    (hpoisoned : s.poisoned = true) (hs : Mutex.Steps (server S X) s s') :
    s'.poisoned = true ∧ s'.value = s.value ∧
    ∃ later, s'.world.answered = s.world.answered ++ later ∧ ∀ e ∈ later, e.AfterPanic X := by
  have hinv := hs.poisoned (Mutex.free_of_poisoned h hpoisoned) hpoisoned
    (I := fun w => ∃ later, w.answered = s.world.answered ++ later ∧ ∀ e ∈ later, e.AfterPanic X)
    ⟨[], (List.append_nil _).symm, nofun⟩ ?_ ?_
  · exact ⟨hinv.1, hinv.2.2.1, hinv.2.2.2⟩
  · rintro i w w' hfree ⟨later, hlater, hall⟩
    cases hfree with
    | tasks | ingest | ask => exact ⟨later, hlater, hall⟩
    | @answer _ n ask response hasked hnow =>
      rw [Serving.answer_eq hasked]
      refine ⟨later ++ [⟨n, ask, response⟩], by rw [hlater, List.append_assoc], ?_⟩
      refine List.forall_mem_append.2 ⟨hall, List.forall_mem_singleton.2 ?_⟩
      simp only [Answered.AfterPanic, hnow]
  · rintro i p w hwants ⟨later, hlater, hall⟩
    cases i with
    | tasks => cases hwants
    | ingest => exact ⟨later, hlater, hall⟩
    | client n =>
      obtain ⟨ask, hasked, hwants⟩ := Option.bind_eq_some_iff.1 hwants
      obtain ⟨query, hquery, _⟩ := Option.bind_eq_some_iff.1 hwants
      show ∃ later, (w.answer n poisonedResponse).answered = s.world.answered ++ later ∧ _
      rw [Serving.answer_eq hasked]
      refine ⟨later ++ [⟨n, ask, poisonedResponse⟩], by rw [hlater, List.append_assoc], ?_⟩
      refine List.forall_mem_append.2 ⟨hall, List.forall_mem_singleton.2 ?_⟩
      simp only [Answered.AfterPanic, query?_eq_some hquery]

/-- A worker panics on a token query, and the next one is refused. -/
theorem server_poisoned_example : ∃ s s' : ServerState,
    Served (buySetting 1) plainExternals ⟨.empty, none, 0⟩ s ∧ s.poisoned = true ∧
    s'.world.answered.length = s.world.answered.length + 1 ∧
    (s'.poisoned = true ∧ s'.value = s.value ∧
      ∃ later, s'.world.answered = s.world.answered ++ later ∧ ∀ e ∈ later, e.AfterPanic plainExternals) := by
  have hstart : Served (buySetting 1) plainExternals ⟨.empty, none, 0⟩
      ⟨⟨.empty, none, 0⟩, ⟨.start (buySetting 1).args, fun _ => none, []⟩, none, false⟩ := .init ⟨⟨rfl, rfl⟩, rfl, rfl⟩
  have hlocked := (hstart.step (.free (i := .client 0) nofun (.ask ⟨.tokens, 0⟩ rfl))).step
    (.lock (i := .client 0) rfl rfl rfl)
  have hcrashed := hlocked.step (.crash rfl)
  refine ⟨_, _, hcrashed, rfl, ?_, server_poisoned (buySetting 1) plainExternals ⟨.empty, none, 0⟩ _ _ hcrashed rfl
    ((Relation.ReflTransGen.single (.free (i := .client 1) nofun (.ask ⟨.tokens, 0⟩ rfl))).tail
      (.refuse (i := .client 1) rfl rfl rfl))⟩
  rfl

/-! ## Every client can be answered -/

section Answers

variable {S : Setting} {X : Externals}

/-- The script of a client has a response as its result. -/
theorem run_client {n : ℕ} {w : Serving} {ask : Ask} {p : Script (Conn Store) Reply} (c : Conn Store)
    (hasked : w.asked n = some ask) (h : Serving.wants S X (.client n) w = some p) :
    (∃ query, handle X (X.order ask.order) ask.request = .db query) ∧ ∃ response, (p.run c).1 = .inr response := by
  obtain ⟨ask', hasked', hrest⟩ := Option.bind_eq_some_iff.1 h
  obtain rfl : ask = ask' := Option.some.inj (hasked.symm.trans hasked')
  obtain ⟨query, hquery, hp⟩ := Option.bind_eq_some_iff.1 hrest
  cases hp
  exact ⟨⟨query, query?_eq_some hquery⟩, _, by rw [Script.run_bind, Script.run_pure]⟩

/-- A client whose request needs a query waits for the lock. -/
theorem wants_of_db {n : ℕ} {w : Serving} {ask : Ask} {query : Script (Conn Store) Response}
    (hasked : w.asked n = some ask) (hdb : handle X (X.order ask.order) ask.request = .db query) :
    ∃ p, Serving.wants S X (.client n) w = some p := by
  refine ⟨do
    let r ← query
    return .inr r, ?_⟩
  simp only [Serving.wants, hasked, Option.bind_eq_bind, Option.bind_some, hdb, query?]
  rfl

/-- Nobody else takes a client's request away, or is answered more than once. -/
theorem resume_asked {i : Thread} {n : ℕ} {w : Serving} {r : Reply} (hne : .client n ≠ i) :
    (Serving.resume S i r w).asked n = w.asked n ∧
      ∃ before, before.length ≤ 1 ∧ (Serving.resume S i r w).answered = w.answered ++ before := by
  cases i with
  | tasks => exact ⟨rfl, [], Nat.zero_le _, (List.append_nil _).symm⟩
  | ingest => cases r <;> exact ⟨rfl, [], Nat.zero_le _, (List.append_nil _).symm⟩
  | client m =>
    cases r with
    | inl r => exact ⟨rfl, [], Nat.zero_le _, (List.append_nil _).symm⟩
    | inr response =>
      have hnm : n ≠ m := fun he => hne (he ▸ rfl)
      refine ⟨Serving.answer_asked hnm response, ?_⟩
      show ∃ before, _ ∧ (w.answer m response).answered = _
      unfold Serving.answer
      split
      · exact ⟨[], Nat.zero_le _, (List.append_nil _).symm⟩
      · exact ⟨[_], le_rfl, rfl⟩

/-- When the lock has been released by another thread. -/
theorem released_asked {n : ℕ} {s : ServerState} (hother : ∀ h ∈ s.holder, Thread.client n ≠ h.1) :
    (s.released (server S X)).world.asked n = s.world.asked n ∧
      ∃ before, before.length ≤ 1 ∧ (s.released (server S X)).world.answered = s.world.answered ++ before := by
  unfold Mutex.State.released
  split
  · exact ⟨rfl, [], Nat.zero_le _, (List.append_nil _).symm⟩
  · rename_i i q hholds
    exact resume_asked (hother _ hholds)

/-- A client that asked is answered, after at most one other answer. -/
def AnsweredNext (n : ℕ) (ask : Ask) (s s' : ServerState) : Prop :=
  s'.world.asked n = none ∧ ∃ before response, before.length ≤ 1 ∧
    s'.world.answered = s.world.answered ++ before ++ [⟨n, ask, response⟩]

theorem answeredNext_answer {n : ℕ} {ask : Ask} {s s' : ServerState} {w : Serving} {response : Response}
    {before : List Answered} (hlength : before.length ≤ 1) (hw : w.answered = s.world.answered ++ before)
    (hasked : w.asked n = some ask) (hs : s'.world = w.answer n response) : AnsweredNext n ask s s' := by
  rw [Serving.answer_eq hasked] at hs
  rw [AnsweredNext, hs]
  exact ⟨Function.update_self _ _ _, before, response, hlength, by rw [hw]⟩

/-- The script of a client answers it, and so does a refusal. -/
theorem served_world {n : ℕ} {ask : Ask} {t : ServerState} {p : Script (Conn Store) Reply}
    (hasked : t.world.asked n = some ask) (hp : Serving.wants S X (.client n) t.world = some p) :
    ∃ response, (t.served (server S X) (.client n) p).world = t.world.answer n response := by
  unfold Mutex.State.served
  split
  · exact ⟨poisonedResponse, rfl⟩
  · obtain ⟨_, response, hr⟩ := run_client t.value hasked hp
    refine ⟨response, ?_⟩
    show Serving.resume S (.client n) (p.run t.value).1 t.world = _
    rw [hr]
    rfl

/-- The rest of the script of a client that has the lock answers it. -/
theorem released_own {n : ℕ} {ask : Ask} {s : ServerState} {v : Conn Store} {q : Script (Conn Store) Reply}
    (hsince : Mutex.Since (server S X) s v) (hasked : s.world.asked n = some ask)
    (hholds : ⟨.client n, q⟩ ∈ s.holder) :
    ∃ response, (s.released (server S X)).world = s.world.answer n response := by
  obtain ⟨_, p, hp, hcalls⟩ := hsince.of_some hholds
  obtain ⟨_, response, hr⟩ := @run_client S X _ _ _ _ v hasked hp
  rw [hcalls.run_eq] at hr
  refine ⟨response, ?_⟩
  unfold Mutex.State.released
  rw [Option.mem_def.1 hholds]
  show Serving.resume S (.client n) (q.run s.value).1 s.world = _
  rw [hr]
  rfl

/-- A route without a query answers at once. -/
theorem answer_step {n : ℕ} {ask : Ask} {s : ServerState} {v : Conn Store} {response : Response}
    (hsince : Mutex.Since (server S X) s v) (hasked : s.world.asked n = some ask)
    (hnow : handle X (X.order ask.order) ask.request = .answer response) :
    Mutex.Step (server S X) s { s with world := s.world.answer n response } := by
  refine .free (i := Thread.client n) ?_ (Serving.Free.answer hasked hnow)
  -- a client with the lock has a query
  rintro ⟨i, q⟩ hholds rfl
  obtain ⟨_, p, hp, _⟩ := hsince.of_some hholds
  obtain ⟨⟨query, hdb⟩, _⟩ := @run_client S X _ _ _ _ v hasked hp
  rw [hdb] at hnow
  cases hnow

end Answers

/-- **Every client can be answered next.** In every state of an ingest with clients, a client that has asked can get
its answer: a query is answered once the thread that has the lock has run the rest of its script, and before any other
thread gets the lock; a route without a query answers at once, whoever has it. -/
theorem server_answers (S : Setting) (X : Externals) (c₀ : Conn Store) (s : ServerState) (h : Served S X c₀ s) (n : ℕ)
    (ask : Ask) (hasked : s.world.asked n = some ask) :
    (∃ s', Mutex.Steps (server S X) s s' ∧ AnsweredNext n ask s s' ∧
      ∀ query, handle X (X.order ask.order) ask.request = .db query → Mutex.ServedNext (server S X) (.client n) s s') ∧
    ∀ response, handle X (X.order ask.order) ask.request = .answer response →
      Mutex.Step (server S X) s { s with world := s.world.answer n response } := by
  obtain ⟨v, hsince, _⟩ := Mutex.atomic h
  refine ⟨?_, fun _ => answer_step hsince hasked⟩
  cases hhandle : handle X (X.order ask.order) ask.request with
  | answer response =>
    exact ⟨_, .single (answer_step hsince hasked hhandle),
      answeredNext_answer (Nat.zero_le _) (List.append_nil _).symm hasked rfl, nofun⟩
  | db query =>
    by_cases hother : ∀ h ∈ s.holder, Thread.client n ≠ h.1
    · obtain ⟨hsame, before, hlength, hbefore⟩ := @released_asked S X n s hother
      obtain ⟨p, hp⟩ := @wants_of_db S X _ _ _ _ (hsame.trans hasked) hhandle
      obtain ⟨response, hworld⟩ := served_world (hsame.trans hasked) hp
      have hnext : Mutex.ServedNext (server S X) (.client n) s _ := .next hother hp
      exact ⟨_, hnext.steps, answeredNext_answer hlength hbefore (hsame.trans hasked) hworld, fun _ _ => hnext⟩
    · simp only [ne_eq, not_forall, not_not] at hother
      obtain ⟨⟨_, q⟩, hholds, rfl⟩ := hother
      obtain ⟨response, hworld⟩ := released_own hsince hasked hholds
      have hnext : Mutex.ServedNext (server S X) (.client n) s _ := .own hholds
      exact ⟨_, hnext.steps, answeredNext_answer (Nat.zero_le _) (List.append_nil _).symm hasked hworld,
        fun _ _ => hnext⟩

/-- One client has the lock, another one waits for it, and a third one asks for the health. -/
theorem server_answers_example : ∃ s : ServerState,
    Served (buySetting 1) plainExternals ⟨.empty, none, 0⟩ s ∧ s.holder.isSome = true ∧
    (∃ s', AnsweredNext 0 ⟨.tokens, 0⟩ s s' ∧ Mutex.ServedNext (server (buySetting 1) plainExternals)
      (.client 0) s s') ∧
    Mutex.Step (server (buySetting 1) plainExternals) s
      { s with world := s.world.answer 2 Api.getHealth } := by
  have hstart : Served (buySetting 1) plainExternals ⟨.empty, none, 0⟩
      ⟨⟨.empty, none, 0⟩, ⟨.start (buySetting 1).args, fun _ => none, []⟩, none, false⟩ := .init ⟨⟨rfl, rfl⟩, rfl, rfl⟩
  have hasked := ((hstart.step (.free (i := .client 0) nofun (.ask ⟨.tokens, 0⟩ rfl))).step
    (.free (i := .client 1) nofun (.ask ⟨.tokens, 0⟩ rfl))).step (.free (i := .client 2) nofun (.ask ⟨.health, 0⟩ rfl))
  have hlocked := hasked.step (.lock (i := .client 1) rfl rfl rfl)
  obtain ⟨s', _, hnext, hserved⟩ :=
    (server_answers (buySetting 1) plainExternals ⟨.empty, none, 0⟩ _ hlocked 0 ⟨.tokens, 0⟩ rfl).1
  exact ⟨_, hlocked, rfl, ⟨s', hnext, hserved _ rfl⟩,
    (server_answers (buySetting 1) plainExternals ⟨.empty, none, 0⟩ _ hlocked 2 ⟨.health, 0⟩ rfl).2 _ rfl⟩

end Tenso.Cli
