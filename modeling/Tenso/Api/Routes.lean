import Tenso.Lib.ConnScript
import Tenso.Storage.Counts

/-!
# The routes

A handler answers at once, or it runs a query under the lock of the database on a worker thread (`run_db`). The
router, the decoding of query strings and the text of JSON bodies are those of the web framework: a `Request` is what
a handler is given, and a `Body` what it hands on.

On an idle connection a handler gives the answer on the committed store, and leaves the connection as it is
(`handle_run`); it never changes it on the way (`handle_always`).
-/

namespace Tenso.Api

open Storage

/-- A request. -/
inductive Request where
  | health
  | contention (fromSlot toSlot : UInt64)
  | tokens
  | ohlcv (mint interval : String)
  | index
  | static (path : String)

/-- The body of a response. -/
inductive Body where
  /-- `{ "ok": true }` -/
  | health
  | contention (summary : ContentionSummary)
  | tokens (tokens : List TokenOption)
  | candles (candles : List Ohlcv.Candle)
  | text (message : String)
  | file (contentType : String) (data : List UInt8)

/-- A response: status code and body. -/
structure Response where
  status : ℕ
  body : Body

/-- What the handlers take from elsewhere: the orders in which the database may leave rows, the texts of its errors
and of a panicked worker, the embedded files and their types. -/
structure Externals where
  order : ℕ → HashMap.IterOrder
  dbError : DbError → String
  joinError : String
  asset : String → Option (List UInt8)
  mime : String → String

section Handlers

variable (X : Externals)

/-! ## Responses -/

/-- `200 OK`. -/
def ok (body : Body) : Response := ⟨200, body⟩

/-- `500 Internal Server Error`. -/
def internalServerError (message : String) : Response := ⟨500, .text message⟩

/-- `400 Bad Request`. -/
def badRequest (message : String) : Response := ⟨400, .text message⟩

/-- The response to the result of a query. -/
def ofResult : Except DbError Body → Response
  | .ok body => ok body
  | .error e => internalServerError (X.dbError e)

/-- `run_db` when another task has panicked with the lock. -/
def poisonedResponse : Response :=
  internalServerError "db mutex poisoned: poisoned lock: another task failed inside"

/-- `run_db` when its worker panics. -/
def panickedResponse : Response := internalServerError ("db worker panicked: " ++ X.joinError)

/-! ## Handlers -/

/-- A handler answers, or it runs a query on the database. -/
inductive Handler where
  | answer (response : Response)
  | db (query : Script (Conn Store) Response)

/-- `run_db`, with the lock. -/
def runDb (query : Script (Conn Store) (Except DbError Body)) : Handler := .db do
  let result ← query
  return ofResult X result

def getHealth : Response := ok .health

/-- `query_contention_summary`, a query for the depth and one for the accounts. -/
def contentionScript (ord : HashMap.IterOrder) (fromSlot toSlot : UInt64) :
    Script (Conn Store) (Except DbError ContentionSummary) := do
  match ← Script.ofCall (Conn.query fun st => addInteger ((rangeMaxStep fromSlot toSlot st).getD (-1)) 1) with
  | .error e => pure (.error e)
  | .ok depth =>
    match ← Script.ofCall (Conn.query fun st => .ok (topAccounts ord (st.accountLocks.rows.filter fun r =>
      between fromSlot toSlot r.slot))) with
    | .error e => pure (.error e)
    | .ok top => pure (.ok { depth := UInt64.ofInt (max depth 0), topConflictingAccounts := top })

def getContention (ord : HashMap.IterOrder) (fromSlot toSlot : UInt64) : Handler := runDb X do
  let summary ← contentionScript ord fromSlot toSlot
  return summary.map .contention

def getTokens (ord : HashMap.IterOrder) : Handler :=
  runDb X (Script.ofCall (Conn.query fun st => .ok (.tokens (queryTokens ord st))))

/-- The intervals by name. -/
def intervalSec : String → Option Int32
  | "1m" => some 60
  | "5m" => some 300
  | _ => none

def getOhlcv (mint interval : String) : Handler :=
  match intervalSec interval with
  | none => .answer (badRequest "interval must be 1m or 5m")
  | some sec => runDb X (Script.ofCall (Conn.query fun st => .ok (.candles (queryOhlcv mint sec st))))

/-- `serve_embedded`. -/
def serveEmbedded (path : String) : Response :=
  match X.asset path with
  | some data => ok (.file (X.mime path) data)
  | none => ⟨404, .text "not found"⟩

def serveIndex : Response := serveEmbedded X "index.html"

def serveStatic (path : String) : Response := serveEmbedded X path

/-- The handler of a request; rows that a query leaves in any order come in the order of `ord`. -/
def handle (ord : HashMap.IterOrder) : Request → Handler
  | .health => .answer getHealth
  | .contention fromSlot toSlot => getContention X ord fromSlot toSlot
  | .tokens => getTokens X ord
  | .ohlcv mint interval => getOhlcv X mint interval
  | .index => .answer (serveIndex X)
  | .static path => .answer (serveStatic X path)

/-! ## The answer on a store -/

/-- The answer to a request on a store. -/
def answerOn (ord : HashMap.IterOrder) (st : Store) : Request → Response
  | .health => getHealth
  | .contention fromSlot toSlot => ofResult X ((queryContentionSummary ord fromSlot toSlot st).map .contention)
  | .tokens => ok (.tokens (queryTokens ord st))
  | .ohlcv mint interval =>
    match intervalSec interval with
    | none => badRequest "interval must be 1m or 5m"
    | some sec => ok (.candles (queryOhlcv mint sec st))
  | .index => serveIndex X
  | .static path => serveStatic X path

theorem run_contentionScript (ord : HashMap.IterOrder) (fromSlot toSlot : UInt64) {c : Conn Store}
    (hidle : c.txn = none) :
    (contentionScript ord fromSlot toSlot).run c = (queryContentionSummary ord fromSlot toSlot c.store, c) := by
  rw [contentionScript, Script.run_bind, Script.run_ofCall, Conn.query_idle hidle, queryContentionSummary]
  simp only [rangeMaxStep]
  generalize addInteger _ 1 = depth
  cases depth with
  | error e => rfl
  | ok depth =>
    simp only [Script.run_bind, Script.run_ofCall, Conn.query_idle hidle]
    rfl

/-- A handler on an idle connection: it gives the answer on the committed store, and leaves the connection alone. -/
theorem handle_run (ord : HashMap.IterOrder) (request : Request) {c : Conn Store} (hidle : c.txn = none) :
    (∀ response, handle X ord request = .answer response → ∀ st, response = answerOn X ord st request) ∧
    ∀ query, handle X ord request = .db query → query.run c = (answerOn X ord c.store request, c) := by
  cases request with
  | health | index | static path =>
    refine ⟨fun response h st => ?_, nofun⟩
    cases h
    rfl
  | contention fromSlot toSlot =>
    refine ⟨nofun, fun query h => ?_⟩
    cases h
    simp only [Script.run_bind, run_contentionScript ord fromSlot toSlot hidle]
    rfl
  | tokens =>
    refine ⟨nofun, fun query h => ?_⟩
    cases h
    rw [Script.run_bind, Script.run_ofCall, Conn.query_idle hidle]
    rfl
  | ohlcv mint interval =>
    cases hsec : intervalSec interval with
    | none =>
      simp only [handle, getOhlcv, hsec, answerOn]
      refine ⟨fun response h st => ?_, nofun⟩
      cases h
      rfl
    | some sec =>
      simp only [handle, getOhlcv, hsec, answerOn]
      refine ⟨nofun, fun query h => ?_⟩
      cases h
      rw [Script.run_bind, Script.run_ofCall, Conn.query_idle hidle]
      rfl

/-- A summary is answered, or the error of the query. -/
theorem answerOn_contention (ord : HashMap.IterOrder) (fromSlot toSlot : UInt64) (st : Store) :
    (∃ summary, queryContentionSummary ord fromSlot toSlot st = .ok summary ∧
      answerOn X ord st (.contention fromSlot toSlot) = ok (.contention summary)) ∨
    ∃ e, queryContentionSummary ord fromSlot toSlot st = .error e ∧
      answerOn X ord st (.contention fromSlot toSlot) = internalServerError (X.dbError e) := by
  rw [answerOn]
  cases queryContentionSummary ord fromSlot toSlot st with
  | ok summary => exact Or.inl ⟨summary, rfl, rfl⟩
  | error e => exact Or.inr ⟨e, rfl, rfl⟩

/-- Only the token list answers with tokens. -/
theorem answerOn_tokens {ord : HashMap.IterOrder} {st : Store} {request : Request} {tokens : List TokenOption}
    (h : (answerOn X ord st request).body = .tokens tokens) : tokens = queryTokens ord st := by
  cases request with
  | tokens => exact (Body.tokens.inj h).symm
  | health => cases h
  | contention fromSlot toSlot =>
    rcases answerOn_contention X ord fromSlot toSlot st with ⟨_, _, he⟩ | ⟨_, _, he⟩ <;>
    · rw [he] at h
      cases h
  | ohlcv mint interval =>
    simp only [answerOn] at h
    split at h <;> cases h
  | index =>
    simp only [answerOn, serveIndex, serveEmbedded] at h
    split at h <;> cases h
  | static path =>
    simp only [answerOn, serveStatic, serveEmbedded] at h
    split at h <;> cases h

/-- Only a query for candles answers with candles. -/
theorem answerOn_candles {ord : HashMap.IterOrder} {st : Store} {request : Request} {candles : List Ohlcv.Candle}
    (h : (answerOn X ord st request).body = .candles candles) : ∃ mint sec, candles = queryOhlcv mint sec st := by
  cases request with
  | ohlcv mint interval =>
    simp only [answerOn] at h
    split at h
    · cases h
    · exact ⟨mint, _, (Body.candles.inj h).symm⟩
  | health | tokens => cases h
  | contention fromSlot toSlot =>
    rcases answerOn_contention X ord fromSlot toSlot st with ⟨_, _, he⟩ | ⟨_, _, he⟩ <;>
    · rw [he] at h
      cases h
  | index =>
    simp only [answerOn, serveIndex, serveEmbedded] at h
    split at h <;> cases h
  | static path =>
    simp only [answerOn, serveStatic, serveEmbedded] at h
    split at h <;> cases h

theorem always_contentionScript (ord : HashMap.IterOrder) (fromSlot toSlot : UInt64) (c : Conn Store) :
    (contentionScript ord fromSlot toSlot).Always (fun c' => c' = c) c := by
  rw [contentionScript, Script.always_bind, Script.run_ofCall, Script.always_ofCall]
  refine ⟨⟨rfl, rfl⟩, ?_⟩
  split
  · exact rfl
  · rw [Script.always_bind, Script.run_ofCall, Script.always_ofCall]
    refine ⟨⟨rfl, rfl⟩, ?_⟩
    split <;> exact rfl

theorem always_runDb {query : Script (Conn Store) (Except DbError Body)} {c : Conn Store}
    (h : query.Always (fun c' => c' = c) c) :
    ∀ script, runDb X query = .db script → script.Always (fun c' => c' = c) c := by
  rintro _ ⟨⟩
  exact (Script.always_bind _ _ _).2 ⟨h, h.finish⟩

/-- **A handler only reads**: at no moment of its query is the connection another one. -/
theorem handle_always (ord : HashMap.IterOrder) (request : Request) (c : Conn Store)
    {query : Script (Conn Store) Response}
    (h : handle X ord request = .db query) : query.Always (fun c' => c' = c) c := by
  cases request with
  | health | index | static path => cases h
  | contention fromSlot toSlot =>
    have hsummary := always_contentionScript ord fromSlot toSlot c
    refine always_runDb X ((Script.always_bind _ _ _).2 ⟨hsummary, ?_⟩) query h
    exact hsummary.finish
  | tokens =>
    refine always_runDb X ?_ query h
    exact ⟨rfl, rfl⟩
  | ohlcv mint interval =>
    simp only [handle, getOhlcv] at h
    split at h
    · cases h
    · refine always_runDb X ?_ query h
      exact ⟨rfl, rfl⟩

end Handlers

end Tenso.Api
