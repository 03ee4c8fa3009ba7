import Tenso.Cli.Health
import Tenso.Cli.ServerRuns
import Tenso.Dashboard.Chart

/-!
# The page

The page keeps a token list and two dropdowns. `loadTokens` fills in the tokens, a selection of a token the intervals
that it has candles of, and `loadOhlcv` asks for the candles of what is selected. A dropdown that has been filled in
selects its first option, and has the empty value if there is none.

- The page only asks for candles that its token list offers (`request_offered`), so its chart is never empty
  (`dashboard_neverEmpty`).
- What it draws is a true picture of the candles, whenever it asks (`sessions_chart`).
-/

namespace Tenso.Dashboard

open Api Cli Storage

/-! ## Dropdowns -/

/-- The token list, and the options and the value of `token-select` and of `interval-select`. -/
structure Page where
  tokenList : List TokenOption
  tokenOptions : List String
  token : String
  intervalOptions : List String
  interval : String

/-- The page before the tokens are loaded. -/
def Page.start : Page := ⟨[], [], "", ["1m", "5m"], "1m"⟩

/-- The value of a dropdown that has been filled in. -/
def firstOption : List String → String
  | [] => ""
  | option :: _ => option

/-- The intervals of a token. -/
def intervalsOf (token : TokenOption) : List String :=
  (if token.candles1m > 0 then ["1m"] else []) ++ (if token.candles5m > 0 then ["5m"] else [])

/-- `interval-select` is filled in for the token. -/
def Page.syncIntervalOptions (p : Page) : Page :=
  match p.tokenList.find? (·.mint = p.token) with
  | none => { p with intervalOptions := [], interval := "" }
  | some token => { p with intervalOptions := intervalsOf token, interval := firstOption (intervalsOf token) }

/-- The token list is there. -/
def Page.loadTokens (p : Page) (tokens : List TokenOption) : Page :=
  Page.syncIntervalOptions
    { p with tokenList := tokens, tokenOptions := tokens.map (·.mint), token := firstOption (tokens.map (·.mint)) }

/-- The request for the candles, if something is selected. -/
def Page.loadOhlcv (p : Page) : Option Request :=
  if p.token = "" ∨ p.interval = "" then none else some (.ohlcv p.token p.interval)

/-- What happens to the page: a token list arrives, or the user selects an option. -/
inductive Page.Step : Page → Page → Prop
  | loadTokens {p : Page} (tokens : List TokenOption) : Step p (p.loadTokens tokens)
  | selectToken {p : Page} {mint : String} (h : mint ∈ p.tokenOptions) :
      Step p (Page.syncIntervalOptions { p with token := mint })
  | selectInterval {p : Page} {interval : String} (h : interval ∈ p.intervalOptions) : Step p { p with interval }

/-- The page, as a transition system. -/
def page : Transition.System Page := ⟨fun p => p = .start, Page.Step⟩

/-- The token list has candles of the mint for the interval, so many. -/
def Offered (tokens : List TokenOption) (mint interval : String) (n : ℕ) : Prop :=
  ∃ t ∈ tokens, t.mint = mint ∧ ((interval = "1m" ∧ n = t.candles1m) ∨ (interval = "5m" ∧ n = t.candles5m))

/-- Options for the selected token are on offer, and one of them is selected. -/
structure Page.Valid (p : Page) : Prop where
  options : p.token ≠ "" → ∀ interval ∈ p.intervalOptions, ∃ n, 0 < n ∧ Offered p.tokenList p.token interval n
  selected : p.token ≠ "" → p.interval ≠ "" → p.interval ∈ p.intervalOptions

theorem firstOption_mem {options : List String} (h : firstOption options ≠ "") : firstOption options ∈ options := by
  cases options with
  | nil => exact absurd rfl h
  | cons option rest => exact List.mem_cons_self

theorem mem_intervalsOf {token : TokenOption} {interval : String} (h : interval ∈ intervalsOf token) :
    ∃ n, 0 < n ∧ ((interval = "1m" ∧ n = token.candles1m) ∨ (interval = "5m" ∧ n = token.candles5m)) := by
  rcases List.mem_append.1 h with h | h
  · split at h
    · exact ⟨_, by assumption, Or.inl ⟨List.mem_singleton.1 h, rfl⟩⟩
    · cases h
  · split at h
    · exact ⟨_, by assumption, Or.inr ⟨List.mem_singleton.1 h, rfl⟩⟩
    · cases h

/-- The intervals fit the token. -/
theorem valid_sync (p : Page) : p.syncIntervalOptions.Valid := by
  unfold Page.syncIntervalOptions
  split
  · exact ⟨fun _ => nofun, fun _ h => absurd rfl h⟩
  · rename_i token hfind
    have hmint : token.mint = p.token := by simpa using List.find?_some hfind
    refine ⟨fun _ interval hi => ?_, fun _ hne => firstOption_mem hne⟩
    obtain ⟨n, hpos, hcase⟩ := mem_intervalsOf hi
    exact ⟨n, hpos, token, List.mem_of_find?_eq_some hfind, hmint, hcase⟩

/-- The options always fit. -/
theorem page_valid {p : Page} (h : Transition.Reachable page p) : p.Valid := by
  refine h.invariant (I := Page.Valid) ?_ ?_
  · rintro p rfl
    exact ⟨fun hne => absurd rfl hne, fun hne => absurd rfl hne⟩
  · rintro p p' hvalid hs
    cases hs with
    | loadTokens tokens => exact valid_sync _
    | selectToken => exact valid_sync _
    | selectInterval hmem => exact ⟨hvalid.options, fun _ _ => hmem⟩

/-- The page asks for what its token list offers. -/
theorem request_offered {p : Page} (h : Transition.Reachable page p) {request : Request}
    (hrequest : p.loadOhlcv = some request) :
    ∃ mint interval n, request = .ohlcv mint interval ∧ 0 < n ∧ Offered p.tokenList mint interval n := by
  unfold Page.loadOhlcv at hrequest
  split at hrequest
  · cases hrequest
  · rename_i hne
    obtain ⟨htoken, hinterval⟩ := not_or.1 hne
    have hvalid := page_valid h
    obtain ⟨n, hpos, hoffer⟩ := hvalid.options htoken _ (hvalid.selected htoken hinterval)
    exact ⟨_, _, n, (Option.some.inj hrequest).symm, hpos, hoffer⟩

/-! ## The chart of the page -/

/-- What the page draws of an answer with candles. -/
def pageLayout (candles : List Ohlcv.Candle) : List Bar :=
  computeCandleLayout candles canvasWidth canvasHeight paddingLeft paddingBottom

/-- **The chart is never empty.** In every state of an ingest with clients: if one answer was a token list, and a page
with this list asks for candles, whatever the user has selected in between, it draws candles and not the text for an
empty range, unless a worker has panicked. -/
theorem dashboard_neverEmpty (S : Setting) (X : Externals) (c₀ : Conn Store) (hc₀ : Written c₀) (s : ServerState)
    (h : Served S X c₀ s) :
    s.world.answered.Pairwise fun e e' => ∀ p, Transition.Reachable page p → e.response.body = .tokens p.tokenList →
      p.loadOhlcv = some e'.ask.request → e'.Refused X ∨ ∃ candles, e'.response = ok (.candles candles) ∧
        drawCandleChart canvasWidth canvasHeight candles ≠ [.text "No data for this range" 20 20 "#5b6472"] := by
  obtain ⟨_, hkept⟩ := offersKept hc₀ h
  refine hkept.answers.imp fun {e e'} hkeeps p hp hbody hrequest => ?_
  obtain ⟨mint, interval, n, hohlcv, hpos, hoffer⟩ := request_offered hp hrequest
  refine (hkeeps mint interval n ⟨_, hbody, hoffer⟩ hohlcv).imp_right ?_
  rintro ⟨candles, hresponse, hle⟩
  refine ⟨candles, hresponse, fun htext => ?_⟩
  rw [(draw_text_iff _ _ _).1 htext, List.length_nil] at hle
  omega

/-- A page that has loaded a list of one token. -/
theorem dashboard_neverEmpty_example : ∃ (e e' : Answered) (p : Page), e.response.body = .tokens p.tokenList ∧
    p.loadOhlcv = some e'.ask.request ∧ (e'.Refused plainExternals ∨ ∃ candles, e'.response = ok (.candles candles) ∧
      drawCandleChart canvasWidth canvasHeight candles ≠ [.text "No data for this range" 20 20 "#5b6472"]) := by
  obtain ⟨s, h, hanswered⟩ := exists_asked
  have hpairwise := dashboard_neverEmpty (buySetting 1) plainExternals oneCandle written_of_empty s h
  rw [hanswered] at hpairwise
  have hloaded : Transition.Reachable page (Page.start.loadTokens [⟨"mint", 1, 0⟩]) := .step (.init rfl) (.loadTokens _)
  exact ⟨⟨0, ⟨.tokens, 0⟩, ok (.tokens [⟨"mint", 1, 0⟩])⟩, ⟨0, ⟨.ohlcv "mint" "1m", 0⟩, _⟩,
    Page.start.loadTokens [⟨"mint", 1, 0⟩], rfl, rfl,
    List.rel_of_pairwise_cons hpairwise (List.mem_singleton_self _) _ hloaded rfl rfl⟩

end Tenso.Dashboard
