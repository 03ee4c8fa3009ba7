import Tenso.Lib.Scale
import Tenso.Ohlcv.Defs

/-!
# The candlestick chart

`computeCandleLayout` places one bar for each candle on a canvas; `drawCandleChart` draws the bars, or a text if there
are none. Pixels are exact rationals where the source has floats.

Of candles whose open and close are between their low and high, the chart is a true picture (`chart_true`): all prices
are on one decreasing scale that takes up the plot, the bars are in the order of the candles, and they stay apart as
long as each has two pixels (`chart_apart_iff`).
-/

namespace Tenso.Dashboard

open Ohlcv (Candle)

/-- A bar of the chart; pixels count to the right and down. -/
structure Bar where
  x : ℚ
  bodyWidth : ℚ
  yHigh : ℚ
  yLow : ℚ
  yOpen : ℚ
  yClose : ℚ
  color : String
  bucketStart : ℤ
  deriving DecidableEq

/-- What the page draws on the canvas. -/
inductive Shape where
  /-- `fillText` -/
  | text (message : String) (x y : ℚ) (color : String)
  /-- `stroke` of the line between two points above each other -/
  | wick (x yFrom yTo : ℚ) (color : String)
  /-- `fillRect` -/
  | body (left top width height : ℚ) (color : String)
  deriving DecidableEq

/-- The default `paddingLeft`. -/
def paddingLeft : ℚ := 50

/-- The default `paddingBottom`. -/
def paddingBottom : ℚ := 20

/-- The width of the canvas. -/
def canvasWidth : ℚ := 900

/-- The height of the canvas. -/
def canvasHeight : ℚ := 420

/-- `maxPrice - minPrice`, or one if the data is flat. -/
def priceRange (maxPrice minPrice : ℚ) : ℚ := if maxPrice - minPrice = 0 then 1 else maxPrice - minPrice

/-- `priceToY`. -/
def priceToY (plotHeight maxPrice minPrice price : ℚ) : ℚ :=
  let frac := (price - minPrice) / priceRange maxPrice minPrice
  plotHeight - frac * plotHeight

/-- The width of a bar in a slot. -/
def bodyWidth (slotWidth : ℚ) : ℚ := max 2 (slotWidth * (3 / 5))

/-- The bar of a candle. -/
def barOf (toY : ℚ → ℚ) (x bodyWidth : ℚ) (c : Candle) : Bar :=
  let isUp := c.close ≥ c.open
  { x
    bodyWidth
    yHigh := toY c.high
    yLow := toY c.low
    yOpen := toY c.open
    yClose := toY c.close
    color := if isUp then "#2e8b57" else "#b03a2e"
    bucketStart := c.bucketStart }

/-- The bars of the candles on a canvas. -/
def computeCandleLayout (candles : List Candle) (width height paddingLeft paddingBottom : ℚ) : List Bar :=
  match (candles.map (·.high)).max?, (candles.map (·.low)).min? with
  | some maxPrice, some minPrice =>
    let plotWidth := width - paddingLeft
    let plotHeight := height - paddingBottom
    let slotWidth := plotWidth / candles.length
    let toY := priceToY plotHeight maxPrice minPrice
    candles.mapIdx fun i c => barOf toY (paddingLeft + i * slotWidth + slotWidth / 2) (bodyWidth slotWidth) c
  | _, _ => []

/-- A bar is drawn as a wick and a body. -/
def Bar.shapes (bar : Bar) : List Shape :=
  [.wick bar.x bar.yHigh bar.yLow bar.color,
   .body (bar.x - bar.bodyWidth / 2) (min bar.yOpen bar.yClose) bar.bodyWidth
     (max 1 |bar.yClose - bar.yOpen|) bar.color]

/-- What is on the canvas after `drawCandleChart`. -/
def drawCandleChart (width height : ℚ) (candles : List Candle) : List Shape :=
  let layout := computeCandleLayout candles width height paddingLeft paddingBottom
  if layout.length = 0 then [.text "No data for this range" 20 20 "#5b6472"]
  else layout.flatMap Bar.shapes

/-! ## The layout -/

section Layout

variable {candles : List Candle} {width height padLeft padBottom : ℚ}

theorem priceRange_pos {maxPrice minPrice : ℚ} (h : minPrice ≤ maxPrice) : 0 < priceRange maxPrice minPrice := by
  unfold priceRange
  split
  · exact zero_lt_one
  · rename_i hne
    exact lt_of_le_of_ne (sub_nonneg.2 h) (Ne.symm hne)

theorem le_priceRange (maxPrice minPrice : ℚ) : maxPrice ≤ minPrice + priceRange maxPrice minPrice := by
  unfold priceRange
  split <;> linarith

/-- The slots of the chart. -/
def slotWidth (candles : List Candle) (width padLeft : ℚ) : ℚ := (width - padLeft) / candles.length

/-- What the layout is made of: the extreme prices, and one bar a candle on the scale between them, in equal slots. -/
structure LaidOut (candles : List Candle) (width height padLeft padBottom maxPrice minPrice : ℚ) : Prop where
  high : ∀ c ∈ candles, c.high ≤ maxPrice
  low : ∀ c ∈ candles, minPrice ≤ c.low
  exists_high : ∃ c ∈ candles, c.high = maxPrice
  exists_low : ∃ c ∈ candles, c.low = minPrice
  layout : computeCandleLayout candles width height padLeft padBottom = candles.mapIdx fun i c =>
    barOf (Scale.scale (height - padBottom) minPrice (priceRange maxPrice minPrice))
      (Scale.center padLeft (slotWidth candles width padLeft) i) (bodyWidth (slotWidth candles width padLeft)) c

theorem exists_laidOut (hne : candles ≠ []) : ∃ maxPrice minPrice,
    LaidOut candles width height padLeft padBottom maxPrice minPrice := by
  cases hmax : (candles.map (·.high)).max? with
  | none => simp [hne] at hmax
  | some maxPrice =>
    cases hmin : (candles.map (·.low)).min? with
    | none => simp [hne] at hmin
    | some minPrice =>
      obtain ⟨hmem, hhigh⟩ := List.max?_eq_some_iff.1 hmax
      obtain ⟨hmem', hlow⟩ := List.min?_eq_some_iff.1 hmin
      refine ⟨maxPrice, minPrice, fun c hc => hhigh _ (List.mem_map_of_mem hc), fun c hc =>
        hlow _ (List.mem_map_of_mem hc), List.mem_map.1 hmem, List.mem_map.1 hmem', ?_⟩
      rw [computeCandleLayout, hmax, hmin]
      rfl

theorem computeCandleLayout_nil : computeCandleLayout [] width height padLeft padBottom = [] := rfl

/-- There is one bar a candle. -/
theorem length_layout : (computeCandleLayout candles width height padLeft padBottom).length = candles.length := by
  by_cases hne : candles = []
  · rw [hne, computeCandleLayout_nil]
    rfl
  · obtain ⟨maxPrice, minPrice, h⟩ := @exists_laidOut _ width height padLeft padBottom hne
    rw [h.layout, List.length_mapIdx]

end Layout

/-! ## A true picture -/

/-- The colour of a candle that has not fallen. -/
def upColor : String := "#2e8b57"

/-- The chart is a true picture of the candles: bars in their order, prices on one decreasing scale from the top of the
plot to its bottom, bodies within wicks, and the colour of a rise where the close is no lower than the open. -/
structure TrueChart (candles : List Candle) (plotHeight : ℚ) (bars : List Bar) : Prop where
  leftToRight : bars.Pairwise (·.x < ·.x)
  scale : ∃ toY : ℚ → ℚ, StrictAnti toY ∧ List.Forall₂ (fun c bar => bar.bucketStart = c.bucketStart ∧
    bar.yHigh = toY c.high ∧ bar.yLow = toY c.low ∧ bar.yOpen = toY c.open ∧ bar.yClose = toY c.close) candles bars
  inPlot : ∀ bar ∈ bars, 0 ≤ bar.yHigh ∧ bar.yLow ≤ plotHeight
  body : ∀ bar ∈ bars, bar.yHigh ≤ min bar.yOpen bar.yClose ∧ max bar.yOpen bar.yClose ≤ bar.yLow
  color : ∀ bar ∈ bars, bar.color = upColor ↔ bar.yClose ≤ bar.yOpen
  bottom : bars ≠ [] → ∃ bar ∈ bars, bar.yLow = plotHeight
  top : (∃ bar ∈ bars, bar.yHigh ≠ plotHeight) → ∃ bar ∈ bars, bar.yHigh = 0

section TrueChart

variable {candles : List Candle} {width height padLeft padBottom : ℚ}

theorem slotWidth_pos (hne : candles ≠ []) (hwidth : padLeft < width) : 0 < slotWidth candles width padLeft :=
  div_pos (by linarith) (by exact_mod_cast List.length_pos_iff.2 hne)

theorem forall₂_mapIdx {α β : Type} {R : α → β → Prop} : ∀ {l : List α} {f : ℕ → α → β}, (∀ i, ∀ a ∈ l, R a (f i a)) →
    List.Forall₂ R l (l.mapIdx f)
  | [], _, _ => .nil
  | a :: l, f, h => by
    rw [List.mapIdx_cons]
    exact .cons (h 0 a List.mem_cons_self) (forall₂_mapIdx fun i b hb => h (i + 1) b (List.mem_cons_of_mem a hb))

/-- The chart of candles in range is a true picture of them. -/
theorem chart_true (hrange : ∀ c ∈ candles, c.low ≤ c.open ∧ c.open ≤ c.high ∧ c.low ≤ c.close ∧ c.close ≤ c.high)
    (hwidth : padLeft < width) (hheight : padBottom < height) :
    TrueChart candles (height - padBottom) (computeCandleLayout candles width height padLeft padBottom) := by
  by_cases hne : candles = []
  · subst hne
    exact ⟨.nil, ⟨fun y => -y, fun _ _ h => neg_lt_neg h, .nil⟩, nofun, nofun, nofun, fun h => absurd rfl h, nofun⟩
  obtain ⟨maxPrice, minPrice, hhigh, hlow, ⟨top, htop, rfl⟩, ⟨bottom, hbottom, rfl⟩, hlayout⟩ :=
    @exists_laidOut _ width height padLeft padBottom hne
  rw [hlayout]
  have hplot : 0 < height - padBottom := by linarith
  have hpos : 0 < priceRange top.high bottom.low := by
    obtain ⟨hlo, hhi, _⟩ := hrange bottom hbottom
    exact priceRange_pos ((hlo.trans hhi).trans (hhigh bottom hbottom))
  have hanti := @Scale.scale_strictAnti ℚ _ (height - padBottom) bottom.low _ _ _ hplot hpos
  refine ⟨?_, ⟨_, hanti, forall₂_mapIdx fun i c hc => ⟨rfl, rfl, rfl, rfl, rfl⟩⟩, ?_, ?_, ?_, fun _ => ?_, ?_⟩
  · refine List.pairwise_iff_getElem.2 fun i j hi hj hij => ?_
    rw [List.getElem_mapIdx, List.getElem_mapIdx]
    exact Scale.center_lt (slotWidth_pos hne hwidth) hij
  · intro bar hbar
    obtain ⟨i, hi, rfl⟩ := List.mem_mapIdx.1 hbar
    have hc := List.getElem_mem hi
    obtain ⟨hlo, hhi, _⟩ := hrange _ hc
    have hle := (hlo.trans hhi)
    exact ⟨(Scale.scale_mem hplot.le hpos ((hlow _ hc).trans hle) ((hhigh _ hc).trans (le_priceRange _ _))).1,
      (Scale.scale_mem hplot.le hpos (hlow _ hc) ((hle.trans (hhigh _ hc)).trans (le_priceRange _ _))).2⟩
  · intro bar hbar
    obtain ⟨i, hi, rfl⟩ := List.mem_mapIdx.1 hbar
    obtain ⟨hlo, hho, hlc, hhc⟩ := hrange _ (List.getElem_mem hi)
    exact ⟨le_min (hanti.antitone hho) (hanti.antitone hhc), max_le (hanti.antitone hlo) (hanti.antitone hlc)⟩
  · intro bar hbar
    obtain ⟨i, hi, rfl⟩ := List.mem_mapIdx.1 hbar
    by_cases hup : candles[i].close ≥ candles[i].open
    · exact iff_of_true (if_pos hup) (hanti.antitone hup)
    · refine iff_of_false ?_ (not_le.2 (hanti (not_le.1 hup)))
      simp only [barOf, hup, if_false]
      decide
  · obtain ⟨i, hi, rfl⟩ := List.mem_iff_getElem.1 hbottom
    exact ⟨_, List.mem_mapIdx.2 ⟨i, hi, rfl⟩, Scale.scale_lo⟩
  · rintro ⟨bar, hbar, hnot⟩
    obtain ⟨i, hi, rfl⟩ := List.mem_mapIdx.1 hbar
    have hflat : candles[i].high ≠ bottom.low := fun heq => hnot (by rw [barOf, heq, Scale.scale_lo])
    have hlt : bottom.low < top.high := by
      obtain ⟨hlo, hhi, _⟩ := hrange _ (List.getElem_mem hi)
      have hle := (hlow _ (List.getElem_mem hi)).trans (hlo.trans hhi)
      exact (lt_of_le_of_ne hle (Ne.symm hflat)).trans_le (hhigh _ (List.getElem_mem hi))
    obtain ⟨j, hj, htop⟩ := List.mem_iff_getElem.1 htop
    refine ⟨_, List.mem_mapIdx.2 ⟨j, hj, rfl⟩, ?_⟩
    have hwhole : top.high = bottom.low + priceRange top.high bottom.low := by
      rw [priceRange, if_neg (sub_ne_zero.2 hlt.ne'), add_sub_cancel]
    have hzero := @Scale.scale_hi ℚ _ (height - padBottom) bottom.low _ hpos.ne'
    rw [← hwhole] at hzero
    rw [htop]
    exact hzero

/-- The bars have the buckets of the candles. -/
theorem TrueChart.buckets {plotHeight : ℚ} {bars : List Bar} (h : TrueChart candles plotHeight bars) :
    bars.map (·.bucketStart) = candles.map (·.bucketStart) := by
  obtain ⟨_, _, hbars⟩ := h.scale
  have hsame : List.Forall₂ (· = ·) (bars.map (·.bucketStart)) (candles.map (·.bucketStart)) := by
    rw [List.forall₂_map_left_iff, List.forall₂_map_right_iff]
    exact hbars.flip.imp fun _ _ hbar => hbar.1
  rwa [List.forall₂_eq_eq_eq] at hsame

/-- The bars stay apart and within the plot as long as each has two pixels. -/
theorem bars_apart (hwidth : padLeft < width) (hroom : 2 * candles.length ≤ width - padLeft) :
    (computeCandleLayout candles width height padLeft padBottom).Pairwise
      (fun bar bar' => bar.x + bar.bodyWidth / 2 ≤ bar'.x - bar'.bodyWidth / 2) ∧
    ∀ bar ∈ computeCandleLayout candles width height padLeft padBottom,
      padLeft ≤ bar.x - bar.bodyWidth / 2 ∧ bar.x + bar.bodyWidth / 2 ≤ width := by
  by_cases hne : candles = []
  · subst hne
    exact ⟨.nil, nofun⟩
  obtain ⟨maxPrice, minPrice, h⟩ := @exists_laidOut _ width height padLeft padBottom hne
  rw [h.layout]
  have hpos := slotWidth_pos hne hwidth
  have hcount : (0 : ℚ) < candles.length := by exact_mod_cast List.length_pos_iff.2 hne
  have hbody : bodyWidth (slotWidth candles width padLeft) ≤ slotWidth candles width padLeft := by
    refine max_le ((le_div_iff₀ hcount).2 hroom) ?_
    linarith
  have hwhole : padLeft + candles.length * slotWidth candles width padLeft = width := by
    rw [slotWidth, mul_div_cancel₀ _ hcount.ne', add_sub_cancel]
  constructor
  · refine List.pairwise_iff_getElem.2 fun i j hi hj hij => ?_
    rw [List.getElem_mapIdx, List.getElem_mapIdx]
    exact Scale.bars_apart hpos.le hbody hij
  · intro bar hbar
    obtain ⟨i, hi, rfl⟩ := List.mem_mapIdx.1 hbar
    have hmem := @Scale.bar_mem ℚ _ _ _ padLeft _ _ i hpos.le hbody _ hi
    rw [hwhole] at hmem
    exact hmem

/-- With less than two pixels, neighbours overlap. -/
theorem bars_overlap (htwo : 2 ≤ candles.length) (hroom : width - padLeft < 2 * candles.length) :
    ¬(computeCandleLayout candles width height padLeft padBottom).Pairwise
      (fun bar bar' => bar.x + bar.bodyWidth / 2 ≤ bar'.x - bar'.bodyWidth / 2) := by
  intro hapart
  have hne : candles ≠ [] := by
    rintro rfl
    simp at htwo
  obtain ⟨maxPrice, minPrice, h⟩ := @exists_laidOut _ width height padLeft padBottom hne
  rw [h.layout] at hapart
  have hcount : (0 : ℚ) < candles.length := by exact_mod_cast List.length_pos_iff.2 hne
  have hwide : slotWidth candles width padLeft < bodyWidth (slotWidth candles width padLeft) :=
    ((div_lt_iff₀ hcount).2 hroom).trans_le (le_max_left _ _)
  have hfirst :=
    List.pairwise_iff_getElem.1 hapart 0 1 (by rw [List.length_mapIdx]; omega) (by rw [List.length_mapIdx]; omega)
    Nat.zero_lt_one
  rw [List.getElem_mapIdx, List.getElem_mapIdx] at hfirst
  exact absurd hfirst (not_le.2 (@Scale.bars_overlap ℚ _ _ _ padLeft _ _ 0 hwide))

/-- **Bars stay apart** if and only if each has two pixels, or there is only one. -/
theorem chart_apart_iff (hwidth : padLeft < width) :
    (computeCandleLayout candles width height padLeft padBottom).Pairwise
      (fun bar bar' => bar.x + bar.bodyWidth / 2 ≤ bar'.x - bar'.bodyWidth / 2) ↔
    2 * candles.length ≤ width - padLeft ∨ candles.length ≤ 1 := by
  constructor
  · intro hapart
    by_contra hnot
    obtain ⟨hroom, hone⟩ := not_or.1 hnot
    exact bars_overlap (by omega) (not_le.1 hroom) hapart
  · rintro (hroom | hone)
    · exact (bars_apart hwidth hroom).1
    · refine List.pairwise_iff_getElem.2 fun i j hi hj hij => ?_
      rw [length_layout] at hj
      omega

end TrueChart

/-! ## The drawing -/

/-- The text for an empty range is drawn only for an empty range. -/
theorem draw_text_iff (width height : ℚ) (candles : List Candle) :
    drawCandleChart width height candles = [.text "No data for this range" 20 20 "#5b6472"] ↔ candles = [] := by
  constructor
  · intro h
    by_contra hne
    rw [drawCandleChart, length_layout, if_neg (by simpa using hne)] at h
    cases hlayout : computeCandleLayout candles width height paddingLeft paddingBottom with
    | nil =>
      have hlength := @length_layout candles width height paddingLeft paddingBottom
      rw [hlayout] at hlength
      exact hne (List.length_eq_zero_iff.1 hlength.symm)
    | cons bar bars =>
      rw [hlayout] at h
      cases h
  · rintro rfl
    rfl

end Tenso.Dashboard
