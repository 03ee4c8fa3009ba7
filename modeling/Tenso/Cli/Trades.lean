import Tenso.Ohlcv.Candles
import Tenso.Storage.Query

/-!
# The trades of stored rows

`snapshotsFromBalanceRows` groups the token balance changes by transaction, and `tradesOf` infers the trades of the
snapshots, in some order.

- `rowTrade` says what one row trades against the wSOL row of its transaction; `storedTrades` are the trades of a table
  of rows, as a multiset.
- On a coherent table, where a signature stands for one slot and one time, the code infers exactly these trades
  (`tradesOf_storedTrades`), and they split along the slots (`storedTrades_split`).
-/

namespace Tenso.Cli

open Ohlcv Storage

variable {A : Arithmetic}

/-! ## Snapshots -/

/-- Add a row to the snapshot of its transaction; rows without a time are dropped. -/
def pushDelta (bySig : HashMap String TxSnapshot) (row : BalanceChangeRow) : HashMap String TxSnapshot :=
  let (signature, _, blockTime, mint, preAmount, postAmount, decimals) := row
  match blockTime with
  | none => bySig
  | some blockTime =>
    let (bySig, tx) := bySig.entryOr signature { signature, blockTime, tokenDeltas := [] }
    bySig.insert signature { tx with tokenDeltas := tx.tokenDeltas ++ [{ mint, preAmount, postAmount, decimals }] }

/-- One snapshot a transaction, in the iteration order of the map. -/
def snapshotsFromBalanceRows (ord : HashMap.IterOrder) (rows : List BalanceChangeRow) : List TxSnapshot :=
  (ord.iter (rows.foldl pushDelta ∅).entries).map (·.2)

/-- The trades of the snapshots of the rows. -/
def tradesOf (A : Arithmetic) (ord : HashMap.IterOrder) (rows : List BalanceChangeRow) : List InferredTrade :=
  (snapshotsFromBalanceRows ord rows).flatMap (inferTrades A)

/-- The rows of a transaction that have a time. -/
def sigRows (rows : List BalanceChangeRow) (sig : String) : List BalanceChangeRow :=
  rows.filter fun r => r.2.2.1.isSome ∧ r.1 = sig

/-- The token delta of a row. -/
def rowTokenDelta (row : BalanceChangeRow) : TokenDelta :=
  let (_, _, _, mint, preAmount, postAmount, decimals) := row
  { mint, preAmount, postAmount, decimals }

/-- The snapshot of some rows of a transaction: it has the time of the first one. -/
def rowSnapshot (sig : String) : List BalanceChangeRow → Option TxSnapshot
  | [] => none
  | r :: rs => some { signature := sig, blockTime := r.2.2.1.getD 0, tokenDeltas := (r :: rs).map rowTokenDelta }

/-- The fold has the snapshot of each transaction. -/
theorem lookup_foldl_pushDelta (rows : List BalanceChangeRow) (sig : String) :
    (rows.foldl pushDelta ∅).lookup sig = rowSnapshot sig (sigRows rows sig) := by
  induction rows using List.reverseRecOn with
  | nil => rfl
  | append_singleton rows r ih =>
    obtain ⟨s, slot, time, mint, pre, post, decimals⟩ := r
    rw [List.foldl_append, List.foldl_cons, List.foldl_nil]
    cases time with
    | none => simpa [pushDelta, sigRows] using ih
    | some blockTime =>
      simp only [pushDelta]
      rw [HashMap.lookup_insert_entryOr, HashMap.entryOr_snd]
      by_cases hs : sig = s
      · subst hs
        have hrows : sigRows (rows ++ [(sig, slot, some blockTime, mint, pre, post, decimals)]) sig =
            sigRows rows sig ++ [(sig, slot, some blockTime, mint, pre, post, decimals)] := by simp [sigRows]
        rw [if_pos rfl, ih, hrows]
        cases sigRows rows sig with
        | nil => rfl
        | cons r' rs => simp [rowSnapshot, rowTokenDelta]
      · rw [if_neg hs, ih]
        simp [sigRows, Ne.symm hs]

/-! ## Trades of a table -/

/-- A row as a token delta. -/
def tokenDelta (r : TokenBalanceChangesRow) : TokenDelta :=
  { mint := r.mint, preAmount := r.preAmount, postAmount := r.postAmount, decimals := UInt8.ofInt r.decimals.toInt }

/-- The wSOL row of a transaction. -/
def wsolRow (rows : List TokenBalanceChangesRow) (sig : String) : Option TokenBalanceChangesRow :=
  rows.find? fun w => w.txSignature = sig ∧ w.mint = wsolMint

/-- The trade of a row against the wSOL row of its transaction, if it is one. -/
def rowTrade (A : Arithmetic) (rows : List TokenBalanceChangesRow) (r : TokenBalanceChangesRow) :
    Option InferredTrade := do
  let blockTime ← r.blockTime
  let w ← wsolRow rows r.txSignature
  if (tokenDelta w).deltaUi A ≠ 0 then
    tradeOf A ⟨r.txSignature, blockTime, []⟩ ((tokenDelta w).deltaUi A) (tokenDelta r)
  else none

/-- The trades of a table of rows. -/
def storedTrades (A : Arithmetic) (rows : List TokenBalanceChangesRow) : Multiset InferredTrade :=
  ↑(rows.filterMap (rowTrade A rows))

/-- A signature stands for one slot and one time, and has one row for each mint. -/
structure Coherent (rows : List TokenBalanceChangesRow) : Prop where
  keyed : (rows.map TokenBalanceChangesRow.key).Nodup
  slots : ∀ r ∈ rows, ∀ r' ∈ rows, r.txSignature = r'.txSignature → r.slot = r'.slot
  times : ∀ r ∈ rows, ∀ r' ∈ rows, r.txSignature = r'.txSignature → r.blockTime = r'.blockTime

/-- Rows whose signatures are those of stored transactions of their slots are coherent: the signature is the key
there. -/
theorem Coherent.of_transactions {st : Store}
    (htx : ∀ r ∈ st.tokenBalanceChanges.rows, ∃ x ∈ st.transactions.rows, x.signature = r.txSignature ∧ x.slot = r.slot)
    (htime : ∀ r ∈ st.tokenBalanceChanges.rows, ∀ r' ∈ st.tokenBalanceChanges.rows, r.slot = r'.slot →
      r.blockTime = r'.blockTime) : Coherent st.tokenBalanceChanges.rows := by
  have hslots : ∀ r ∈ st.tokenBalanceChanges.rows, ∀ r' ∈ st.tokenBalanceChanges.rows,
      r.txSignature = r'.txSignature → r.slot = r'.slot := by
    intro r hr r' hr' hsig
    obtain ⟨x, hx, hxs, hxslot⟩ := htx r hr
    obtain ⟨x', hx', hxs', hxslot'⟩ := htx r' hr'
    rw [← hxslot, ← hxslot', Table.eq_of_key hx hx' (hxs.trans (hsig.trans hxs'.symm))]
  exact ⟨st.tokenBalanceChanges.keyed, hslots, fun r hr r' hr' hsig => htime r hr r' hr' (hslots r hr r' hr' hsig)⟩

theorem Coherent.subset {rows rows' : List TokenBalanceChangesRow} (h : Coherent rows)
    (hd : (rows'.map TokenBalanceChangesRow.key).Nodup) (hsub : ∀ r ∈ rows', r ∈ rows) : Coherent rows' :=
  ⟨hd, fun r hr r' hr' => h.slots r (hsub r hr) r' (hsub r' hr'), fun r hr r' hr' =>
    h.times r (hsub r hr) r' (hsub r' hr')⟩

theorem Coherent.perm {rows rows' : List TokenBalanceChangesRow} (h : Coherent rows) (hp : rows'.Perm rows) :
    Coherent rows' :=
  h.subset ((hp.map _).nodup_iff.2 h.keyed) fun _ => hp.mem_iff.1

theorem Coherent.filter {rows : List TokenBalanceChangesRow} (h : Coherent rows) (p : TokenBalanceChangesRow → Bool) :
    Coherent (rows.filter p) :=
  h.subset (h.keyed.sublist (List.filter_sublist.map _)) fun _ => List.mem_of_mem_filter

theorem wsolRow_eq_some {rows : List TokenBalanceChangesRow} (h : Coherent rows) {sig : String}
    {w : TokenBalanceChangesRow} : wsolRow rows sig = some w ↔ w ∈ rows ∧ w.txSignature = sig ∧ w.mint = wsolMint := by
  constructor
  · intro hw
    have hp := List.find?_some hw
    exact ⟨List.mem_of_find?_eq_some hw, of_decide_eq_true hp⟩
  · rintro ⟨hw, hp⟩
    cases hfind : wsolRow rows sig with
    | none => exact absurd (decide_eq_true hp) (List.find?_eq_none.1 hfind w hw)
    | some w' =>
      have hp' : w'.txSignature = sig ∧ w'.mint = wsolMint := by
        have := List.find?_some hfind
        exact of_decide_eq_true this
      have hkey : w'.key = w.key := by
        rw [TokenBalanceChangesRow.key, TokenBalanceChangesRow.key, hp'.1, hp'.2, hp.1, hp.2]
      rw [List.inj_on_of_nodup_map h.keyed (List.mem_of_find?_eq_some hfind) hw hkey]

/-- The trade of a row depends on the rows of its transaction only. -/
theorem rowTrade_congr {rows rows' : List TokenBalanceChangesRow} (h : Coherent rows) (h' : Coherent rows')
    {r : TokenBalanceChangesRow} (hsame : ∀ w, w.txSignature = r.txSignature → (w ∈ rows ↔ w ∈ rows')) :
    rowTrade A rows r = rowTrade A rows' r := by
  have : wsolRow rows r.txSignature = wsolRow rows' r.txSignature := by
    ext w
    rw [wsolRow_eq_some h, wsolRow_eq_some h']
    exact and_congr_left fun hw => hsame w hw.1
  rw [rowTrade, rowTrade, this]

theorem storedTrades_perm {rows rows' : List TokenBalanceChangesRow} (h : Coherent rows) (hp : rows'.Perm rows) :
    storedTrades A rows' = storedTrades A rows := by
  have htrade : rowTrade A rows' = rowTrade A rows :=
    funext fun _ => rowTrade_congr (h.perm hp) h fun _ _ => hp.mem_iff
  rw [storedTrades, storedTrades, htrade, Multiset.coe_eq_coe]
  exact hp.filterMap _

/-- Rows of some slots trade as they do among all rows. -/
theorem storedTrades_filter {rows : List TokenBalanceChangesRow} (h : Coherent rows) (p : Int64 → Bool) :
    storedTrades A (rows.filter fun r => p r.slot) =
      ↑((rows.filter fun r => p r.slot).filterMap (rowTrade A rows)) := by
  refine congrArg _ (List.filterMap_congr fun r hr => rowTrade_congr (h.filter _) h fun w hw => ?_)
  obtain ⟨hr, hp⟩ := List.mem_filter.1 hr
  rw [List.mem_filter, and_iff_left_iff_imp]
  intro hwr
  rwa [h.slots w hwr r hr hw]

/-- The trades split along the slots. -/
theorem storedTrades_split {rows : List TokenBalanceChangesRow} (h : Coherent rows) (p : Int64 → Bool) :
    storedTrades A rows =
      storedTrades A (rows.filter fun r => p r.slot) + storedTrades A (rows.filter fun r => !p r.slot) := by
  rw [storedTrades_filter h, storedTrades_filter h fun slot => !p slot, Multiset.coe_add, storedTrades,
    Multiset.coe_eq_coe, ← List.filterMap_append]
  exact ((List.filter_append_perm (fun r => p r.slot) rows).symm).filterMap _

theorem mem_storedTrades {rows : List TokenBalanceChangesRow} {t : InferredTrade} :
    t ∈ storedTrades A rows ↔ ∃ r ∈ rows, rowTrade A rows r = some t := List.mem_filterMap

theorem rowTrade_spec {rows : List TokenBalanceChangesRow} {r : TokenBalanceChangesRow} {t : InferredTrade}
    (h : rowTrade A rows r = some t) : t.mint = r.mint ∧ dustThresholdSol A ≤ t.volumeSol := by
  simp only [rowTrade, Option.bind_eq_bind, Option.bind_eq_some_iff] at h
  obtain ⟨_, _, w, _, ht⟩ := h
  split at ht
  · obtain ⟨hmint, _, hvolume⟩ := tradeOf_spec ht
    exact ⟨hmint, hvolume⟩
  · cases ht

theorem rowTrade_blockTime {rows : List TokenBalanceChangesRow} {r : TokenBalanceChangesRow} {t : InferredTrade}
    (h : rowTrade A rows r = some t) : r.blockTime = some t.blockTime := by
  simp only [rowTrade, Option.bind_eq_bind, Option.bind_eq_some_iff] at h
  obtain ⟨time, htime, w, _, ht⟩ := h
  split at ht
  · rw [htime, (tradeOf_spec ht).2.1]
  · cases ht

/-- Every trade has a positive volume. -/
theorem volume_pos {rows : List TokenBalanceChangesRow} {t : InferredTrade} (h : t ∈ storedTrades A rows) :
    0 < t.volumeSol := by
  obtain ⟨r, _, ht⟩ := mem_storedTrades.1 h
  have hpos : 0 < dustThresholdSol A := A.pos (by norm_num)
  exact lt_of_lt_of_le hpos (rowTrade_spec ht).2

/-! ## The code infers the trades -/

/-- The timed rows of a transaction. -/
def txRows (rows : List TokenBalanceChangesRow) (sig : String) : List TokenBalanceChangesRow :=
  (rows.filter (·.blockTime.isSome)).filter (·.txSignature = sig)

/-- The snapshot of some rows of a transaction. -/
def snapshotOf (sig : String) : List TokenBalanceChangesRow → Option TxSnapshot
  | [] => none
  | r :: rs => some { signature := sig, blockTime := r.blockTime.getD 0, tokenDeltas := (r :: rs).map tokenDelta }

/-- The snapshot of the rows that are handed out is that of the rows. -/
theorem rowSnapshot_handedOut (rows : List TokenBalanceChangesRow) (sig : String) :
    rowSnapshot sig (sigRows (rows.map handedOut) sig) = snapshotOf sig (txRows rows sig) := by
  have hrows : sigRows (rows.map handedOut) sig = (txRows rows sig).map handedOut := by
    rw [sigRows, txRows, List.filter_map, List.filter_filter]
    congr 1
    apply List.filter_congr
    intro r _
    by_cases hs : r.txSignature = sig <;> simp [handedOut, hs]
  rw [hrows]
  cases txRows rows sig with
  | nil => rfl
  | cons r rs => simp [rowSnapshot, snapshotOf, handedOut, rowTokenDelta, tokenDelta]

/-- Snapshots: each transaction has the snapshot of its timed rows. -/
theorem lookup_pushDelta (rows : List TokenBalanceChangesRow) (sig : String) :
    ((rows.map handedOut).foldl pushDelta ∅).lookup sig = snapshotOf sig (txRows rows sig) := by
  rw [lookup_foldl_pushDelta, rowSnapshot_handedOut]

theorem mem_txRows {rows : List TokenBalanceChangesRow} {sig : String} {r : TokenBalanceChangesRow} :
    r ∈ txRows rows sig ↔ r ∈ rows ∧ r.txSignature = sig ∧ r.blockTime.isSome = true := by
  simp [txRows]

/-- The rows of a snapshot have its time, and its deltas are theirs. -/
theorem snapshotOf_spec {rows : List TokenBalanceChangesRow} (h : Coherent rows) {sig : String} {tx : TxSnapshot}
    (htx : snapshotOf sig (txRows rows sig) = some tx) :
    tx.signature = sig ∧ (∀ r ∈ rows, r.txSignature = sig → r.blockTime = some tx.blockTime) ∧
      tx.tokenDeltas = (txRows rows sig).map tokenDelta := by
  cases hrows : txRows rows sig with
  | nil =>
    rw [hrows] at htx
    cases htx
  | cons r₀ rs =>
    have hr₀ : r₀ ∈ txRows rows sig := hrows ▸ List.mem_cons_self
    obtain ⟨hr₀, hs₀, hsome⟩ := mem_txRows.1 hr₀
    obtain ⟨t, ht⟩ := Option.isSome_iff_exists.1 hsome
    rw [hrows] at htx
    cases htx
    refine ⟨rfl, fun r hr hs => ?_, rfl⟩
    rw [h.times r hr r₀ hr₀ (hs.trans hs₀.symm), ht]
    rfl

/-- The trades of a snapshot are those of its rows. -/
theorem inferTrades_snapshotOf {rows : List TokenBalanceChangesRow} (h : Coherent rows) {sig : String} {tx : TxSnapshot}
    (htx : snapshotOf sig (txRows rows sig) = some tx) :
    inferTrades A tx = (txRows rows sig).filterMap (rowTrade A rows) := by
  obtain ⟨hsig, htime, hdeltas⟩ := snapshotOf_spec h htx
  have hrow : ∀ r ∈ txRows rows sig, r.txSignature = sig ∧ r.blockTime = some tx.blockTime := by
    intro r hr
    obtain ⟨hr, hs, _⟩ := mem_txRows.1 hr
    exact ⟨hs, htime r hr hs⟩
  have hwsol : (txRows rows sig).find? (·.mint = wsolMint) = wsolRow rows sig := by
    cases hfind : (txRows rows sig).find? (·.mint = wsolMint) with
    | some w =>
      obtain ⟨hw, hs, _⟩ := mem_txRows.1 (List.mem_of_find?_eq_some hfind)
      have hm := List.find?_some hfind
      exact ((wsolRow_eq_some h).2 ⟨hw, hs, of_decide_eq_true hm⟩).symm
    | none =>
      cases hw : wsolRow rows sig with
      | none => rfl
      | some w =>
        obtain ⟨hw, hs, hm⟩ := (wsolRow_eq_some h).1 hw
        have hmem : w ∈ txRows rows sig := mem_txRows.2 ⟨hw, hs, by rw [htime w hw hs]; rfl⟩
        exact absurd (decide_eq_true hm) (List.find?_eq_none.1 hfind w hmem)
  have hfind : tx.tokenDeltas.find? (·.mint = wsolMint) = (wsolRow rows sig).map tokenDelta := by
    rw [hdeltas, List.find?_map, ← hwsol]
    rfl
  rw [inferTrades, hfind]
  cases hw : wsolRow rows sig with
  | none =>
    refine (List.filterMap_eq_nil_iff.2 fun r hr => ?_).symm
    obtain ⟨hs, ht⟩ := hrow r hr
    simp [rowTrade, ht, hs, hw]
  | some w =>
    have htrade : ∀ r ∈ txRows rows sig, rowTrade A rows r =
        if (tokenDelta w).deltaUi A ≠ 0 then tradeOf A tx ((tokenDelta w).deltaUi A) (tokenDelta r) else none := by
      intro r hr
      obtain ⟨hs, ht⟩ := hrow r hr
      simp only [rowTrade, ht, hs, hw, Option.bind_eq_bind, Option.bind_some]
      rw [← hsig]
      rfl
    rw [List.filterMap_congr htrade, Option.map_some, hdeltas]
    by_cases h0 : (tokenDelta w).deltaUi A = 0
    · simp [h0]
    · simp only [ne_eq, h0, not_false_eq_true, if_true, List.filterMap_map]
      rfl

/-- **The code infers exactly the stored trades**, in some order. -/
theorem tradesOf_storedTrades {rows : List TokenBalanceChangesRow} (h : Coherent rows) (ord : HashMap.IterOrder) :
    (tradesOf A ord (rows.map handedOut) : Multiset InferredTrade) = storedTrades A rows := by
  let bySig : HashMap String TxSnapshot := (rows.map handedOut).foldl pushDelta ∅
  have hlookup (sig : String) : bySig.lookup sig = snapshotOf sig (txRows rows sig) := lookup_pushDelta rows sig
  have hperm : (tradesOf A ord (rows.map handedOut)).Perm (bySig.entries.flatMap fun e => inferTrades A e.2) := by
    rw [tradesOf, snapshotsFromBalanceRows, List.flatMap_map]
    exact (ord.perm _).flatMap_right _
  have hentries : (bySig.entries.flatMap fun e => inferTrades A e.2) =
      (bySig.keys.flatMap (txRows rows)).filterMap (rowTrade A rows) := by
    rw [AList.keys, List.keys, List.flatMap_map, List.filterMap_flatMap]
    apply List.flatMap_congr
    intro e he
    exact inferTrades_snapshotOf h ((hlookup e.1).symm.trans (AList.mem_lookup_iff.2 he))
  have hrows : (bySig.keys.flatMap (txRows rows)).Perm (rows.filter (·.blockTime.isSome)) := by
    refine HashMap.flatMap_filter_perm _ bySig.keys_nodup fun r hr => ?_
    rw [← AList.mem_keys, ← AList.lookup_isSome, hlookup]
    have hmem : r ∈ txRows rows r.txSignature := by
      obtain ⟨hr, ht⟩ := List.mem_filter.1 hr
      exact mem_txRows.2 ⟨hr, rfl, ht⟩
    cases htx : txRows rows r.txSignature with
    | nil =>
      rw [htx] at hmem
      cases hmem
    | cons r' rs => rfl
  have htimed : (rows.filter (·.blockTime.isSome)).filterMap (rowTrade A rows) = rows.filterMap (rowTrade A rows) := by
    rw [List.filterMap_filter]
    apply List.filterMap_congr
    intro r _
    cases ht : r.blockTime <;> simp [rowTrade, ht]
  rw [storedTrades, Multiset.coe_eq_coe, ← htimed]
  rw [hentries] at hperm
  exact hperm.trans (hrows.filterMap _)

end Tenso.Cli
