import Tenso.Cli.RoundTrip
import Tenso.Cli.StoreLoss
import Tenso.Cli.Trades

/-!
# The slots in the store

Every slot has one block, whenever it is fetched: `chain`. `StoredSlots chain slots st` says that the token balance
changes in the store are those of the blocks of `slots`.

- A flush of blocks of the chain adds their slots (`StoredSlots.flushed`), and so does a store stage whose flushes all
  succeed (`storeStage_stored`).
- In such a store a signature stands for one slot and one time (`StoredSlots.coherent`), and the stored trades are those
  of the slots (`StoredSlots.mem_trades`).
-/

namespace Tenso.Cli

open Ingest (DecodedBlock FetchOutcome)
open Storage Ohlcv

/-- The token balance changes of the block of a slot. -/
def chainRows (chain : UInt64 → DecodedBlock) (slot : UInt64) : List TokenBalanceChangesRow :=
  newTokenBalanceChanges (parseBlock (chain slot)).slotRow

/-- The trades of the block of a slot. -/
def slotTrades (A : Arithmetic) (chain : UInt64 → DecodedBlock) (slot : UInt64) : Multiset InferredTrade :=
  storedTrades A (chainRows chain slot)

/-- The store holds the blocks of `slots`, as far as token balance changes and signatures go. -/
structure StoredSlots (chain : UInt64 → DecodedBlock) (slots : Set UInt64) (st : Store) : Prop where
  own : ∀ slot ∈ slots, (chain slot).slot = slot
  rows : ∀ slot ∈ slots, st.tokenBalanceChanges.rows.filter (·.slot = slot.toInt64) = chainRows chain slot
  other : ∀ slot, slot ∉ slots → st.tokenBalanceChanges.rows.filter (·.slot = slot.toInt64) = []
  signatures : ∀ slot ∈ slots, ∀ t ∈ (chain slot).transactions,
    ∃ r ∈ st.transactions.rows, r.signature = t.signature ∧ r.slot = slot.toInt64

theorem storedSlots_empty (chain : UInt64 → DecodedBlock) : StoredSlots chain ∅ .empty :=
  ⟨fun _ h => h.elim, fun _ h => h.elim, fun _ _ => rfl, fun _ h => h.elim⟩

theorem StoredSlots.congr {chain : UInt64 → DecodedBlock} {slots : Set UInt64} {st st' : Store}
    (h : StoredSlots chain slots st) (htx : st'.transactions = st.transactions)
    (htok : st'.tokenBalanceChanges = st.tokenBalanceChanges) : StoredSlots chain slots st' :=
  ⟨h.own, by rw [htok]; exact h.rows, by rw [htok]; exact h.other, by rw [htx]; exact h.signatures⟩

/-! ## Flushes -/

/-- The slots of blocks. -/
def slotsOf (blocks : List DecodedBlock) : Set UInt64 := {slot | ∃ d ∈ blocks, d.slot = slot}

/-- A flush of blocks of the chain adds their slots. -/
theorem StoredSlots.flushed {chain : UInt64 → DecodedBlock} {slots : Set UInt64} {st st' : Store}
    {blocks : List DecodedBlock} (h : StoredSlots chain slots st) (hchain : ∀ d ∈ blocks, chain d.slot = d)
    (hflush : Flushed blocks st st') : StoredSlots chain (slots ∪ slotsOf blocks) st' := by
  obtain ⟨st₁, hst₁, hrows, heq⟩ := hflush.replaced
  have htok : st'.tokenBalanceChanges = st₁.tokenBalanceChanges := by rw [heq]
  have hholds : ∀ slot ∈ slotsOf blocks, chain slot ∈ blocks ∧ (chain slot).slot = slot ∧
      Holds (parseBlock (chain slot)).slotRow st₁ := by
    rintro slot ⟨d, hd, rfl⟩
    obtain ⟨pre, d', post, hsplit, hslot, hlast⟩ := exists_last (List.mem_map_of_mem hd)
    have hd' : d' ∈ blocks := by simp [hsplit]
    rw [← toInt64_injective hslot, hchain d' hd']
    rw [hsplit] at hst₁
    exact ⟨hd', rfl, holds_live hst₁ hlast⟩
  have hframe : ∀ slot, slot ∉ slotsOf blocks → SameSlot slot.toInt64 st st' := by
    intro slot hno
    refine hflush.frame fun hm => hno ?_
    obtain ⟨d, hd, he⟩ := List.mem_map.1 hm
    exact ⟨d, hd, toInt64_injective he⟩
  refine ⟨fun slot hs => ?_, fun slot hs => ?_, fun slot hs => ?_, fun slot hs => ?_⟩
  · by_cases hb : slot ∈ slotsOf blocks
    · exact (hholds slot hb).2.1
    · exact h.own slot (hs.resolve_right hb)
  · by_cases hb : slot ∈ slotsOf blocks
    · obtain ⟨_, hown, hslot⟩ := hholds slot hb
      have := hslot.tokenBalanceChanges
      rwa [slotRow_slot, parseBlock_slot, hown, ← htok] at this
    · rw [(hframe slot hb).tokenBalanceChanges]
      exact h.rows slot (hs.resolve_right hb)
  · rw [Set.mem_union, not_or] at hs
    rw [(hframe slot hs.2).tokenBalanceChanges]
    exact h.other slot hs.1
  · intro t ht
    by_cases hb : slot ∈ slotsOf blocks
    · obtain ⟨_, hown, hslot⟩ := hholds slot hb
      have hsig : t.signature ∈ (newTransactions (parseBlock (chain slot)).slotRow).map (·.signature) := by
        rw [newTransactions_signatures]
        exact List.mem_map_of_mem ht
      obtain ⟨r, hr, hrs⟩ := List.mem_map.1 hsig
      have hr₁ : r ∈ st₁.transactions.rows := by
        rw [← hslot.transactions] at hr
        exact List.mem_of_mem_filter hr
      have hrslot := slot_newTransactions _ r hr
      rw [slotRow_slot, parseBlock_slot, hown] at hrslot
      rw [hrows]
      exact ⟨_, List.mem_map_of_mem hr₁, hrs, hrslot⟩
    · obtain ⟨r, hr, hrs, hrslot⟩ := h.signatures slot (hs.resolve_right hb) t ht
      have hmem : r ∈ st.transactions.rows.filter (·.slot = slot.toInt64) :=
        List.mem_filter.2 ⟨hr, decide_eq_true hrslot⟩
      rw [← (hframe slot hb).transactions] at hmem
      exact ⟨r, List.mem_of_mem_filter hmem, hrs, hrslot⟩

theorem Flushed.candles {blocks : List DecodedBlock} {st st' : Store} (h : Flushed blocks st st') :
    st'.candles = st.candles := by
  obtain ⟨st₁, hst₁, _, heq⟩ := h.replaced
  rw [heq]
  exact hst₁.candles

/-! ## The store stage -/

/-- The blocks of outcomes. -/
def ingestedBlocks (outcomes : List FetchOutcome) : List DecodedBlock :=
  outcomes.filterMap fun
    | .ingested block => some block
    | _ => none

/-- Every flush in the middle of the run succeeds. -/
def FlushesSucceed (f : Faults) (batchSize : ℕ) (outcomes : List ParsedOutcome) (c : Conn Store) : Prop :=
  ∀ pre o rest s s', outcomes = pre ++ o :: rest → storeLoop f batchSize pre (.init c) = (.ok (), s) →
    recordOutcome f o s = (.ok (), s') → batchSize ≤ s'.pending.length → (flushPending f s').1 = .ok ()

/-- The batch is never longer than the outcomes. -/
theorem storeLoop_pending_length {f : Faults} {batchSize : ℕ} : ∀ {os : List ParsedOutcome} {s s' : StoreState},
    s.conn.txn = none → storeLoop f batchSize os s = (.ok (), s') → s'.pending.length ≤ s.pending.length + os.length
  | [], s, s', _, h => by
    cases h
    exact Nat.le_refl _
  | o :: os, s, s', hidle, h => by
    rw [← List.singleton_append, storeLoop_append] at h
    obtain ⟨t, hone, hrest⟩ := h
    have hturn := storeLoop_singleton.1 hone
    have hle := storeLoop_pending_length (storeOutcome_frame hidle hturn).1 hrest
    obtain ⟨u, hrec, rfl⟩ := storeOutcome_eq_ok.1 hturn
    have hblocks : o.blocks.length ≤ 1 := by cases o <;> simp [ParsedOutcome.blocks]
    have hu : u.pending.length ≤ s.pending.length + 1 := by
      rw [(recordOutcome_eq_ok hidle hrec).2.1, List.length_append]
      omega
    rw [List.length_cons]
    split at hle
    · rw [flushPending_pending, List.length_nil] at hle
      omega
    · omega

/-- A run that is shorter than the batch has no flush in its middle. -/
theorem flushesSucceed_of_length_lt {f : Faults} {batchSize : ℕ} {outcomes : List ParsedOutcome} {c : Conn Store}
    (hidle : c.txn = none) (h : outcomes.length < batchSize) : FlushesSucceed f batchSize outcomes c := by
  intro pre o rest s s' hsplit hloop hrec hfull
  have hpre := storeLoop_pending_length (s := .init c) hidle hloop
  have hidle' := (storeLoop_frame (s := .init c) hidle hloop).1
  have hblocks : o.blocks.length ≤ 1 := by cases o <;> simp [ParsedOutcome.blocks]
  rw [(recordOutcome_eq_ok hidle' hrec).2.1, List.length_append] at hfull
  rw [hsplit, List.length_append, List.length_cons] at h
  have h0 : (StoreState.init c).pending.length = 0 := rfl
  omega

/-- The state of the stage: the blocks of `done` have been flushed, except for those that are pending. -/
structure Tracking (chain : UInt64 → DecodedBlock) (slots : Set UInt64) (c : Conn Store) (done : List FetchOutcome)
    (s : StoreState) : Prop where
  idle : s.conn.txn = none
  candles : s.conn.store.candles = c.store.candles
  stored : ∃ flushed pending, ingestedBlocks done = flushed ++ pending ∧ s.pending = pending.map parseBlock ∧
    StoredSlots chain (slots ∪ slotsOf flushed) s.conn.store

theorem blocks_parseOutcome (o : FetchOutcome) : (parseOutcome o).blocks = (ingestedBlocks [o]).map parseBlock := by
  cases o <;> rfl

theorem slotsOf_append (blocks blocks' : List DecodedBlock) :
    slotsOf (blocks ++ blocks') = slotsOf blocks ∪ slotsOf blocks' := by
  ext slot
  simp [slotsOf, or_and_right, exists_or]

section Stage

variable {chain : UInt64 → DecodedBlock} {slots : Set UInt64} {f : Faults} {c : Conn Store}

/-- A status write keeps track. -/
theorem Tracking.record {done : List FetchOutcome} {o : FetchOutcome} {s s' : StoreState}
    (h : Tracking chain slots c done s) (hrec : recordOutcome f (parseOutcome o) s = (.ok (), s')) :
    Tracking chain slots c (done ++ [o]) s' := by
  obtain ⟨hidle, hpending, hstore⟩ := recordOutcome_eq_ok h.idle hrec
  obtain ⟨flushed, pending, hdone, hp, hstored⟩ := h.stored
  refine ⟨hidle, by rw [hstore]; exact h.candles, flushed, pending ++ ingestedBlocks [o], ?_, ?_, ?_⟩
  · rw [← List.append_assoc, ← hdone, ingestedBlocks, ingestedBlocks, ingestedBlocks, List.filterMap_append]
  · rw [hpending, hp, blocks_parseOutcome, List.map_append]
  · rw [hstore]
    exact hstored.congr rfl rfl

/-- A flush that succeeds keeps track, and nothing is pending any more. -/
theorem Tracking.flush {done : List FetchOutcome} {s : StoreState} (h : Tracking chain slots c done s)
    (hchain : ∀ d ∈ ingestedBlocks done, chain d.slot = d) (hok : (flushPending f s).1 = .ok ()) :
    Tracking chain slots c done (flushPending f s).2 ∧
      StoredSlots chain (slots ∪ slotsOf (ingestedBlocks done)) (flushPending f s).2.conn.store := by
  obtain ⟨hidle, hcandles, flushed, pending, hdone, hp, hstored⟩ := h
  obtain ⟨⟨pending', _, _, _, _⟩, ⟨st, txn, n⟩⟩ := s
  simp only at hidle hp
  subst hidle hp
  simp only [flushPending] at hok ⊢
  rcases flush_cases f pending st n with ⟨e, m, hrun, _⟩ | ⟨st', m, hrun, _, _, hflush⟩ | ⟨_, _, e, _, _, hrun, _⟩
  · rw [hrun] at hok
    cases hok
  · have hstored' : StoredSlots chain (slots ∪ slotsOf (ingestedBlocks done)) st' := by
      rw [hdone, slotsOf_append, ← Set.union_assoc]
      refine hstored.flushed (fun d hd => hchain d ?_) hflush
      rw [hdone]
      exact List.mem_append_right _ hd
    rw [hrun]
    refine ⟨⟨rfl, hflush.candles.trans hcandles, ingestedBlocks done, [], (List.append_nil _).symm, rfl, hstored'⟩,
      hstored'⟩
  · rw [hrun] at hok
    cases hok

/-- The loop keeps track, when its flushes succeed. -/
theorem storeLoop_tracking {batchSize : ℕ} (hidle : c.txn = none) (hstored : StoredSlots chain slots c.store)
    {outcomes : List FetchOutcome} (hchain : ∀ d ∈ ingestedBlocks outcomes, chain d.slot = d)
    (hflush : FlushesSucceed f batchSize (outcomes.map parseOutcome) c) {done rest : List FetchOutcome}
    (hsplit : outcomes = done ++ rest) {s : StoreState}
    (h : storeLoop f batchSize (done.map parseOutcome) (.init c) = (.ok (), s)) : Tracking chain slots c done s := by
  induction done using List.reverseRecOn generalizing rest s with
  | nil =>
    cases h
    refine ⟨hidle, rfl, [], [], rfl, rfl, ?_⟩
    have : slotsOf [] = ∅ := Set.eq_empty_of_forall_notMem fun _ ⟨_, hd, _⟩ => List.not_mem_nil hd
    rw [this, Set.union_empty]
    exact hstored
  | append_singleton done o ih =>
    rw [List.append_assoc, List.singleton_append] at hsplit
    rw [List.map_append, List.map_singleton] at h
    obtain ⟨t, hpre, hlast⟩ := storeLoop_append.1 h
    obtain ⟨t', hrec, rfl⟩ := storeOutcome_eq_ok.1 (storeLoop_singleton.1 hlast)
    have htrack := (ih hsplit hpre).record hrec
    split
    · rename_i hfull
      refine (htrack.flush (fun d hd => hchain d ?_) ?_).1
      · rw [hsplit, ← List.singleton_append, ← List.append_assoc, ingestedBlocks, List.filterMap_append]
        exact List.mem_append_left _ hd
      · exact hflush (done.map parseOutcome) (parseOutcome o) (rest.map parseOutcome) t t'
          (by rw [hsplit, List.map_append, List.map_cons]) hpre hrec hfull
    · exact htrack

/-- **A store stage** whose flushes succeed adds the slots of its blocks. -/
theorem storeStage_stored {batchSize : ℕ} (hidle : c.txn = none) (hstored : StoredSlots chain slots c.store)
    {outcomes : List FetchOutcome} (hchain : ∀ d ∈ ingestedBlocks outcomes, chain d.slot = d)
    (hflush : FlushesSucceed f batchSize (outcomes.map parseOutcome) c) {counts : ℕ × ℕ × ℕ × ℕ} {s : StoreState}
    (h : storeStage f batchSize (outcomes.map parseOutcome) c = (.ok counts, s)) :
    s.conn.txn = none ∧ s.conn.store.candles = c.store.candles ∧
      StoredSlots chain (slots ∪ slotsOf (ingestedBlocks outcomes)) s.conn.store := by
  obtain ⟨t, hloop, hend⟩ := storeStage_eq_ok h
  have htrack := storeLoop_tracking hidle hstored hchain hflush (List.append_nil outcomes).symm hloop
  rcases hend with ⟨hempty, rfl⟩ | hlast
  · obtain ⟨flushed, pending, hdone, hp, hst⟩ := htrack.stored
    rw [hempty, eq_comm, List.map_eq_nil_iff] at hp
    rw [hp, List.append_nil] at hdone
    rw [hdone]
    exact ⟨htrack.idle, htrack.candles, hst⟩
  · have hdone := htrack.flush (f := f) hchain (by rw [hlast])
    rw [hlast] at hdone
    exact ⟨hdone.1.idle, hdone.1.candles, hdone.2⟩

end Stage

/-! ## The rows in the store -/

/-- A row of a block has a signature of the block, its slot and its time, and amounts that can be read back. -/
theorem chainRows_spec {chain : UInt64 → DecodedBlock} {slot : UInt64} {r : TokenBalanceChangesRow}
    (hr : r ∈ chainRows chain slot) : (∃ t ∈ (chain slot).transactions, t.signature = r.txSignature) ∧
      r.slot = (chain slot).slot.toInt64 ∧ r.blockTime = (chain slot).blockTime ∧ Readable r :=
  newTokenBalanceChanges_spec hr

namespace StoredSlots

variable {chain : UInt64 → DecodedBlock} {slots : Set UInt64} {st : Store}

/-- Every row belongs to a slot of the store. -/
theorem mem_rows (h : StoredSlots chain slots st) {r : TokenBalanceChangesRow} (hr : r ∈ st.tokenBalanceChanges.rows) :
    r.slot.toUInt64 ∈ slots ∧ r ∈ chainRows chain r.slot.toUInt64 := by
  have hmem : r ∈ st.tokenBalanceChanges.rows.filter (·.slot = r.slot.toUInt64.toInt64) :=
    List.mem_filter.2 ⟨hr, decide_eq_true (Int64.toInt64_toUInt64 _).symm⟩
  have hslot : r.slot.toUInt64 ∈ slots := by
    by_contra hno
    rw [h.other _ hno] at hmem
    cases hmem
  rw [h.rows _ hslot] at hmem
  exact ⟨hslot, hmem⟩

theorem readable (h : StoredSlots chain slots st) : ∀ r ∈ st.tokenBalanceChanges.rows, Readable r :=
  fun _ hr => (chainRows_spec (h.mem_rows hr).2).2.2.2

/-- A signature stands for one slot and one time: it is the key of the transactions. -/
theorem coherent (h : StoredSlots chain slots st) : Coherent st.tokenBalanceChanges.rows := by
  refine .of_transactions (fun r hr => ?_) fun r hr r' hr' hslot => ?_
  · obtain ⟨hslot, hrow⟩ := h.mem_rows hr
    obtain ⟨⟨t, ht, hsig⟩, _⟩ := chainRows_spec hrow
    obtain ⟨x, hx, hxs, hxslot⟩ := h.signatures _ hslot t ht
    exact ⟨x, hx, hxs.trans hsig, hxslot.trans (Int64.toInt64_toUInt64 _)⟩
  · rw [(chainRows_spec (h.mem_rows hr).2).2.2.1, (chainRows_spec (h.mem_rows hr').2).2.2.1, hslot]

/-- The stored trades of some slots are the trades of their blocks. -/
theorem mem_trades {A : Arithmetic} (h : StoredSlots chain slots st) {p : Int64 → Bool} {t : InferredTrade} :
    t ∈ storedTrades A (st.tokenBalanceChanges.rows.filter fun r => p r.slot) ↔
      ∃ slot ∈ slots, p slot.toInt64 = true ∧ t ∈ slotTrades A chain slot := by
  have hslot (slot : UInt64) (hs : slot ∈ slots) : t ∈ slotTrades A chain slot ↔
      ∃ r ∈ st.tokenBalanceChanges.rows, r.slot = slot.toInt64 ∧ rowTrade A st.tokenBalanceChanges.rows r = some t := by
    rw [slotTrades, ← h.rows slot hs, storedTrades_filter h.coherent fun s => s = slot.toInt64, Multiset.mem_coe,
      List.mem_filterMap]
    simp [and_assoc]
  rw [storedTrades_filter h.coherent, Multiset.mem_coe, List.mem_filterMap]
  constructor
  · rintro ⟨r, hr, ht⟩
    obtain ⟨hr, hp⟩ := List.mem_filter.1 hr
    obtain ⟨hs, _⟩ := h.mem_rows hr
    refine ⟨r.slot.toUInt64, hs, ?_, (hslot _ hs).2 ⟨r, hr, (Int64.toInt64_toUInt64 _).symm, ht⟩⟩
    rwa [Int64.toInt64_toUInt64]
  · rintro ⟨slot, hs, hp, ht⟩
    obtain ⟨r, hr, hrs, ht⟩ := (hslot slot hs).1 ht
    exact ⟨r, List.mem_filter.2 ⟨hr, by rw [hrs]; exact hp⟩, ht⟩

end StoredSlots

/-- The rows of the slots that were already in the store are the rows it had. -/
theorem StoredSlots.filter_perm {chain : UInt64 → DecodedBlock} {slots more : Set UInt64} {st st' : Store}
    (h : StoredSlots chain slots st) (h' : StoredSlots chain (slots ∪ more) st') {p : Int64 → Bool}
    (hp : ∀ slot : UInt64, p slot.toInt64 = true ↔ slot ∈ slots) :
    (st'.tokenBalanceChanges.rows.filter fun r => p r.slot).Perm st.tokenBalanceChanges.rows := by
  have hnodup (t : Table TokenBalanceChangesRow.key) : t.rows.Nodup := t.keyed.of_map _
  apply (List.perm_ext_iff_of_nodup ((hnodup _).filter _) (hnodup _)).2
  intro r
  rw [List.mem_filter]
  have hmem (s : Store) : r ∈ s.tokenBalanceChanges.rows ↔
      r ∈ s.tokenBalanceChanges.rows.filter (·.slot = r.slot.toUInt64.toInt64) := by
    rw [List.mem_filter, Int64.toInt64_toUInt64, decide_eq_true rfl]
    simp
  have hslot := hp r.slot.toUInt64
  rw [Int64.toInt64_toUInt64] at hslot
  rw [hslot]
  constructor
  · rintro ⟨hr, hs⟩
    rw [hmem, h'.rows _ (Or.inl hs)] at hr
    rwa [hmem, h.rows _ hs]
  · intro hr
    have hs := (h.mem_rows hr).1
    rw [hmem, h.rows _ hs] at hr
    exact ⟨by rwa [hmem, h'.rows _ (Or.inl hs)], hs⟩

end Tenso.Cli
