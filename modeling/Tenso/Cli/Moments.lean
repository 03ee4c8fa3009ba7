import Tenso.Cli.Ingest
import Tenso.Cli.Integrity

/-!
# Every moment of an ingest

A database call of an ingest is not one step for the store: after the transaction of a flush the steps are written one
by one, and a candle pass upserts one candle after the other. What holds between any two statements is what every
stretch of a call keeps (`KeptByCalls`): so it does at every moment of a call (`Section.always`), and at every moment
of an ingest (`ingest_keeps`), wherever that is stopped.
-/

namespace Tenso.Cli

open Tenso.Ingest (DecodedBlock FetchOutcome)
open Storage Ohlcv

/-! ## A flush up to a step -/

/-- What a flush has done to the store when it has written the first `k` steps. -/
structure FlushedTo (k : ℕ) (blocks : List DecodedBlock) (st st' : Store) : Prop where
  replaced : ∃ st₁, ReplacesAll (slotRows blocks) st st₁ ∧
    st'.transactions.rows = st₁.transactions.rows.map (withStep ((blockUpdates blocks).take k)) ∧
    st' = { st₁ with transactions := st'.transactions }

section FlushedTo

variable {k : ℕ} {blocks : List DecodedBlock} {st st' : Store}

theorem Flushed.flushedTo (h : Flushed blocks st st') : FlushedTo (blockUpdates blocks).length blocks st st' := by
  obtain ⟨st₁, hst₁, hrows, heq⟩ := h.replaced
  exact ⟨st₁, hst₁, by rwa [List.take_length], heq⟩

theorem FlushedTo.candles (h : FlushedTo k blocks st st') : st'.candles = st.candles := by
  obtain ⟨st₁, hst₁, _, heq⟩ := h.replaced
  rw [heq]
  exact hst₁.candles

theorem FlushedTo.ingestionStatus (h : FlushedTo k blocks st st') : st'.ingestionStatus = st.ingestionStatus := by
  obtain ⟨st₁, hst₁, _, heq⟩ := h.replaced
  rw [heq]
  exact hst₁.ingestionStatus

/-- Steps apart, it is the batch. -/
theorem FlushedTo.slotTables_eq (h : FlushedTo k blocks st st') :
    ∃ st₁, ReplacesAll (slotRows blocks) st st₁ ∧ slotTables st' = slotTables st₁ := by
  obtain ⟨st₁, hst₁, hrows, heq⟩ := h.replaced
  refine ⟨st₁, hst₁, funext fun slot => ?_⟩
  ext1
  · rw [heq]
    rfl
  · simp only [slotTables, hrows, filter_map_withStep, List.map_map]
    rfl
  · rw [heq]
    rfl
  · rw [heq]
    rfl

/-- It keeps all slots at one block. -/
theorem FlushedTo.oneBlock {P : DecodedBlock → Prop} (h : FlushedTo k blocks st st') (hone : ∀ slot, OneBlock P st slot)
    (hP : ∀ d ∈ blocks, P d) : ∀ slot, OneBlock P st' slot := by
  obtain ⟨st₁, hst₁, hsame⟩ := h.slotTables_eq
  intro slot
  rw [OneBlock, hsame]
  exact OneBlock.replaced hone hP hst₁ slot

/-- Frame: the rows of a slot that the batch does not name stay, with their steps. -/
theorem FlushedTo.frame (h : FlushedTo k blocks st st') {slot : Int64} (hs : slot ∉ blocks.map (·.slot.toInt64)) :
    SameSlot slot st st' := by
  obtain ⟨st₁, hst₁, hrows, heq⟩ := h.replaced
  have hs' : slot ∉ (slotRows blocks).map (·.slot.toInt64) := by rwa [slotRows_slots]
  have hframe := hst₁.frame hs'
  refine ⟨heq ▸ hframe.blocks, ?_, heq ▸ hframe.accountLocks, heq ▸ hframe.tokenBalanceChanges⟩
  rw [hrows, filter_map_withStep, hframe.transactions]
  conv => rhs; rw [← List.map_id (List.filter _ st.transactions.rows)]
  refine List.map_congr_left fun r hr => withStep_eq_self fun hu => ?_
  -- an update of a row outside the batch would be a duplicate signature
  obtain ⟨hr, hslot⟩ := List.mem_filter.1 hr
  obtain ⟨u, hu, he⟩ := List.mem_map.1 hu
  obtain ⟨d, hd, hu⟩ := mem_blockUpdates.1 (List.mem_of_mem_take hu)
  obtain ⟨r', hr', he'⟩ := exists_newTransactions hu
  have hd' : (parseBlock d).slotRow ∈ slotRows blocks := List.mem_map_of_mem hd
  refine hst₁.signature_ne hr ?_ hd' hr' (he'.trans he)
  rwa [of_decide_eq_true hslot]

/-- The batch alone. -/
theorem flushedTo_batch (h : ReplacesAll (slotRows blocks) st st') : FlushedTo 0 blocks st st' :=
  ⟨st', h, (List.map_id _).symm, rfl⟩

/-- The batch, and then some updates. -/
theorem flushedTo_of_run {st₁ : Store} (h : ReplacesAll (slotRows blocks) st st₁)
    (hrun : Stmt.run ((stepStatements (blocks.map parseBlock)).take k) st₁ = .ok st') : FlushedTo k blocks st st' := by
  rw [stepStatements_eq, ← List.map_take] at hrun
  obtain ⟨t, ht, hrows⟩ := run_updateSteps ((stepUpdates (blocks.map parseBlock)).take k) st₁
  obtain rfl := Except.ok.inj (ht.symm.trans hrun)
  exact ⟨st₁, h, hrows, rfl⟩

end FlushedTo

/-! ## What calls keep -/

/-- What the database calls of an ingest keep, and every stretch of one: a flush up to any of its steps, the status of
an outcome, and the first candles of a candle pass. -/
structure KeptByCalls (S : Setting) (J : Store → Prop) : Prop where
  flush : ∀ {k : ℕ} {blocks : List DecodedBlock} {st st' : Store},
    (∀ d ∈ blocks, d ∈ ingestedBlocks (S.args.outcomes S.answers)) → FlushedTo k blocks st st' → J st → J st'
  status : ∀ {o : FetchOutcome} {st : Store}, o ∈ S.args.outcomes S.answers → J st →
    J { st with ingestionStatus := st.ingestionStatus.upsert (statusRow (parseOutcome o)) }
  candles : ∀ {rows : List BalanceChangeRow} {st : Store} (k : ℕ),
    queryBalanceChangesForRange S.orders.rows S.args.startSlot S.args.toSlot st = .ok rows → J st →
      J { st with
        candles := st.candles.upsertAll
          ((candleRows S.arith S.orders (tradesOf S.arith S.orders.snapshots rows)).take k) }

/-- The section works on outcomes of the ingest. -/
def Section.Own (S : Setting) : Section → Prop
  | .status p => ∃ o ∈ S.args.outcomes S.answers, parseOutcome o = p
  | .flush blocks => ∃ ds : List DecodedBlock, ds.map parseBlock = blocks ∧
      ∀ d ∈ ds, d ∈ ingestedBlocks (S.args.outcomes S.answers)
  | _ => True

section Kept

variable {S : Setting} {J : Store → Prop} {c : Conn Store}

theorem always_flushScript (hJ : KeptByCalls S J) (hidle : c.txn = none) (h0 : J c.store) {blocks : List DecodedBlock}
    (hown : ∀ d ∈ blocks, d ∈ ingestedBlocks (S.args.outcomes S.answers)) :
    Script.Always (fun c => J c.store) (flushScript S.faults (blocks.map parseBlock)) c := by
  have hrows : (blocks.map parseBlock).map (·.slotRow) = slotRows blocks := by
    rw [List.map_map]
    rfl
  rw [flushScript, hrows, Script.always_bind, Conn.run_transactionScript]
  refine ⟨Conn.always_transactionScript hidle h0 fun st hrun =>
    hJ.flush hown (flushedTo_batch (run_replaceSlots.1 hrun)) h0, ?_⟩
  obtain ⟨st, txn, n⟩ := c
  obtain rfl : txn = none := hidle
  rcases replaceSlotsBatch_cases S.faults (slotRows blocks) st n with ⟨st₁, hrun, _, hst₁⟩ | ⟨e, m, hrun, _⟩
  · rw [replaceSlotsBatch] at hrun
    rw [hrun]
    exact Conn.always_executeScript rfl fun k s hs => hJ.flush hown (flushedTo_of_run hst₁ hs) h0
  · rw [replaceSlotsBatch] at hrun
    rw [hrun]
    exact h0

theorem always_candleScript (hJ : KeptByCalls S J) (hidle : c.txn = none) (h0 : J c.store) :
    Script.Always (fun c => J c.store) (candleScript S) c := by
  rw [candleScript, Script.always_bind, Script.always_ofCall, Script.run_ofCall, Conn.query_idle hidle]
  refine ⟨⟨h0, h0⟩, ?_⟩
  cases hrows : queryBalanceChangesForRange S.orders.rows S.args.startSlot S.args.toSlot c.store with
  | error e => exact h0
  | ok rows =>
    refine Conn.always_executeScript hidle fun k st hrun => ?_
    rw [candleStatements_eq, ← List.map_take, run_upsertCandle, Except.ok.injEq] at hrun
    rw [← hrun]
    exact hJ.candles k hrows h0

/-- At every moment of a call. -/
theorem Section.always (hJ : KeptByCalls S J) (hidle : c.txn = none) (h0 : J c.store) {sec : Section}
    (hown : sec.Own S) :
    Script.Always (fun c => J c.store) (sec.script S) c := by
  cases sec with
  | status p =>
    obtain ⟨o, ho, rfl⟩ := hown
    have hexec : J (c.execute S.faults
        (upsertIngestionStatus (parseOutcome o).slot (parseOutcome o).status.1 (parseOutcome o).status.2)).2.store := by
      rcases (Conn.execute_idle S.faults hidle _).2 with hsame | hst
      · rw [hsame]
        exact h0
      · rw [← Except.ok.inj hst]
        exact hJ.status ho h0
    exact (Script.always_bind _ _ _).2 ⟨⟨h0, hexec⟩, hexec⟩
  | flush blocks =>
    obtain ⟨ds, rfl, hds⟩ := hown
    have hflush := always_flushScript hJ hidle h0 hds
    exact (Script.always_bind _ _ _).2 ⟨hflush, hflush.finish⟩
  | candles =>
    have hcandles := always_candleScript hJ hidle h0
    exact (Script.always_bind _ _ _).2 ⟨hcandles, hcandles.finish⟩
  | stats => exact (Script.always_bind _ _ _).2 ⟨⟨h0, h0⟩, h0⟩

/-- A call leaves the connection idle. -/
theorem Section.idle (S : Setting) (hidle : c.txn = none) (sec : Section) : (sec.run S c).2.txn = none := by
  cases sec with
  | status p => exact (Conn.execute_idle S.faults hidle _).1
  | flush blocks =>
    obtain ⟨st, txn, n⟩ := c
    obtain rfl : txn = none := hidle
    rcases flushParsedBatch_cases S.faults blocks st n with ⟨e, m, hrun, _⟩ | ⟨st₁, _, _, ⟨t, m, hrun, _⟩ |
      ⟨t, e, k, m, hrun, _⟩⟩ <;>
    · simp only [Section.run, hrun]
  | candles =>
    simp only [Section.run, buildAndStoreCandles]
    rcases queryBalanceChangesForRange S.orders.rows S.args.startSlot S.args.toSlot c.store with e | rows
    · exact hidle
    · exact (Conn.executeAll_invariant (I := fun _ => True) hidle (fun _ _ _ _ _ h => h) trivial).1
  | stats => exact hidle

/-- A whole call. -/
theorem Section.keeps (hJ : KeptByCalls S J) (hidle : c.txn = none) (h0 : J c.store) {sec : Section}
    (hown : sec.Own S) :
    J (sec.run S c).2.store := by
  rw [← Section.run_script S sec hidle]
  exact (Section.always hJ hidle h0 hown).finish

end Kept

/-! ## The calls of an ingest -/

section Own

variable {S : Setting} {c₀ : Conn Store} {s : IngestState}

theorem parseOutcome_ingested {o : FetchOutcome} {b : ParsedBlock} (h : parseOutcome o = .ingested b) :
    ∃ d, o = .ingested d ∧ parseBlock d = b := by
  cases o with
  | ingested d => exact ⟨d, rfl, ParsedOutcome.ingested.inj h⟩
  | skipped slot => cases h
  | failed slot error => cases h

/-- The outcomes that have reached the store task are outcomes of the ingest. -/
theorem taken_mem (h : Transition.Reachable (ingest S c₀) s) {p : ParsedOutcome}
    (hp : p ∈ s.job.stages.pipeline.processed ++ s.job.stages.pipeline.store.hand) :
    ∃ o ∈ S.args.outcomes S.answers, parseOutcome o = p := by
  have hstages := ingest_stages h
  obtain ⟨taken, queued, held, hemitted, htaken, _⟩ := (stages_inv hstages).pipeline.inOrder
  rw [htaken] at hp
  obtain ⟨o, ho, rfl⟩ := List.mem_map.1 hp
  refine ⟨o, emitted_mem hstages ?_, rfl⟩
  rw [hemitted]
  simp [ho]

/-- The blocks of a flush are blocks of the ingest. -/
theorem flushed_mem (h : Transition.Reachable (ingest S c₀) s) {b : ParsedBlock}
    (hb : b ∈ s.job.stages.pipeline.flushes.getLastD []) :
    ∃ d ∈ ingestedBlocks (S.args.outcomes S.answers), parseBlock d = b := by
  have hbooks := (stages_inv (ingest_stages h)).pipeline.books.flushes
  have hflushed : b ∈ s.job.stages.pipeline.flushes.flatten := by
    rcases List.eq_nil_or_concat s.job.stages.pipeline.flushes with hnil | ⟨pre, last, hflushes⟩
    · rw [hnil] at hb
      cases hb
    · rw [hflushes, List.concat_eq_append, List.getLastD_concat] at hb
      rw [hflushes, List.concat_eq_append]
      exact List.mem_flatten_of_mem (List.mem_append_right _ (List.mem_singleton_self last)) hb
  have hprocessed : b ∈ s.job.stages.pipeline.processed.flatMap (·.blocks) := by
    rw [← hbooks]
    exact List.mem_append_left _ hflushed
  obtain ⟨p, hp, hpb⟩ := List.mem_flatMap.1 hprocessed
  obtain rfl := blocks_slot hpb
  obtain ⟨o, ho, hparse⟩ := taken_mem h (List.mem_append_left _ hp)
  obtain ⟨d, rfl, hd⟩ := parseOutcome_ingested hparse
  exact ⟨d, List.mem_filterMap.2 ⟨_, ho, rfl⟩, hd⟩

theorem exists_map_eq {α β : Type} {f : α → β} {p : α → Prop} : ∀ {ys : List β}, (∀ y ∈ ys, ∃ x, p x ∧ f x = y) →
    ∃ xs : List α, xs.map f = ys ∧ ∀ x ∈ xs, p x
  | [], _ => ⟨[], rfl, nofun⟩
  | y :: ys, h => by
    obtain ⟨⟨x, hx, rfl⟩, hys⟩ := List.forall_mem_cons.1 h
    obtain ⟨xs, rfl, hxs⟩ := exists_map_eq hys
    exact ⟨x :: xs, rfl, List.forall_mem_cons.2 ⟨hx, hxs⟩⟩

/-- An ingest works on its own outcomes. -/
theorem waitsFor_own (h : Transition.Reachable (ingest S c₀) s) {sec : Section} (hwaits : s.job.waitsFor = some sec) :
    sec.Own S := by
  have hlast (hblocks : sec = .flush (s.job.stages.pipeline.flushes.getLastD [])) : sec.Own S := by
    rw [hblocks]
    exact exists_map_eq fun b hb => flushed_mem h hb
  unfold Job.waitsFor at hwaits
  split at hwaits
  · split at hwaits
    · rename_i p hstore
      obtain rfl := Option.some.inj hwaits
      refine taken_mem h (List.mem_append_right _ ?_)
      rw [hstore]
      exact List.mem_singleton_self p
    · exact hlast (Option.some.inj hwaits).symm
    · exact hlast (Option.some.inj hwaits).symm
    · cases hwaits
  · obtain rfl := Option.some.inj hwaits
    trivial
  · obtain rfl := Option.some.inj hwaits
    trivial
  · cases hwaits

/-- **What the calls keep** holds in every state of an ingest, between its calls. -/
theorem ingest_keeps {J : Store → Prop} (hJ : KeptByCalls S J) (hidle : c₀.txn = none) (h0 : J c₀.store)
    (h : Transition.Reachable (ingest S c₀) s) : s.conn.txn = none ∧ J s.conn.store := by
  induction h with
  | init hinit =>
    rw [(hinit : _ = _)]
    exact ⟨hidle, h0⟩
  | step h hs ih =>
    cases hs with
    | free => exact ih
    | whole hwaits => exact ⟨Section.idle S ih.1 _, Section.keeps hJ ih.1 ih.2 (waitsFor_own h hwaits)⟩

end Own

/-! ## Stores that the repository has written -/

/-- All rows of a slot come from one block, and no transaction is open. -/
structure Written (c : Conn Store) : Prop where
  idle : c.txn = none
  oneBlock : ∀ slot, OneBlock (fun _ => True) c.store slot

/-- The calls of an ingest keep all slots at one block. -/
theorem keptByCalls_oneBlock {S : Setting} {P : DecodedBlock → Prop}
    (hP : ∀ d ∈ ingestedBlocks (S.args.outcomes S.answers), P d) :
    KeptByCalls S fun st => ∀ slot, OneBlock P st slot where
  flush hown hflush h := hflush.oneBlock h fun d hd => hP d (hown d hd)
  status _ h := h
  candles _ _ h := h

theorem Written.ingest {S : Setting} {c₀ : Conn Store} {s : IngestState} (h₀ : Written c₀)
    (h : Transition.Reachable (ingest S c₀) s) : Written s.conn := by
  obtain ⟨hidle, hone⟩ := ingest_keeps (keptByCalls_oneBlock fun _ _ => trivial) h₀.idle h₀.oneBlock h
  exact ⟨hidle, hone⟩

/-- The token rows of a store with one block a slot can be read back, and are coherent. -/
theorem OneBlock.coherent {P : DecodedBlock → Prop} {st : Store} (h : ∀ slot, OneBlock P st slot) :
    (∀ r ∈ st.tokenBalanceChanges.rows, Readable r) ∧ Coherent st.tokenBalanceChanges.rows := by
  have hint := OneBlock.integrity h
  refine ⟨fun r hr => ?_, .of_transactions (fun r hr => ?_) fun r hr r' hr' hslot => ?_⟩
  · obtain ⟨d, _, _, _, _, hx⟩ := OneBlock.of_token h hr
    exact newTokenBalanceChanges_readable hx
  · obtain ⟨x, hx, hsig, hxslot, _⟩ := (hint.tokenBalanceChanges r hr).1
    exact ⟨x, hx, hsig, hxslot⟩
  · obtain ⟨b, hb, hbslot, hbtime⟩ := (hint.tokenBalanceChanges r hr).2.1
    obtain ⟨b', hb', hbslot', hbtime'⟩ := (hint.tokenBalanceChanges r' hr').2.1
    rw [← hbtime, ← hbtime', Table.eq_of_key hb hb' (hbslot.trans (hslot.trans hbslot'.symm))]

/-- The trades that a candle pass infers are those of the rows of its range. -/
theorem tradesOf_query {A : Arithmetic} {P : DecodedBlock → Prop} {ord ordS : HashMap.IterOrder}
    {fromSlot toSlot : UInt64} {st : Store} {rows : List BalanceChangeRow} (hone : ∀ slot, OneBlock P st slot)
    (h : queryBalanceChangesForRange ord fromSlot toSlot st = .ok rows) :
    (tradesOf A ordS rows : Multiset InferredTrade) =
      storedTrades A (st.tokenBalanceChanges.rows.filter fun r => between fromSlot toSlot r.slot) := by
  obtain ⟨hread, hcoh⟩ := OneBlock.coherent hone
  obtain ⟨stored, hperm, hquery⟩ := queryBalanceChangesForRange_eq_ok ord fromSlot toSlot fun r hr _ => hread r hr
  obtain rfl := Except.ok.inj (hquery.symm.trans h)
  have hrange := hcoh.filter fun r => between fromSlot toSlot r.slot
  rw [tradesOf_storedTrades (hrange.perm hperm), storedTrades_perm hrange hperm]

/-- A store without blocks. -/
theorem written_of_empty {t : Table CandlesRow.key} {n : ℕ} : Written ⟨{ Store.empty with candles := t }, none, n⟩ :=
  ⟨rfl, fun _ => Or.inl rfl⟩

theorem written_empty : Written ⟨.empty, none, 0⟩ := written_of_empty

end Tenso.Cli
